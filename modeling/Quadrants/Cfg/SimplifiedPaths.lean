import Mathlib.Data.List.Perm.Basic
import Mathlib.Data.List.GetD
import Quadrants.Cfg.EraseNode
import Quadrants.Library.Contraction

/-!
`ControlFlowGraph::erase` contracts a node, unless the node is its only predecessor: then the
pointer to it stays in `prev` of its other successors.
-/

namespace Quadrants.Cfg.ControlFlowGraph

open Library.StatefulLoops (bind_eq_ok)
open Library.Contraction

variable {g g' : ControlFlowGraph} {u v x i : ℕ} {n : CFGNode}

structure Erased (g g' : ControlFlowGraph) (i x : ℕ) : Prop where
  nodes : g'.nodes = g.nodes.set i none
  finalNode : g'.finalNode = g.finalNode
  gone : g'.heap x = none
  empty : ∀ u, u ≠ x → (g'.heap u).map CFGNode.empty = (g.heap u).map CFGNode.empty
  outs : ∀ u v, u ≠ x → v ≠ x → g'.outs u v = g.outs u v + g.outs u x * g.outs x v
  outs_gone : ∀ u, u ≠ x → g'.outs u x = 0
  ins : ∀ u v, u ≠ x → v ≠ x → g'.ins u v = g.outs u v + g.outs u x * g.outs x v
  ins_gone : ∀ v, v ≠ x → g'.ins x v = 0
  sameNext : ∀ u, u ≠ x →
    g'.sameNext u = if g.samePrev x = some u then g.sameNext x else g.sameNext u
  samePrev : ∀ u, u ≠ x →
    g'.samePrev u = if g.sameNext x = some u then g.samePrev x else g.samePrev u

theorem next_reset (hu : u ≠ x) : (g.reset x i).next u = g.next u := by
  simp [next, reset, hu]

theorem prev_reset (hu : u ≠ x) : (g.reset x i).prev u = g.prev u := by
  simp [prev, reset, hu]

theorem erased_of_joins {g4 g5 : ControlFlowGraph} (h : Unlinked g g4 x) (hkeep : Keeps bare g4 g5)
    (houts : ∀ u v, u ≠ x → g5.outs u v = g4.outs u v + g.outs u x * g4.outs x v)
    (hins : ∀ u v, v ≠ x → g5.ins u v = g4.ins u v + g.outs u x * g4.outs x v)
    (hself : ∀ v, v ≠ x → g.outs x x * g.outs x v = 0) (hsymm : ∀ u v, g.outs u v = g.ins u v) :
    Erased g (g5.reset x i) i x := by
  have hlinks := hkeep.bare
  refine ⟨?_, ?_, ?_, fun u hu => ?_, fun u v hu hv => ?_, fun u hu => ?_, fun u v hu hv => ?_,
    fun v hv => ?_, fun u hu => ?_, fun u hu => ?_⟩
  · rw [reset, hkeep.nodes, h.nodes]
  · rw [reset, hkeep.finalNode, h.finalNode]
  · simp [reset]
  · have hbare := @heap_of_keeps _ _ _ u _ CFGNode.empty hkeep fun _ => rfl
    rw [← h.empty u, ← hbare]
    simp [reset, hu]
  · rw [ControlFlowGraph.outs, next_reset hu, ← ControlFlowGraph.outs, houts u v hu, h.outs, h.outs,
      if_neg hv, if_neg hv]
  · rw [ControlFlowGraph.outs, next_reset hu, ← ControlFlowGraph.outs, houts u x hu, h.outs, h.outs,
      if_pos rfl, if_pos rfl, Nat.mul_zero]
  · rw [ControlFlowGraph.ins, prev_reset hv, ← ControlFlowGraph.ins, hins u v hv, h.ins u v hv,
      h.outs, if_neg hu, if_neg hv, ← hsymm u v]
  · rw [ControlFlowGraph.ins, prev_reset hv, ← ControlFlowGraph.ins, hins x v hv, h.ins x v hv,
      h.outs, if_pos rfl, if_neg hv, hself v hv]
  · rw [← h.sameNext u hu, ← hlinks.1]
    simp [ControlFlowGraph.sameNext, reset, hu]
  · rw [← h.samePrev u hu, ← hlinks.2]
    simp [ControlFlowGraph.samePrev, reset, hu]

section Erase

theorem foldlM_join_of_nil {g : ControlFlowGraph} {ps : List ℕ} (hx : g.Alive x)
    (hnil : g.next x = []) : ps.foldlM (fun g p => g.join x p) g = .ok g := by
  obtain ⟨n, hderef, hn⟩ := exists_deref hx
  have hjoin : ∀ p, g.join x p = .ok g := fun p => by
    rw [next_of_heap hn] at hnil
    simp only [join, hderef, Bind.bind, Except.bind, hnil, List.foldlM_nil]
    rfl
  induction ps with
  | nil => rfl
  | cons p ps ih =>
    rw [List.foldlM_cons, hjoin]
    exact ih

theorem erase_eq {g1 g2 g3 g4 : ControlFlowGraph} (hi : g.nodes[i]? = some (some x))
    (hn : g.heap x = some n) (hempty : n.empty = true) (h1 : g.relinkPrev x = .ok g1)
    (h2 : g1.relinkNext x = .ok g2) (h3 : g2.unlinkPrevs x = .ok g3)
    (h4 : g3.unlinkNexts x = .ok g4) :
    g.erase i = (g4.joins x).bind fun g5 => .ok (g5.reset x i) := by
  simp only [erase, hi, deref, hn, Bind.bind, Except.bind, hempty, if_true, h1, h2, h3, h4]
  rfl

theorem count_le_one_of_length {l : List ℕ} (h : l.length ≤ 1) (hx : x ∈ l) : l = [x] := by
  rcases l with _ | ⟨y, _ | ⟨z, l⟩⟩
  · cases hx
  · rw [List.mem_singleton.1 hx]
  · simp at h

variable (hvalid : g.Valid) (hi : g.nodes[i]? = some (some x)) (hn : g.heap x = some n)
  (hempty : n.empty = true)

include hvalid hi hn hempty

theorem erase_proper (hdegree : n.prev.length ≤ 1 ∨ n.next.length ≤ 1)
    (hproper : ¬g.OwnPredecessor x) : ∃ g', g.erase i = .ok g' ∧ Erased g g' i x := by
  have hx := hvalid.alive i x hi
  obtain ⟨g1, g2, g3, g4, h1, h2, h3, h4, hunlinked⟩ := exists_unlinked hvalid hx
  have hx4 := hunlinked.alive.2 hx
  obtain ⟨n4, hderef, hn4⟩ := exists_deref hx4
  have hjoins : g4.joins x = (g4.prev x).foldlM (fun g p => g.join x p) g4 := by
    simp only [joins, hderef, Bind.bind, Except.bind, prev_of_heap hn4]
  have hprev4 : ∀ u, (g4.prev x).count u = g.outs u x := fun u => by
    rw [← ControlFlowGraph.ins, hunlinked.ins_self, hvalid.symm]
  rw [erase_eq hi hn hempty h1 h2 h3 h4, hjoins]
  by_cases hself : x ∈ g.prev x
  · -- the node is one of its predecessors, so it is its only successor
    have hnext : g.next x = [x] := by
      rcases hdegree with hone | hone
      · have hprev : g.prev x = [x] := by
          rw [prev_of_heap hn] at hself ⊢
          exact count_le_one_of_length hone hself
        by_contra hne
        exact hproper ⟨hprev, hne⟩
      · have hcount : 0 < g.outs x x := by
          rw [hvalid.symm]
          exact List.count_pos_iff.2 hself
        have hmem := List.count_pos_iff.1 hcount
        rw [next_of_heap hn] at hmem ⊢
        exact count_le_one_of_length hone hmem
    have hzero : ∀ v, v ≠ x → g.outs x v = 0 := fun v hv => by
      rw [outs, hnext]
      simp [Ne.symm hv]
    have hnil : g4.next x = [] := by
      refine List.eq_nil_iff_forall_not_mem.2 fun v hv => ?_
      have hpos := List.count_pos_iff.2 hv
      rw [← ControlFlowGraph.outs, hunlinked.outs] at hpos
      split at hpos
      · exact absurd hpos (Nat.lt_irrefl 0)
      · next hvx => exact absurd hpos (by rw [hzero v hvx]; exact Nat.lt_irrefl 0)
    have hnone : ∀ v, g4.outs x v = 0 := fun v => by
      rw [outs, hnil, List.count_nil]
    refine ⟨_, by rw [foldlM_join_of_nil hx4 hnil]; rfl, ?_⟩
    refine erased_of_joins hunlinked (Keeps.refl g4) (fun u v _ => ?_) (fun u v _ => ?_)
      (fun v hv => ?_) hvalid.symm
    · rw [hnone, Nat.mul_zero, Nat.add_zero]
    · rw [hnone, Nat.mul_zero, Nat.add_zero]
    · rw [hzero v hv, Nat.mul_zero]
  · have hzero : g.outs x x = 0 := by
      rw [hvalid.symm]
      exact List.count_eq_zero.2 hself
    obtain ⟨g5, h5, hkeep, -, houts, hins⟩ := @joins_spec g4 x (g4.prev x)
      (fun p hp => by
        have hcount := List.count_pos_iff.2 hp
        rw [hprev4] at hcount
        refine ⟨hunlinked.alive.2 (alive_of_mem_next (List.count_pos_iff.1 hcount)), ?_⟩
        rintro rfl
        omega)
      hx4
      (fun q hq => by
        have hcount := List.count_pos_iff.2 hq
        rw [← ControlFlowGraph.outs, hunlinked.outs] at hcount
        split at hcount
        · omega
        · exact hunlinked.alive.2 (hvalid.alive_of_mem_next (List.count_pos_iff.1 hcount)))
    refine ⟨_, by rw [h5]; rfl, ?_⟩
    refine erased_of_joins hunlinked hkeep (fun u v _ => ?_) (fun u v _ => ?_) (fun v _ => ?_)
      hvalid.symm
    · rw [houts, hprev4]
    · rw [hins, hprev4]
    · rw [hzero, Nat.zero_mul]

theorem erase_improper (hbad : g.OwnPredecessor x) :
    ∃ g' v, g.erase i = .ok g' ∧ v ≠ x ∧ g.Alive v ∧ x ∈ g'.prev v := by
  have hx := hvalid.alive i x hi
  obtain ⟨g1, g2, g3, g4, h1, h2, h3, h4, hunlinked⟩ := exists_unlinked hvalid hx
  have hx4 := hunlinked.alive.2 hx
  obtain ⟨n4, hderef, hn4⟩ := exists_deref hx4
  have hprev4 : g4.prev x = [x] := by
    refine List.perm_singleton.1 (List.perm_iff_count.2 fun u => ?_)
    rw [← ControlFlowGraph.ins, hunlinked.ins_self, ControlFlowGraph.ins, hbad.1]
  have hself : g.outs x x = 1 := by
    rw [hvalid.symm, ins, hbad.1, List.count_singleton_self]
  -- another successor
  obtain ⟨v, hv, hmem⟩ : ∃ v, v ≠ x ∧ v ∈ g.next x := by
    by_contra hnone
    push Not at hnone
    have hall : ∀ v ∈ g.next x, v = x := fun v hv => by
      by_contra hne
      exact hnone v hne hv
    have hreplicate := List.eq_replicate_of_mem hall
    have hlength : (g.next x).length = 1 := by
      rw [← hself, outs]
      rw [hreplicate, List.count_replicate_self, List.length_replicate]
    rw [hlength] at hreplicate
    exact hbad.2 hreplicate
  have hmem4 : v ∈ g4.next x := by
    have hcount := List.count_pos_iff.2 hmem
    refine List.count_pos_iff.1 ?_
    rw [← outs, hunlinked.outs, if_neg hv]
    exact hcount
  obtain ⟨g5, h5, -, -, hins⟩ := @addEdges_spec g4 x (g4.next x) hx4 (fun q hq => by
    have hcount := List.count_pos_iff.2 hq
    rw [← outs, hunlinked.outs] at hcount
    split at hcount
    · omega
    · exact hunlinked.alive.2 (hvalid.alive_of_mem_next (List.count_pos_iff.1 hcount)))
  have hjoins : g4.joins x = .ok g5 := by
    rw [next_of_heap hn4] at h5
    have hjoin : g4.join x x = .ok g5 := by
      simp only [join, hderef, Bind.bind, Except.bind]
      exact h5
    rw [prev_of_heap hn4] at hprev4
    simp only [joins, hderef, Bind.bind, Except.bind, hprev4, List.foldlM_cons, hjoin,
      List.foldlM_nil]
    rfl
  refine ⟨g5.reset x i, v, ?_, hv, hvalid.alive_of_mem_next hmem, ?_⟩
  · rw [erase_eq hi hn hempty h1 h2 h3 h4, hjoins]
    rfl
  · rw [prev_reset hv]
    refine List.count_pos_iff.1 ?_
    rw [← ControlFlowGraph.ins, hins, if_pos rfl]
    have := List.count_pos_iff.2 hmem4
    omega

end Erase

end Quadrants.Cfg.ControlFlowGraph

/-!
What one call of `ControlFlowGraph::erase` keeps: the edges on both sides and the paths, or the
pointer to a node that is gone.
-/

namespace Quadrants.Cfg.ControlFlowGraph

open Library.StatefulLoops (bind_eq_ok)
open Library.Contraction

variable {g g' g'' : ControlFlowGraph} {u v x i : ℕ} {n : CFGNode}

def edge (g : ControlFlowGraph) (u v : ℕ) : Prop :=
  v ∈ g.next u

def nonEmpty (g : ControlFlowGraph) (u : ℕ) : Bool :=
  (g.heap u).any fun n => !n.empty

/-- The list is the trace of a path from the start node to the final node. -/
def HasTrace (g : ControlFlowGraph) (l : List ℕ) : Prop :=
  ∃ s f, g.nodes[startNode]? = some (some s) ∧ g.nodes[g.finalNode]? = some (some f) ∧
    Trace g.edge g.nonEmpty s f l

structure Simplified (g g' : ControlFlowGraph) : Prop where
  start : g'.nodes[startNode]? = g.nodes[startNode]?
  final : g'.nodes[g'.finalNode]? = g.nodes[g.finalNode]?
  next_kept : ∀ u v, some u ∈ g'.nodes → v ∈ g'.next u → some v ∈ g'.nodes
  prev_kept : ∀ u v, some v ∈ g'.nodes → u ∈ g'.prev v → some u ∈ g'.nodes
  symm : ∀ u v, some u ∈ g'.nodes → some v ∈ g'.nodes →
    (g'.next u).count v = (g'.prev v).count u
  traces : ∀ l, g'.HasTrace l ↔ g.HasTrace l

structure Kept (g g' : ControlFlowGraph) : Prop where
  valid : g'.Valid
  length : g'.nodes.length = g.nodes.length
  start : g'.nodes[startNode]? = g.nodes[startNode]?
  finalNode : g'.finalNode = g.finalNode
  final : g'.nodes[g.finalNode]? = g.nodes[g.finalNode]?
  traces : ∀ l, g'.HasTrace l ↔ g.HasTrace l

theorem Kept.refl (h : g.Valid) : Kept g g :=
  ⟨h, rfl, rfl, rfl, rfl, fun _ => Iff.rfl⟩

theorem Kept.trans (h : Kept g g') (h' : Kept g' g'') : Kept g g'' where
  valid := h'.valid
  length := h'.length.trans h.length
  start := h'.start.trans h.start
  finalNode := h'.finalNode.trans h.finalNode
  final := by rw [← h.final, ← h.finalNode, h'.final]
  traces := fun l => (h'.traces l).trans (h.traces l)

theorem Erased.alive (h : Erased g g' i x) : g'.Alive u ↔ u ≠ x ∧ g.Alive u := by
  by_cases hu : u = x
  · subst hu
    simp [Alive, h.gone]
  · rw [Alive, Ne, ← Option.map_eq_none_iff (f := CFGNode.empty), h.empty u hu,
      Option.map_eq_none_iff]
    exact ⟨fun hne => ⟨hu, hne⟩, fun hne => hne.2⟩

theorem Erased.next_gone (h : Erased g g' i x) : g'.next x = [] := by
  simp [next, h.gone]

theorem Erased.prev_gone (h : Erased g g' i x) : g'.prev x = [] := by
  simp [prev, h.gone]

variable {nodes : List (Option ℕ)} {p q : ℕ}

theorem getElem?_set_none {i j : ℕ}
    (h : (nodes.set i none)[j]? = some (some p)) : j ≠ i ∧ nodes[j]? = some (some p) := by
  rw [List.getElem?_set] at h
  split at h
  · split at h <;> cases h
  · next hne => exact ⟨Ne.symm hne, h⟩

theorem Erased.linked (h : Erased g g' i x) (hvalid : g.Valid) (u v : ℕ) :
    g'.sameNext u = some v ↔ g'.samePrev v = some u := by
  have hgone : g'.sameNext x = none ∧ g'.samePrev x = none := by
    simp [ControlFlowGraph.sameNext, ControlFlowGraph.samePrev, h.gone]
  have hlinked := hvalid.linked
  by_cases hu : u = x
  · subst hu
    refine iff_of_false (by rw [hgone.1]; simp) fun hprev => ?_
    by_cases hv : v = u
    · rw [hv, hgone.2] at hprev
      cases hprev
    · rw [h.samePrev v hv] at hprev
      split at hprev
      · next hnext =>
          -- then `x` is its own neighbour, and it has no other one
          have hself := (hlinked u u).2 hprev
          rw [hself] at hnext
          exact hv (Option.some.inj hnext).symm
      · next hnext => exact hnext ((hlinked u v).2 hprev)
  · by_cases hv : v = x
    · subst hv
      refine iff_of_false (fun hnext => ?_) (by rw [hgone.2]; simp)
      rw [h.sameNext u hu] at hnext
      split at hnext
      · next hprev =>
          have hself := (hlinked v v).1 hnext
          rw [hself] at hprev
          exact hu (Option.some.inj hprev).symm
      · next hprev => exact hprev ((hlinked u v).1 hnext)
    · rw [h.sameNext u hu, h.samePrev v hv]
      have hx := hlinked u x
      have hx' := hlinked x v
      have huv := hlinked u v
      by_cases hp : g.samePrev x = some u
      · have hux := hx.2 hp
        rw [if_pos hp]
        by_cases hq : g.sameNext x = some v
        · rw [if_pos hq]
          exact iff_of_true hq hp
        · rw [if_neg hq]
          refine iff_of_false hq fun hprev => ?_
          rw [huv.2 hprev] at hux
          exact hv (Option.some.inj hux)
      · rw [if_neg hp]
        by_cases hq : g.sameNext x = some v
        · rw [if_pos hq]
          refine iff_of_false (fun hnext => ?_) hp
          rw [huv.1 hnext] at hx'
          exact hu (Option.some.inj (hx'.1 hq))
        · rw [if_neg hq]
          exact huv

theorem Erased.edge_iff (h : Erased g g' i x) (u v : ℕ) : g'.edge u v ↔ Contract g.edge x u v := by
  have hpos : ∀ g : ControlFlowGraph, ∀ u v, g.edge u v ↔ 0 < g.outs u v := fun g u v =>
    List.count_pos_iff.symm
  by_cases hu : u = x
  · subst hu
    refine iff_of_false ?_ fun hcontract => hcontract.1 rfl
    rw [edge, h.next_gone]
    exact List.not_mem_nil
  · by_cases hv : v = x
    · subst hv
      refine iff_of_false ?_ fun hcontract => hcontract.2.1 rfl
      rw [hpos, h.outs_gone u hu]
      exact Nat.lt_irrefl 0
    · have hmul : 0 < g.outs u x * g.outs x v ↔ 0 < g.outs u x ∧ 0 < g.outs x v := by
        simp only [Nat.pos_iff_ne_zero, Nat.mul_ne_zero_iff]
      rw [Contract, hpos, hpos, hpos, hpos, h.outs u v hu hv, Nat.add_pos_iff_pos_or_pos, hmul]
      exact ⟨fun hor => ⟨hu, hv, hor⟩, fun hand => hand.2.2⟩

theorem Erased.nonEmpty (h : Erased g g' i x) (hn : g.heap x = some n) (hempty : n.empty = true) :
    g'.nonEmpty = g.nonEmpty := by
  funext u
  by_cases hu : u = x
  · subst hu
    simp [ControlFlowGraph.nonEmpty, h.gone, hn, hempty]
  · have hheap := congrArg (Option.any fun b => !b) (h.empty u hu)
    simpa only [ControlFlowGraph.nonEmpty, Option.any_map, Function.comp_def] using hheap

theorem Erased.valid (h : Erased g g' i x) (hvalid : g.Valid) (hi : g.nodes[i]? = some (some x))
    (hstart : i ≠ startNode) (hfinal : i ≠ g.finalNode) : g'.Valid where
  alive := by
    intro j p hp
    rw [h.nodes] at hp
    obtain ⟨hj, hp⟩ := getElem?_set_none hp
    refine h.alive.2 ⟨?_, hvalid.alive j p hp⟩
    rintro rfl
    exact hj (hvalid.place j i p hp hi)
  place := by
    intro j k p hj hk
    rw [h.nodes] at hj hk
    exact hvalid.place j k p (getElem?_set_none hj).2 (getElem?_set_none hk).2
  owner := by
    intro p hp
    obtain ⟨hpx, hp⟩ := h.alive.1 hp
    obtain ⟨j, hj⟩ := hvalid.owner p hp
    refine ⟨j, ?_⟩
    rw [h.nodes, List.getElem?_set_ne, hj]
    rintro rfl
    rw [hi] at hj
    exact hpx (Option.some.inj (Option.some.inj hj)).symm
  symm := by
    intro u v
    by_cases hu : u = x
    · subst hu
      rw [ControlFlowGraph.outs, h.next_gone, List.count_nil]
      by_cases hv : v = u
      · rw [hv, ControlFlowGraph.ins, h.prev_gone, List.count_nil]
      · rw [h.ins_gone v hv]
    · by_cases hv : v = x
      · rw [hv, h.outs_gone u hu, ControlFlowGraph.ins, h.prev_gone, List.count_nil]
      · rw [h.outs u v hu hv, h.ins u v hu hv]
  linked := h.linked hvalid
  start := by
    rw [h.nodes, List.getElem?_set_ne hstart]
    exact hvalid.start
  final := by
    rw [h.nodes, h.finalNode, List.getElem?_set_ne hfinal]
    exact hvalid.final

theorem Erased.kept (h : Erased g g' i x) (hvalid : g.Valid) (hi : g.nodes[i]? = some (some x))
    (hn : g.heap x = some n) (hempty : n.empty = true) (hstart : i ≠ startNode)
    (hfinal : i ≠ g.finalNode) : Kept g g' := by
  have hs : g'.nodes[startNode]? = g.nodes[startNode]? := by
    rw [h.nodes, List.getElem?_set_ne hstart]
  have hf : g'.nodes[g.finalNode]? = g.nodes[g.finalNode]? := by
    rw [h.nodes, List.getElem?_set_ne hfinal]
  refine ⟨h.valid hvalid hi hstart hfinal, by rw [h.nodes, List.length_set], hs, h.finalNode, hf,
    fun l => ?_⟩
  have hne : ∀ j p, j ≠ i → g.nodes[j]? = some (some p) → p ≠ x := by
    rintro j p hj hp rfl
    exact hj (hvalid.place j i p hp hi)
  have hsilent : g.nonEmpty x = false := by
    simp [ControlFlowGraph.nonEmpty, hn, hempty]
  rw [HasTrace, hs, h.finalNode, hf, h.nonEmpty hn hempty]
  refine exists_congr fun s => exists_congr fun f => and_congr_right fun hs => ?_
  refine and_congr_right fun hf => ?_
  rw [trace_congr h.edge_iff]
  exact trace_contract_iff hsilent (hne _ s (Ne.symm hstart) hs) (hne _ f (Ne.symm hfinal) hf)

structure Dangling (g : ControlFlowGraph) : Prop extends Owned g where
  exists_gone : ∃ u v, some v ∈ g.nodes ∧ u ∈ g.prev v ∧ ¬g.Alive u

structure Grows (x : ℕ) (g g' : ControlFlowGraph) : Prop where
  nodes : g'.nodes = g.nodes
  finalNode : g'.finalNode = g.finalNode
  alive : ∀ u, g'.Alive u ↔ g.Alive u
  prev : ∀ u v, u ≠ x → u ∈ g.prev v → u ∈ g'.prev v

theorem Grows.refl (x : ℕ) (g : ControlFlowGraph) : Grows x g g :=
  ⟨rfl, rfl, fun _ => Iff.rfl, fun _ _ _ h => h⟩

theorem Grows.trans (h : Grows x g g') (h' : Grows x g' g'') : Grows x g g'' :=
  ⟨h'.nodes.trans h.nodes, h'.finalNode.trans h.finalNode,
    fun u => (h'.alive u).trans (h.alive u), fun u v hu hv => h'.prev u v hu (h.prev u v hu hv)⟩

theorem deref_ok (h : g.deref p = .ok n) : g.heap p = some n := by
  unfold deref at h
  split at h
  · next m hm =>
      cases h
      exact hm
  · cases h

theorem grows_store {m : CFGNode} (h : g.heap p = some m)
    (hprev : ∀ u, u ≠ x → u ∈ m.prev → u ∈ n.prev) : Grows x g (g.store p n) := by
  refine ⟨rfl, rfl, fun u => ?_, fun u v hu hv => ?_⟩
  · by_cases hup : u = p
    · subst hup
      simp [Alive, store, h]
    · simp [Alive, store, hup]
  · rw [prev_store]
    split
    · next hvp =>
        rw [hvp, prev_of_heap h] at hv
        exact hprev u hu hv
    · exact hv

theorem foldlM_grows {f : ControlFlowGraph → ℕ → Except Fault ControlFlowGraph} {l : List ℕ}
    (hf : ∀ a b c, f a b = .ok c → Grows x a c) (h : l.foldlM f g = .ok g') : Grows x g g' := by
  induction l generalizing g with
  | nil =>
    cases h
    exact Grows.refl x _
  | cons a l ih =>
    rw [List.foldlM_cons, bind_eq_ok] at h
    obtain ⟨g1, h1, h⟩ := h
    exact (hf _ a g1 h1).trans (ih h)

theorem addEdge_grows (h : g.addEdge p q = .ok g') : Grows x g g' := by
  simp only [addEdge, bind_eq_ok] at h
  obtain ⟨n, hn, m, hm, h⟩ := h
  cases h
  refine Grows.trans ?_ (grows_store (deref_ok hm) fun u _ hu => List.mem_append_left _ hu)
  exact grows_store (deref_ok hn) fun u _ hu => hu

theorem unlinkNext_grows (h : g.unlinkNext x p = .ok g') : Grows x g g' ∧ g.Alive p := by
  simp only [unlinkNext, bind_eq_ok] at h
  obtain ⟨n, hn, h⟩ := h
  have hheap := deref_ok hn
  split at h
  · cases h
    exact ⟨grows_store hheap fun u _ hu => hu, by simp [Alive, hheap]⟩
  · cases h

theorem unlinkPrev_grows (h : g.unlinkPrev x q = .ok g') : Grows x g g' := by
  simp only [unlinkPrev, bind_eq_ok] at h
  obtain ⟨n, hn, h⟩ := h
  split at h
  · cases h
    exact grows_store (deref_ok hn) fun u hu hmem => (List.mem_erase_of_ne hu).2 hmem
  · cases h

theorem relinkPrev_grows (h : g.relinkPrev x = .ok g') : Grows x g g' := by
  simp only [relinkPrev, bind_eq_ok] at h
  obtain ⟨n, hn, h⟩ := h
  split at h
  · cases h
    exact Grows.refl x g
  · simp only [bind_eq_ok] at h
    obtain ⟨m, hm, h⟩ := h
    cases h
    exact grows_store (deref_ok hm) fun u _ hu => hu

theorem relinkNext_grows (h : g.relinkNext x = .ok g') : Grows x g g' := by
  simp only [relinkNext, bind_eq_ok] at h
  obtain ⟨n, hn, h⟩ := h
  split at h
  · cases h
    exact Grows.refl x g
  · simp only [bind_eq_ok] at h
    obtain ⟨m, hm, h⟩ := h
    cases h
    exact grows_store (deref_ok hm) fun u _ hu => hu

theorem foldlM_unlinkNext_alive {ps : List ℕ}
    (h : ps.foldlM (fun g p => g.unlinkNext x p) g = .ok g') (hp : p ∈ ps) : g.Alive p := by
  induction ps generalizing g with
  | nil => cases hp
  | cons q ps ih =>
    rw [List.foldlM_cons, bind_eq_ok] at h
    obtain ⟨g1, h1, h⟩ := h
    obtain ⟨hgrows, halive⟩ := unlinkNext_grows h1
    rcases List.mem_cons.1 hp with rfl | hp
    · exact halive
    · exact (hgrows.alive p).1 (ih h hp)

theorem erase_ok (h : g.erase i = .ok g') :
    ∃ x, g.nodes[i]? = some (some x) ∧ g.Alive x ∧ g'.nodes = g.nodes.set i none ∧
      g'.finalNode = g.finalNode ∧ (∀ u, g'.Alive u ↔ u ≠ x ∧ g.Alive u) ∧
      (∀ u v, u ≠ x → v ≠ x → u ∈ g.prev v → u ∈ g'.prev v) ∧
      ∀ u, u ∈ g.prev x → g.Alive u := by
  unfold erase at h
  split at h
  · next x hx =>
      rw [bind_eq_ok] at h
      obtain ⟨n, hn, h⟩ := h
      split at h
      · simp only [bind_eq_ok] at h
        obtain ⟨g1, h1, g2, h2, g3, h3, g4, h4, g5, h5, h⟩ := h
        cases h
        have hrelink := (relinkPrev_grows h1).trans (relinkNext_grows h2)
        simp only [unlinkPrevs, unlinkNexts, joins, bind_eq_ok] at h3 h4 h5
        obtain ⟨n2, hn2, h3⟩ := h3
        obtain ⟨n3, -, h4⟩ := h4
        obtain ⟨n4, -, h5⟩ := h5
        have hunlink := (foldlM_grows (fun _ _ _ h => (unlinkNext_grows h).1) h3).trans
          (foldlM_grows (fun _ _ _ h => unlinkPrev_grows h) h4)
        have hjoin : Grows x g4 g5 := foldlM_grows (fun _ _ _ h => by
          simp only [join, bind_eq_ok] at h
          obtain ⟨m, -, h⟩ := h
          exact foldlM_grows (fun _ _ _ h => addEdge_grows h) h) h5
        have hgrows := (hrelink.trans hunlink).trans hjoin
        have hx' : g.Alive x := by simp [Alive, deref_ok hn]
        refine ⟨x, hx, hx', ?_, hgrows.finalNode, fun u => ?_, fun u v hu hv hmem => ?_,
          fun u hu => ?_⟩
        · rw [reset, hgrows.nodes]
        · by_cases hu : u = x
          · simp [Alive, reset, hu]
          · rw [← hgrows.alive u]
            simp [Alive, reset, hu]
        · rw [prev_reset hv]
          exact hgrows.prev u v hu hmem
        · by_cases hux : u = x
          · rw [hux]
            exact hx'
          · have hmem := hrelink.prev u x hux hu
            rw [prev_of_heap (deref_ok hn2)] at hmem
            exact (hrelink.alive u).1 (foldlM_unlinkNext_alive h3 hmem)
      · cases h
  · cases h

theorem Owned.erase (h : g.Owned) (herase : g.erase i = .ok g') : g'.Owned := by
  obtain ⟨x, hx, -, hnodes, -, halive, -, -⟩ := erase_ok herase
  refine ⟨fun j p hp => ?_, fun j k p hj hk => ?_⟩
  · rw [hnodes] at hp
    obtain ⟨hj, hp⟩ := getElem?_set_none hp
    refine (halive p).2 ⟨?_, h.alive j p hp⟩
    rintro rfl
    exact hj (h.place j i p hp hx)
  · rw [hnodes] at hj hk
    exact h.place j k p (getElem?_set_none hj).2 (getElem?_set_none hk).2

theorem mem_set_none (hx : nodes[i]? = some (some x))
    (hv : some v ∈ nodes) (hne : v ≠ x) : some v ∈ nodes.set i none := by
  obtain ⟨j, hj⟩ := List.mem_iff_getElem?.1 hv
  refine List.mem_iff_getElem?.2 ⟨j, ?_⟩
  rw [List.getElem?_set_ne, hj]
  rintro rfl
  rw [hx] at hj
  exact hne (Option.some.inj (Option.some.inj hj)).symm

theorem Dangling.erase (h : g.Dangling) (herase : g.erase i = .ok g') : g'.Dangling := by
  refine ⟨h.toOwned.erase herase, ?_⟩
  obtain ⟨x, hx, halive, hnodes, -, halive', hprev, hprevx⟩ := erase_ok herase
  obtain ⟨u, v, hv, hu, hgone⟩ := h.exists_gone
  have hux : u ≠ x := by
    rintro rfl
    exact hgone halive
  have hvx : v ≠ x := by
    rintro rfl
    exact hgone (hprevx u hu)
  refine ⟨u, v, ?_, hprev u v hux hvx hu, fun hu' => hgone ((halive' u).1 hu').2⟩
  rw [hnodes]
  exact mem_set_none hx hv hvx

end Quadrants.Cfg.ControlFlowGraph
