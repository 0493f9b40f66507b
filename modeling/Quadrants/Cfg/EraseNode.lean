import Mathlib.Data.Int.Notation
import Mathlib.Data.List.Count
import Mathlib.Logic.Function.Basic
import Mathlib.Data.List.Basic
import Quadrants.Library.StatefulLoops

/-!
`ControlFlowGraph::simplify_graph`. A pointer is a number, and what it points to is gone after
`reset`. A range-based loop goes over the elements that its vector has when the loop starts.
-/

namespace Quadrants.Cfg

structure CFGNode where
  beginLocation : ℤ
  endLocation : ℤ
  prevNodeInSameBlock : Option ℕ
  nextNodeInSameBlock : Option ℕ
  prev : List ℕ
  next : List ℕ
  deriving DecidableEq

def CFGNode.empty (n : CFGNode) : Bool :=
  n.beginLocation ≥ n.endLocation

structure ControlFlowGraph where
  heap : ℕ → Option CFGNode
  nodes : List (Option ℕ)
  finalNode : ℕ

inductive Fault where
  | assertion
  /-- A pointer to a node that was deleted is followed. -/
  | dangling
  /-- `erase` of the end iterator. -/
  | notFound
  | outOfFuel
  deriving DecidableEq

namespace ControlFlowGraph

def startNode : ℕ := 0

def deref (g : ControlFlowGraph) (p : ℕ) : Except Fault CFGNode :=
  match g.heap p with
  | some n => .ok n
  | none => .error .dangling

def store (g : ControlFlowGraph) (p : ℕ) (n : CFGNode) : ControlFlowGraph :=
  { g with heap := Function.update g.heap p (some n) }

def addEdge (g : ControlFlowGraph) (source target : ℕ) : Except Fault ControlFlowGraph := do
  let n ← g.deref source
  let g := g.store source { n with next := n.next ++ [target] }
  let m ← g.deref target
  pure (g.store target { m with prev := m.prev ++ [source] })

section Erasing

variable (g : ControlFlowGraph) (x : ℕ)

def relinkPrev : Except Fault ControlFlowGraph := do
  let n ← g.deref x
  match n.prevNodeInSameBlock with
  | none => pure g
  | some p => do
      let m ← g.deref p
      pure (g.store p { m with nextNodeInSameBlock := n.nextNodeInSameBlock })

def relinkNext : Except Fault ControlFlowGraph := do
  let n ← g.deref x
  match n.nextNodeInSameBlock with
  | none => pure g
  | some q => do
      let m ← g.deref q
      pure (g.store q { m with prevNodeInSameBlock := n.prevNodeInSameBlock })

def unlinkNext (prevNode : ℕ) : Except Fault ControlFlowGraph := do
  let n ← g.deref prevNode
  if x ∈ n.next then pure (g.store prevNode { n with next := n.next.erase x })
  else .error .notFound

def unlinkPrev (nextNode : ℕ) : Except Fault ControlFlowGraph := do
  let n ← g.deref nextNode
  if x ∈ n.prev then pure (g.store nextNode { n with prev := n.prev.erase x })
  else .error .notFound

def unlinkPrevs : Except Fault ControlFlowGraph := do
  let n ← g.deref x
  n.prev.foldlM (fun g prevNode => g.unlinkNext x prevNode) g

def unlinkNexts : Except Fault ControlFlowGraph := do
  let n ← g.deref x
  n.next.foldlM (fun g nextNode => g.unlinkPrev x nextNode) g

def join (prevNode : ℕ) : Except Fault ControlFlowGraph := do
  let n ← g.deref x
  n.next.foldlM (fun g nextNode => g.addEdge prevNode nextNode) g

def joins : Except Fault ControlFlowGraph := do
  let n ← g.deref x
  n.prev.foldlM (fun g prevNode => g.join x prevNode) g

def reset (nodeId : ℕ) : ControlFlowGraph :=
  { g with heap := Function.update g.heap x none, nodes := g.nodes.set nodeId none }

def erase (nodeId : ℕ) : Except Fault ControlFlowGraph :=
  match g.nodes[nodeId]? with
  | some (some x) => do
      let n ← g.deref x
      if n.empty then
        let g ← g.relinkPrev x
        let g ← g.relinkNext x
        let g ← g.unlinkPrevs x
        let g ← g.unlinkNexts x
        let g ← g.joins x
        pure (g.reset x nodeId)
      else .error .assertion
  | _ => .error .assertion

end Erasing

def erasable (g : ControlFlowGraph) (i : ℕ) : Bool :=
  match (g.nodes[i]?).join.bind g.heap with
  | some n =>
    n.empty && i != startNode && i != g.finalNode &&
      (n.prev.length ≤ 1 || n.next.length ≤ 1)
  | none => false

def sweepStep (s : ControlFlowGraph × Bool) (i : ℕ) : Except Fault (ControlFlowGraph × Bool) :=
  if s.1.erasable i then (s.1.erase i).map fun g => (g, true)
  else .ok s

def sweep (g : ControlFlowGraph) : Except Fault (ControlFlowGraph × Bool) :=
  (List.range g.nodes.length).foldlM sweepStep (g, false)

def sweeps : ℕ → ControlFlowGraph → Except Fault ControlFlowGraph
  | 0, _ => .error .outOfFuel
  | fuel + 1, g => do
      let (g, modified) ← g.sweep
      if modified then sweeps fuel g else pure g

def compactStep (s : ControlFlowGraph × ℕ) (i : ℕ) : ControlFlowGraph × ℕ :=
  match (s.1.nodes[i]?).join with
  | some p =>
    ({ s.1 with
        nodes := if i = s.2 then s.1.nodes else (s.1.nodes.set s.2 (some p)).set i none
        finalNode := if s.1.finalNode = i then s.2 else s.1.finalNode }, s.2 + 1)
  | none => s

def compact (g : ControlFlowGraph) : ControlFlowGraph :=
  let s := (List.range g.nodes.length).foldl compactStep (g, 0)
  { s.1 with nodes := s.1.nodes.take s.2 }

def simplifyGraph (g : ControlFlowGraph) : Except Fault ControlFlowGraph :=
  (g.sweeps (g.nodes.length + 1)).map compact

end ControlFlowGraph

end Quadrants.Cfg

/-!
What `ControlFlowGraph::erase` does to the edges, counted in `next` and in `prev`.
-/

namespace Quadrants.Cfg.ControlFlowGraph

open Library.StatefulLoops (bind_eq_ok)

def next (g : ControlFlowGraph) (u : ℕ) : List ℕ :=
  (g.heap u).elim [] CFGNode.next

def prev (g : ControlFlowGraph) (u : ℕ) : List ℕ :=
  (g.heap u).elim [] CFGNode.prev

def sameNext (g : ControlFlowGraph) (u : ℕ) : Option ℕ :=
  (g.heap u).bind CFGNode.nextNodeInSameBlock

def samePrev (g : ControlFlowGraph) (u : ℕ) : Option ℕ :=
  (g.heap u).bind CFGNode.prevNodeInSameBlock

def Alive (g : ControlFlowGraph) (u : ℕ) : Prop :=
  g.heap u ≠ none

def outs (g : ControlFlowGraph) (u v : ℕ) : ℕ :=
  (g.next u).count v

def ins (g : ControlFlowGraph) (u v : ℕ) : ℕ :=
  (g.prev v).count u

def bare (n : CFGNode) : CFGNode :=
  { n with prev := [], next := [] }

def loose (n : CFGNode) : CFGNode :=
  { n with prevNodeInSameBlock := none, nextNodeInSameBlock := none }

structure Keeps {β : Type} (f : CFGNode → β) (g g' : ControlFlowGraph) : Prop where
  nodes : g'.nodes = g.nodes
  finalNode : g'.finalNode = g.finalNode
  heap : ∀ u, (g'.heap u).map f = (g.heap u).map f

variable {β : Type} {f : CFGNode → β} {g g' g'' : ControlFlowGraph} {u v x p q : ℕ} {n m : CFGNode}
  {ps ns : List ℕ}

theorem Keeps.refl (g : ControlFlowGraph) : Keeps f g g :=
  ⟨rfl, rfl, fun _ => rfl⟩

theorem Keeps.trans (h : Keeps f g g') (h' : Keeps f g' g'') : Keeps f g g'' :=
  ⟨h'.nodes.trans h.nodes, h'.finalNode.trans h.finalNode, fun u => (h'.heap u).trans (h.heap u)⟩

theorem Keeps.alive (h : Keeps f g g') : g'.Alive u ↔ g.Alive u := by
  rw [Alive, Alive, Ne, ← Option.map_eq_none_iff (f := f), h.heap u, Option.map_eq_none_iff]

theorem alive_of_mem_next (h : v ∈ g.next u) : g.Alive u := by
  intro hnone
  simp [next, hnone] at h

theorem alive_of_mem_prev (h : v ∈ g.prev u) : g.Alive u := by
  intro hnone
  simp [prev, hnone] at h

theorem exists_deref (h : g.Alive p) : ∃ n, g.deref p = .ok n ∧ g.heap p = some n := by
  obtain ⟨n, hn⟩ := Option.ne_none_iff_exists'.1 h
  exact ⟨n, by rw [deref, hn], hn⟩

theorem next_of_heap (h : g.heap u = some n) : g.next u = n.next := by
  rw [next, h]
  rfl

theorem prev_of_heap (h : g.heap u = some n) : g.prev u = n.prev := by
  rw [prev, h]
  rfl

theorem next_store : (g.store p n).next u = if u = p then n.next else g.next u := by
  by_cases h : u = p
  · subst h
    simp [next, store]
  · simp [next, store, h]

theorem prev_store : (g.store p n).prev u = if u = p then n.prev else g.prev u := by
  by_cases h : u = p
  · subst h
    simp [prev, store]
  · simp [prev, store, h]

theorem keeps_store (h : g.heap p = some m) (hf : f n = f m) : Keeps f g (g.store p n) := by
  refine ⟨rfl, rfl, fun u => ?_⟩
  by_cases hu : u = p
  · subst hu
    simp [store, h, hf]
  · simp [store, hu]

theorem addEdge_spec (hp : g.Alive p) (hq : g.Alive q) :
    ∃ g', g.addEdge p q = .ok g' ∧ Keeps bare g g' ∧
      (∀ u, g'.next u = if u = p then g.next u ++ [q] else g.next u) ∧
      ∀ v, g'.prev v = if v = q then g.prev v ++ [p] else g.prev v := by
  obtain ⟨n, hderef, hn⟩ := exists_deref hp
  have hkeep : Keeps bare g (g.store p { n with next := n.next ++ [q] }) := keeps_store hn rfl
  obtain ⟨m, hderef', hm⟩ := exists_deref (hkeep.alive.2 hq)
  refine ⟨(g.store p { n with next := n.next ++ [q] }).store q { m with prev := m.prev ++ [p] },
    ?_, hkeep.trans (keeps_store hm rfl), fun u => ?_, fun v => ?_⟩
  · simp [addEdge, hderef, hderef', Bind.bind, Except.bind, pure, Except.pure]
  · rw [next_store, ← next_of_heap hn]
    split
    · next heq =>
        rw [heq, ← next_of_heap hm, next_store]
        split
        · next hqp => rw [hqp, next_of_heap hn]
        · rfl
    · rw [next_store]
      split
      · next hup => rw [next_of_heap hn, hup, next_of_heap hn]
      · rfl
  · rw [prev_store]
    split
    · next heq =>
        rw [heq, ← prev_of_heap hm, prev_store]
        split
        · next hqp => rw [hqp, ← prev_of_heap hn]
        · rfl
    · rw [prev_store]
      split
      · next hvp => rw [hvp, prev_of_heap hn]
      · rfl

theorem addEdges_spec (hp : g.Alive p) (hns : ∀ q ∈ ns, g.Alive q) :
    ∃ g', ns.foldlM (fun g q => g.addEdge p q) g = .ok g' ∧ Keeps bare g g' ∧
      (∀ u, g'.next u = if u = p then g.next u ++ ns else g.next u) ∧
      ∀ u v, g'.ins u v = g.ins u v + if u = p then ns.count v else 0 := by
  induction ns generalizing g with
  | nil => exact ⟨g, rfl, Keeps.refl g, by simp, by simp⟩
  | cons q ns ih =>
    obtain ⟨g1, h1, hkeep1, hnext1, hprev1⟩ := addEdge_spec hp (hns q (List.mem_cons_self ..))
    obtain ⟨g2, h2, hkeep2, hnext2, hins2⟩ := ih (hkeep1.alive.2 hp)
      fun r hr => hkeep1.alive.2 (hns r (List.mem_cons_of_mem q hr))
    refine ⟨g2, ?_, hkeep1.trans hkeep2, fun u => ?_, fun u v => ?_⟩
    · rw [List.foldlM_cons, h1]
      exact h2
    · rw [hnext2, hnext1]
      split
      · rw [List.append_assoc, List.singleton_append]
      · rfl
    · rw [hins2, ins, ins, hprev1]
      by_cases hv : v = q
      · subst hv
        by_cases hu : u = p
        · subst hu
          simp
          omega
        · simp [hu, Ne.symm hu]
      · simp [hv, Ne.symm hv]

theorem joins_spec (hps : ∀ p ∈ ps, g.Alive p ∧ p ≠ x) (hx : g.Alive x)
    (hns : ∀ q ∈ g.next x, g.Alive q) :
    ∃ g', ps.foldlM (fun g p => g.join x p) g = .ok g' ∧ Keeps bare g g' ∧ g'.next x = g.next x ∧
      (∀ u v, g'.outs u v = g.outs u v + ps.count u * g.outs x v) ∧
      ∀ u v, g'.ins u v = g.ins u v + ps.count u * g.outs x v := by
  induction ps generalizing g with
  | nil => exact ⟨g, rfl, Keeps.refl g, rfl, by simp, by simp⟩
  | cons p ps ih =>
    obtain ⟨hp, hpx⟩ := hps p (List.mem_cons_self ..)
    obtain ⟨g1, h1, hkeep1, hnext1, hins1⟩ := addEdges_spec hp hns
    have hnextx : g1.next x = g.next x := by
      rw [hnext1, if_neg (Ne.symm hpx)]
    have houtsx : ∀ v, g1.outs x v = g.outs x v := fun v => by rw [outs, hnextx, outs]
    obtain ⟨g2, h2, hkeep2, hnext2, houts2, hins2⟩ := ih
      (fun r hr => ⟨hkeep1.alive.2 (hps r (List.mem_cons_of_mem p hr)).1,
        (hps r (List.mem_cons_of_mem p hr)).2⟩) (hkeep1.alive.2 hx)
      (fun r hr => hkeep1.alive.2 (hns r (hnextx ▸ hr)))
    obtain ⟨n, hderef, hn⟩ := exists_deref hx
    have hjoin : g.join x p = .ok g1 := by
      rw [next_of_heap hn] at h1
      simp only [join, hderef, Bind.bind, Except.bind]
      exact h1
    refine ⟨g2, ?_, hkeep1.trans hkeep2, hnext2.trans hnextx, fun u v => ?_, fun u v => ?_⟩
    · rw [List.foldlM_cons, hjoin]
      exact h2
    · rw [houts2, houtsx, outs, hnext1]
      by_cases hu : u = p
      · subst hu
        simp only [↓reduceIte, List.count_append, List.count_cons_self, Nat.add_mul, outs]
        omega
      · simp [hu, Ne.symm hu, outs]
    · rw [hins2, houtsx, hins1]
      by_cases hu : u = p
      · subst hu
        simp only [↓reduceIte, List.count_cons_self, Nat.add_mul, outs]
        omega
      · simp [hu, Ne.symm hu]

theorem unlinkPrevs_spec (hps : ∀ u, ps.count u ≤ g.outs u x) :
    ∃ g', ps.foldlM (fun g p => g.unlinkNext x p) g = .ok g' ∧ Keeps bare g g' ∧
      (∀ v, g'.prev v = g.prev v) ∧
      ∀ u v, g'.outs u v = g.outs u v - if v = x then ps.count u else 0 := by
  induction ps generalizing g with
  | nil => exact ⟨g, rfl, Keeps.refl g, fun _ => rfl, by simp⟩
  | cons p ps ih =>
    have hmem : x ∈ g.next p := by
      have hcount := hps p
      rw [List.count_cons_self] at hcount
      exact List.count_pos_iff.1 (Nat.lt_of_lt_of_le (Nat.succ_pos _) hcount)
    obtain ⟨n, hderef, hn⟩ := exists_deref (alive_of_mem_next hmem)
    rw [next_of_heap hn] at hmem
    have h1 : g.unlinkNext x p = .ok (g.store p { n with next := n.next.erase x }) := by
      simp [unlinkNext, hderef, Bind.bind, Except.bind, hmem, pure, Except.pure]
    have hkeep : Keeps bare g (g.store p { n with next := n.next.erase x }) := keeps_store hn rfl
    have houts : ∀ u v, (g.store p { n with next := n.next.erase x }).outs u v =
        g.outs u v - if u = p ∧ v = x then 1 else 0 := by
      intro u v
      rw [outs, next_store]
      by_cases hu : u = p
      · subst hu
        by_cases hv : v = x
        · subst hv
          simp [outs, next_of_heap hn]
        · simp [outs, next_of_heap hn, hv, List.count_erase_of_ne hv]
      · simp [hu, outs]
    obtain ⟨g2, h2, hkeep2, hprev2, houts2⟩ := @ih (g.store p { n with next := n.next.erase x })
      (by
        intro u
        have hcount := hps u
        rw [houts]
        by_cases hu : u = p
        · subst hu
          rw [List.count_cons_self] at hcount
          simp only [and_self, ↓reduceIte]
          omega
        · rw [List.count_cons_of_ne (Ne.symm hu)] at hcount
          simpa [hu] using hcount)
    refine ⟨g2, ?_, hkeep.trans hkeep2, fun v => ?_, fun u v => ?_⟩
    · rw [List.foldlM_cons, h1]
      exact h2
    · rw [hprev2, prev_store]
      split
      · next hvp => rw [hvp, prev_of_heap hn]
      · rfl
    · rw [houts2, houts]
      by_cases hv : v = x
      · by_cases hu : u = p
        · subst hu hv
          simp only [and_self, ↓reduceIte, List.count_cons_self]
          omega
        · simp [hu, hv, Ne.symm hu]
      · simp [hv]

theorem unlinkNexts_spec (hns : ∀ v, ns.count v ≤ g.ins x v) :
    ∃ g', ns.foldlM (fun g q => g.unlinkPrev x q) g = .ok g' ∧ Keeps bare g g' ∧
      (∀ u, g'.next u = g.next u) ∧
      ∀ u v, g'.ins u v = g.ins u v - if u = x then ns.count v else 0 := by
  induction ns generalizing g with
  | nil => exact ⟨g, rfl, Keeps.refl g, fun _ => rfl, by simp⟩
  | cons q ns ih =>
    have hmem : x ∈ g.prev q := by
      have hcount := hns q
      rw [List.count_cons_self] at hcount
      exact List.count_pos_iff.1 (Nat.lt_of_lt_of_le (Nat.succ_pos _) hcount)
    obtain ⟨n, hderef, hn⟩ := exists_deref (alive_of_mem_prev hmem)
    rw [prev_of_heap hn] at hmem
    have h1 : g.unlinkPrev x q = .ok (g.store q { n with prev := n.prev.erase x }) := by
      simp [unlinkPrev, hderef, Bind.bind, Except.bind, hmem, pure, Except.pure]
    have hkeep : Keeps bare g (g.store q { n with prev := n.prev.erase x }) := keeps_store hn rfl
    have hins : ∀ u v, (g.store q { n with prev := n.prev.erase x }).ins u v =
        g.ins u v - if u = x ∧ v = q then 1 else 0 := by
      intro u v
      rw [ins, prev_store]
      by_cases hv : v = q
      · subst hv
        by_cases hu : u = x
        · subst hu
          simp [ins, prev_of_heap hn]
        · simp [ins, prev_of_heap hn, hu, List.count_erase_of_ne hu]
      · simp [hv, ins]
    obtain ⟨g2, h2, hkeep2, hnext2, hins2⟩ := @ih (g.store q { n with prev := n.prev.erase x })
      (by
        intro v
        have hcount := hns v
        rw [hins]
        by_cases hv : v = q
        · subst hv
          rw [List.count_cons_self] at hcount
          simp only [and_self, ↓reduceIte]
          omega
        · rw [List.count_cons_of_ne (Ne.symm hv)] at hcount
          simpa [hv] using hcount)
    refine ⟨g2, ?_, hkeep.trans hkeep2, fun u => ?_, fun u v => ?_⟩
    · rw [List.foldlM_cons, h1]
      exact h2
    · rw [hnext2, next_store]
      split
      · next huq => rw [huq, next_of_heap hn]
      · rfl
    · rw [hins2, hins]
      by_cases hu : u = x
      · by_cases hv : v = q
        · subst hu hv
          simp only [and_self, ↓reduceIte, List.count_cons_self]
          omega
        · simp [hu, hv, Ne.symm hv]
      · simp [hu]

theorem Keeps.loose (h : Keeps loose g g') : g'.next = g.next ∧ g'.prev = g.prev := by
  have hfield : ∀ u, ∀ k : CFGNode → List ℕ, (∀ n, k (ControlFlowGraph.loose n) = k n) →
      (g'.heap u).elim [] k = (g.heap u).elim [] k := by
    intro u k hk
    have hheap := congrArg (fun o => Option.elim o [] k) (h.heap u)
    simpa only [Option.elim_map, Function.comp_def, hk] using hheap
  exact ⟨funext fun u => hfield u _ fun _ => rfl, funext fun u => hfield u _ fun _ => rfl⟩

theorem Keeps.bare (h : Keeps bare g g') : g'.sameNext = g.sameNext ∧ g'.samePrev = g.samePrev := by
  have hfield : ∀ u, ∀ k : CFGNode → Option ℕ, (∀ n, k (ControlFlowGraph.bare n) = k n) →
      (g'.heap u).bind k = (g.heap u).bind k := by
    intro u k hk
    have hheap := congrArg (fun o => Option.bind o k) (h.heap u)
    simpa only [Option.bind_map, Function.comp_def, hk] using hheap
  exact ⟨funext fun u => hfield u _ fun _ => rfl, funext fun u => hfield u _ fun _ => rfl⟩

theorem relinkPrev_spec (hx : g.Alive x) (hprev : ∀ p, g.samePrev x = some p → g.Alive p) :
    ∃ g', g.relinkPrev x = .ok g' ∧ Keeps loose g g' ∧ g'.samePrev = g.samePrev ∧
      ∀ u, g'.sameNext u = if g.samePrev x = some u then g.sameNext x else g.sameNext u := by
  obtain ⟨n, hderef, hn⟩ := exists_deref hx
  have hsame : g.samePrev x = n.prevNodeInSameBlock := by simp [samePrev, hn]
  rcases hp : n.prevNodeInSameBlock with _ | p
  · refine ⟨g, ?_, Keeps.refl g, rfl, ?_⟩
    · simp [relinkPrev, hderef, Bind.bind, Except.bind, hp, pure, Except.pure]
    · simp [hsame, hp]
  · obtain ⟨m, hderef', hm⟩ := exists_deref (hprev p (hsame.trans hp))
    refine ⟨g.store p { m with nextNodeInSameBlock := n.nextNodeInSameBlock }, ?_,
      keeps_store hm rfl, funext fun u => ?_, fun u => ?_⟩
    · simp [relinkPrev, hderef, hderef', Bind.bind, Except.bind, hp, pure, Except.pure]
    · by_cases hu : u = p
      · subst hu
        simp [samePrev, store, hm]
      · simp [samePrev, store, hu]
    · rw [hsame, hp]
      by_cases hu : u = p
      · subst hu
        simp [sameNext, store, hn]
      · simp [sameNext, store, hu, Ne.symm hu]

theorem relinkNext_spec (hx : g.Alive x) (hnext : ∀ q, g.sameNext x = some q → g.Alive q) :
    ∃ g', g.relinkNext x = .ok g' ∧ Keeps loose g g' ∧ g'.sameNext = g.sameNext ∧
      ∀ u, g'.samePrev u = if g.sameNext x = some u then g.samePrev x else g.samePrev u := by
  obtain ⟨n, hderef, hn⟩ := exists_deref hx
  have hsame : g.sameNext x = n.nextNodeInSameBlock := by simp [sameNext, hn]
  rcases hq : n.nextNodeInSameBlock with _ | q
  · refine ⟨g, ?_, Keeps.refl g, rfl, ?_⟩
    · simp [relinkNext, hderef, Bind.bind, Except.bind, hq, pure, Except.pure]
    · simp [hsame, hq]
  · obtain ⟨m, hderef', hm⟩ := exists_deref (hnext q (hsame.trans hq))
    refine ⟨g.store q { m with prevNodeInSameBlock := n.prevNodeInSameBlock }, ?_,
      keeps_store hm rfl, funext fun u => ?_, fun u => ?_⟩
    · simp [relinkNext, hderef, hderef', Bind.bind, Except.bind, hq, pure, Except.pure]
    · by_cases hu : u = q
      · subst hu
        simp [sameNext, store, hm]
      · simp [sameNext, store, hu]
    · rw [hsame, hq]
      by_cases hu : u = q
      · subst hu
        simp [samePrev, store, hn]
      · simp [samePrev, store, hu, Ne.symm hu]

structure Owned (g : ControlFlowGraph) : Prop where
  alive : ∀ i p : ℕ, g.nodes[i]? = some (some p) → g.Alive p
  place : ∀ i j p : ℕ, g.nodes[i]? = some (some p) → g.nodes[j]? = some (some p) → i = j

structure Valid (g : ControlFlowGraph) : Prop extends Owned g where
  owner : ∀ p, g.Alive p → ∃ i : ℕ, g.nodes[i]? = some (some p)
  symm : ∀ u v, g.outs u v = g.ins u v
  linked : ∀ u v, g.sameNext u = some v ↔ g.samePrev v = some u
  start : ∃ s, g.nodes[startNode]? = some (some s)
  final : ∃ f, g.nodes[g.finalNode]? = some (some f)

theorem Valid.alive_of_mem_next (h : g.Valid) (hv : v ∈ g.next u) : g.Alive v := by
  have hcount : 0 < g.ins u v := by
    rw [← h.symm]
    exact List.count_pos_iff.2 hv
  exact alive_of_mem_prev (List.count_pos_iff.1 hcount)

theorem Valid.alive_of_mem_prev (h : g.Valid) (hu : u ∈ g.prev v) : g.Alive u := by
  have hcount : 0 < g.outs u v := by
    rw [h.symm]
    exact List.count_pos_iff.2 hu
  exact ControlFlowGraph.alive_of_mem_next (List.count_pos_iff.1 hcount)

def OwnPredecessor (g : ControlFlowGraph) (x : ℕ) : Prop :=
  g.prev x = [x] ∧ g.next x ≠ [x]

/-- The graph before the last part of `erase`: no edge leads to `x` and no node lists it in `prev`,
but its own lists still name the neighbours. -/
structure Unlinked (g g' : ControlFlowGraph) (x : ℕ) : Prop where
  nodes : g'.nodes = g.nodes
  finalNode : g'.finalNode = g.finalNode
  empty : ∀ u, (g'.heap u).map CFGNode.empty = (g.heap u).map CFGNode.empty
  outs : ∀ u v, g'.outs u v = if v = x then 0 else g.outs u v
  ins : ∀ u v, v ≠ x → g'.ins u v = if u = x then 0 else g.ins u v
  ins_self : ∀ u, g'.ins u x = g.ins u x
  sameNext : ∀ u, u ≠ x →
    g'.sameNext u = if g.samePrev x = some u then g.sameNext x else g.sameNext u
  samePrev : ∀ u, u ≠ x →
    g'.samePrev u = if g.sameNext x = some u then g.samePrev x else g.samePrev u

theorem Unlinked.alive (h : Unlinked g g' x) : g'.Alive u ↔ g.Alive u := by
  rw [Alive, Alive, Ne, ← Option.map_eq_none_iff (f := CFGNode.empty), h.empty u,
    Option.map_eq_none_iff]

theorem heap_of_keeps {k : CFGNode → β} {f' : β → Bool} (h : Keeps k g g')
    (hf : ∀ n, f' (k n) = n.empty) :
    (g'.heap u).map CFGNode.empty = (g.heap u).map CFGNode.empty := by
  have hheap := congrArg (Option.map f') (h.heap u)
  simpa only [Option.map_map, Function.comp_def, hf] using hheap

theorem exists_unlinked (h : g.Valid) (hx : g.Alive x) :
    ∃ g1 g2 g3 g4, g.relinkPrev x = .ok g1 ∧ g1.relinkNext x = .ok g2 ∧
      g2.unlinkPrevs x = .ok g3 ∧ g3.unlinkNexts x = .ok g4 ∧ Unlinked g g4 x := by
  obtain ⟨g1, h1, hkeep1, hprev1, hnext1⟩ := relinkPrev_spec hx fun p hp => by
    have hp := (h.linked p x).2 hp
    intro hnone
    simp [ControlFlowGraph.sameNext, hnone] at hp
  have hnextx : g1.sameNext x = g.sameNext x := by
    rw [hnext1]
    split
    · rfl
    · rfl
  obtain ⟨g2, h2, hkeep2, hnext2, hprev2⟩ := relinkNext_spec (hkeep1.alive.2 hx) fun q hq => by
    rw [hnextx, h.linked] at hq
    refine hkeep1.alive.2 fun hnone => ?_
    simp [ControlFlowGraph.samePrev, hnone] at hq
  have hkeep := hkeep1.trans hkeep2
  have hedges := hkeep.loose
  have houts : ∀ u v, g2.outs u v = g.outs u v := fun u v => by
    rw [ControlFlowGraph.outs, hedges.1, ControlFlowGraph.outs]
  have hins : ∀ u v, g2.ins u v = g.ins u v := fun u v => by
    rw [ControlFlowGraph.ins, hedges.2, ControlFlowGraph.ins]
  obtain ⟨n, hderef, hn⟩ := exists_deref (hkeep.alive.2 hx)
  obtain ⟨g3, h3, hkeep3, hprev3, houts3⟩ := @unlinkPrevs_spec g2 x n.prev fun u => by
    refine Nat.le_of_eq ?_
    rw [houts, h.symm, ← hins, ControlFlowGraph.ins, prev_of_heap hn]
  rw [← prev_of_heap hn] at houts3
  have houts3' : ∀ u v, g3.outs u v = if v = x then 0 else g.outs u v := by
    intro u v
    rw [houts3, houts]
    split
    · next hv =>
        subst hv
        have hself := hins u v
        rw [ControlFlowGraph.ins] at hself
        rw [hself, h.symm, Nat.sub_self]
    · rfl
  have hins3 : ∀ u v, g3.ins u v = g.ins u v := fun u v => by
    rw [ControlFlowGraph.ins, hprev3, ← hins u v, ControlFlowGraph.ins]
  obtain ⟨n', hderef', hn'⟩ := exists_deref (hkeep3.alive.2 (hkeep.alive.2 hx))
  have hcount : ∀ v, n'.next.count v = if v = x then 0 else g.outs x v := fun v => by
    rw [← houts3', ControlFlowGraph.outs, next_of_heap hn']
  obtain ⟨g4, h4, hkeep4, hnext4, hins4⟩ := @unlinkNexts_spec g3 x n'.next fun v => by
    rw [hcount, hins3, ← h.symm]
    split
    · exact Nat.zero_le _
    · exact Nat.le_refl _
  have hlinks := (hkeep3.trans hkeep4).bare
  refine ⟨g1, g2, g3, g4, h1, h2, ?_, ?_, ?_⟩
  · simp only [unlinkPrevs, hderef, Bind.bind, Except.bind]
    exact h3
  · simp only [unlinkNexts, hderef', Bind.bind, Except.bind]
    exact h4
  · refine ⟨?_, ?_, fun u => ?_, fun u v => ?_, fun u v hv => ?_, fun u => ?_, fun u _ => ?_,
      fun u _ => ?_⟩
    · rw [hkeep4.nodes, hkeep3.nodes, hkeep.nodes]
    · rw [hkeep4.finalNode, hkeep3.finalNode, hkeep.finalNode]
    · have hloose := @heap_of_keeps _ _ _ u _ CFGNode.empty hkeep fun _ => rfl
      have hbare := @heap_of_keeps _ _ _ u _ CFGNode.empty (hkeep3.trans hkeep4) fun _ => rfl
      exact hbare.trans hloose
    · rw [ControlFlowGraph.outs, hnext4, ← houts3', ControlFlowGraph.outs]
    · rw [hins4, hins3, hcount]
      split
      · next hu => rw [hu, h.symm, Nat.sub_self]
      · rfl
    · rw [hins4, hins3, hcount, if_pos rfl]
      split <;> rfl
    · rw [hlinks.1, hnext2, hnext1]
    · rw [hlinks.2, hprev2, hnextx, hprev1]

end Quadrants.Cfg.ControlFlowGraph
