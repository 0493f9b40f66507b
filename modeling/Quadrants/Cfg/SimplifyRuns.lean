import Quadrants.Cfg.Reducible
import Quadrants.Cfg.SimplifiedPaths
import Mathlib.Data.List.Range

/-!
`simplify_graph` keeps the graph whole and its paths, exactly when no call of `erase` meets a node
that is its only predecessor and has another successor.
-/

namespace Quadrants.Cfg.ControlFlowGraph

open Library.StatefulLoops (bind_eq_ok)
open Library.Contraction List Option

variable {g g' g'' : ControlFlowGraph} {u v x i : ℕ} {n : CFGNode}

def sweepCalls (g : ControlFlowGraph) : List ℕ → List (ControlFlowGraph × ℕ)
  | [] => []
  | i :: is =>
    if g.erasable i then
      (g, i) :: match g.erase i with
        | .ok g' => sweepCalls g' is
        | .error _ => []
    else sweepCalls g is

def sweepsCalls : ℕ → ControlFlowGraph → List (ControlFlowGraph × ℕ)
  | 0, _ => []
  | fuel + 1, g =>
    g.sweepCalls (range g.nodes.length) ++
      match g.sweep with
      | .ok (g', true) => sweepsCalls fuel g'
      | _ => []

def eraseCalls (g : ControlFlowGraph) : List (ControlFlowGraph × ℕ) :=
  sweepsCalls (g.nodes.length + 1) g

/-- The call meets a node that is its only predecessor and has another successor. -/
def MeetsOwnPredecessor (c : ControlFlowGraph × ℕ) : Prop :=
  ∃ x, c.1.nodes[c.2]? = some (some x) ∧ c.1.OwnPredecessor x

section Rounds

theorem erasable_cases (h : g.erasable i = true) :
    ∃ x n, g.nodes[i]? = some (some x) ∧ g.heap x = some n ∧ n.empty = true ∧ i ≠ startNode ∧
      i ≠ g.finalNode ∧ (n.prev.length ≤ 1 ∨ n.next.length ≤ 1) := by
  unfold erasable at h
  split at h
  · next n hn =>
      obtain ⟨x, hx, hn⟩ := bind_eq_some_iff.1 hn
      simp only [Bool.and_eq_true, bne_iff_ne, ne_eq, Bool.or_eq_true, decide_eq_true_eq] at h
      obtain ⟨⟨⟨hempty, hstart⟩, hfinal⟩, hdegree⟩ := h
      exact ⟨x, n, join_eq_some_iff.1 hx, hn, hempty, hstart, hfinal, hdegree⟩
  · cases h

def left (g : ControlFlowGraph) : ℕ :=
  g.nodes.countP isSome

theorem left_set_none {nodes : List (Option ℕ)} (h : nodes[i]? = some (some x)) :
    (nodes.set i none).countP isSome + 1 = nodes.countP isSome := by
  induction nodes generalizing i with
  | nil => simp at h
  | cons o nodes ih =>
    cases i with
    | zero =>
      simp only [List.getElem?_cons_zero, Option.some.injEq] at h
      subst h
      simp
    | succ i =>
      have htail := ih h
      rw [set_cons_succ, countP_cons, countP_cons]
      omega

theorem erase_call (hvalid : g.Valid) (hi : g.erasable i = true)
    (hproper : ¬MeetsOwnPredecessor (g, i)) :
    ∃ g', g.erase i = .ok g' ∧ Kept g g' ∧ g'.left < g.left := by
  obtain ⟨x, n, hx, hn, hempty, hstart, hfinal, hdegree⟩ := erasable_cases hi
  obtain ⟨g', herase, herased⟩ :=
    erase_proper hvalid hx hn hempty hdegree fun hbad => hproper ⟨x, hx, hbad⟩
  refine ⟨g', herase, herased.kept hvalid hx hn hempty hstart hfinal, ?_⟩
  rw [left, left, herased.nodes, ← left_set_none hx]
  exact Nat.lt_succ_self _

theorem erase_call_dangling (hvalid : g.Valid) (hi : g.erasable i = true)
    (hbad : MeetsOwnPredecessor (g, i)) : ∃ g', g.erase i = .ok g' ∧ g'.Dangling := by
  obtain ⟨x, n, hx, hn, hempty, -, -, -⟩ := erasable_cases hi
  obtain ⟨y, hy, hown⟩ := hbad
  rw [hx] at hy
  cases hy
  obtain ⟨g', v, herase, hv, halive, hmem⟩ := erase_improper hvalid hx hn hempty hown
  refine ⟨g', herase, hvalid.toOwned.erase herase, x, v, ?_, hmem, ?_⟩
  · obtain ⟨y, hy, -, hnodes, -, -, -, -⟩ := erase_ok herase
    obtain ⟨j, hj⟩ := hvalid.owner v halive
    rw [hnodes]
    exact mem_set_none hx (mem_iff_getElem?.2 ⟨j, hj⟩) hv
  · obtain ⟨y, hy, -, -, -, halive', -, -⟩ := erase_ok herase
    rw [hx] at hy
    cases hy
    intro hgone
    exact ((halive' x).1 hgone).1 rfl

variable {is : List ℕ} {m : Bool}

theorem sweepStep_of_erasable (hi : g.erasable i = true) :
    sweepStep (g, m) i = (g.erase i).map fun g => (g, true) := by
  rw [sweepStep, if_pos hi]

theorem sweepStep_of_not (hi : ¬g.erasable i = true) : sweepStep (g, m) i = .ok (g, m) := by
  rw [sweepStep, if_neg hi]

variable {fuel : ℕ} {s : ControlFlowGraph × Bool}

theorem sweep_dangling (hd : g.Dangling)
    (h : is.foldlM sweepStep (g, m) = .ok s) : s.1.Dangling := by
  induction is generalizing g m with
  | nil =>
    cases h
    exact hd
  | cons i is ih =>
    rw [foldlM_cons, bind_eq_ok] at h
    obtain ⟨⟨g1, m1⟩, h1, h⟩ := h
    refine ih ?_ h
    by_cases hi : g.erasable i = true
    · rw [sweepStep_of_erasable hi] at h1
      rcases herase : g.erase i with e | g2
      · rw [herase] at h1
        cases h1
      · rw [herase] at h1
        cases h1
        exact hd.erase herase
    · rw [sweepStep_of_not hi] at h1
      cases h1
      exact hd

theorem sweep_kept (hvalid : g.Valid) (hproper : ∀ c ∈ g.sweepCalls is, ¬MeetsOwnPredecessor c) :
    ∃ g' m', is.foldlM sweepStep (g, m) = .ok (g', m') ∧ Kept g g' ∧
      (g' = g ∧ m' = m ∨ m' = true ∧ g'.left < g.left) := by
  induction is generalizing g m with
  | nil => exact ⟨g, m, rfl, Kept.refl hvalid, .inl ⟨rfl, rfl⟩⟩
  | cons i is ih =>
    rw [foldlM_cons]
    by_cases hi : g.erasable i = true
    · simp only [sweepCalls, if_pos hi] at hproper
      obtain ⟨g1, herase, hkept, hleft⟩ :=
        erase_call hvalid hi (hproper _ (mem_cons_self ..))
      rw [herase] at hproper
      obtain ⟨g2, m2, hrest, hkept', hcases⟩ := @ih g1 true hkept.valid
        fun c hc => hproper c (mem_cons_of_mem _ hc)
      refine ⟨g2, m2, ?_, hkept.trans hkept', .inr ?_⟩
      · rw [sweepStep_of_erasable hi, herase]
        exact hrest
      · rcases hcases with ⟨rfl, rfl⟩ | ⟨rfl, hlt⟩
        · exact ⟨rfl, hleft⟩
        · exact ⟨rfl, hlt.trans hleft⟩
    · simp only [sweepCalls, if_neg hi] at hproper
      rw [sweepStep_of_not hi]
      exact ih hvalid hproper

theorem sweep_improper (hvalid : g.Valid) (hbad : ∃ c ∈ g.sweepCalls is, MeetsOwnPredecessor c)
    (h : is.foldlM sweepStep (g, m) = .ok s) : s.1.Dangling := by
  induction is generalizing g m with
  | nil => simp [sweepCalls] at hbad
  | cons i is ih =>
    rw [foldlM_cons] at h
    by_cases hi : g.erasable i = true
    · rw [sweepStep_of_erasable hi] at h
      simp only [sweepCalls, if_pos hi] at hbad
      by_cases hfirst : MeetsOwnPredecessor (g, i)
      · obtain ⟨g1, herase, hd⟩ := erase_call_dangling hvalid hi hfirst
        rw [herase] at h
        exact sweep_dangling hd h
      · obtain ⟨g1, herase, hkept, -⟩ := erase_call hvalid hi hfirst
        rw [herase] at h hbad
        obtain ⟨c, hc, hmeets⟩ := hbad
        rcases mem_cons.1 hc with rfl | hc
        · exact absurd hmeets hfirst
        · exact ih hkept.valid ⟨c, hc, hmeets⟩ h
    · rw [sweepStep_of_not hi] at h
      simp only [sweepCalls, if_neg hi] at hbad
      exact ih hvalid hbad h

theorem sweeps_dangling (hd : g.Dangling) (h : g.sweeps fuel = .ok g') : g'.Dangling := by
  induction fuel generalizing g with
  | zero => cases h
  | succ fuel ih =>
    rw [sweeps, bind_eq_ok] at h
    obtain ⟨⟨g1, m1⟩, hsweep, h⟩ := h
    have hd1 := sweep_dangling hd hsweep
    cases m1 with
    | false =>
      cases h
      exact hd1
    | true => exact ih hd1 h

theorem sweeps_kept (hvalid : g.Valid) (hfuel : g.left < fuel)
    (hproper : ∀ c ∈ sweepsCalls fuel g, ¬MeetsOwnPredecessor c) :
    ∃ g', g.sweeps fuel = .ok g' ∧ Kept g g' := by
  induction fuel generalizing g with
  | zero => omega
  | succ fuel ih =>
    obtain ⟨g1, m1, hsweep, hkept, hcases⟩ := @sweep_kept g (range g.nodes.length) false
      hvalid fun c hc => hproper c (mem_append_left _ hc)
    rw [sweeps, sweep, hsweep]
    rcases hcases with ⟨rfl, rfl⟩ | ⟨rfl, hlt⟩
    · exact ⟨g1, rfl, hkept⟩
    · obtain ⟨g2, hrest, hkept'⟩ := ih hkept.valid (by omega) fun c hc =>
        hproper c (mem_append_right _ (by rw [sweep, hsweep]; exact hc))
      exact ⟨g2, hrest, hkept.trans hkept'⟩

theorem sweeps_improper (hvalid : g.Valid)
    (hbad : ∃ c ∈ sweepsCalls fuel g, MeetsOwnPredecessor c) (h : g.sweeps fuel = .ok g') :
    g'.Dangling := by
  induction fuel generalizing g with
  | zero => cases h
  | succ fuel ih =>
    rw [sweeps, bind_eq_ok] at h
    obtain ⟨⟨g1, m1⟩, hsweep, h⟩ := h
    by_cases hfirst : ∃ c ∈ g.sweepCalls (range g.nodes.length), MeetsOwnPredecessor c
    · have hd := sweep_improper hvalid hfirst hsweep
      cases m1 with
      | false =>
        cases h
        exact hd
      | true => exact sweeps_dangling hd h
    · obtain ⟨g2, m2, hsweep', hkept, -⟩ := @sweep_kept g (range g.nodes.length) false hvalid
        fun c hc hmeets => hfirst ⟨c, hc, hmeets⟩
      rw [sweep, hsweep'] at hsweep
      cases hsweep
      obtain ⟨c, hc, hmeets⟩ := hbad
      rw [sweepsCalls, sweep, hsweep'] at hc
      rcases mem_append.1 hc with hc | hc
      · exact absurd ⟨c, hc, hmeets⟩ hfirst
      · cases m1 with
        | false => cases hc
        | true => exact ih hkept.valid ⟨c, hc, hmeets⟩ h

end Rounds

structure Compacted (g : ControlFlowGraph) (i : ℕ) (s : ControlFlowGraph × ℕ) : Prop where
  heap : s.1.heap = g.heap
  length : s.1.nodes.length = g.nodes.length
  count : s.2 ≤ i
  kept : s.1.nodes.take s.2 = (g.nodes.take i).filter isSome
  rest : ∀ j, i ≤ j → s.1.nodes[j]? = g.nodes[j]?
  finalBefore : g.finalNode < i → (∃ f, g.nodes[g.finalNode]? = some (some f)) →
    s.1.finalNode < s.2 ∧ s.1.nodes[s.1.finalNode]? = g.nodes[g.finalNode]?
  finalAfter : i ≤ g.finalNode → s.1.finalNode = g.finalNode

theorem compacted_zero (g : ControlFlowGraph) : Compacted g 0 (g, 0) :=
  ⟨rfl, rfl, le_rfl, by simp, fun _ _ => rfl, fun h => absurd h (Nat.not_lt_zero _), fun _ => rfl⟩

theorem Compacted.step {s : ControlFlowGraph × ℕ} (h : Compacted g i s)
    (hi : i < g.nodes.length) : Compacted g (i + 1) (compactStep s i) := by
  have hcount := h.count
  have htake : (g.nodes.take (i + 1)).filter isSome =
      s.1.nodes.take s.2 ++ (g.nodes[i]?.toList).filter isSome := by
    rw [take_add_one, filter_append, h.kept]
  unfold compactStep
  split
  · next p hp =>
      have hp := join_eq_some_iff.1 hp
      have hpg : g.nodes[i]? = some (some p) := (h.rest i le_rfl).symm.trans hp
      rw [hpg] at htake
      -- the places before the new one stay as they are, and the node stands in the new one
      generalize hnodes : (if i = s.2 then s.1.nodes else
        (s.1.nodes.set s.2 (some p)).set i none) = nodes
      have hlength : nodes.length = s.1.nodes.length := by
        rw [← hnodes]
        split
        · rfl
        · rw [length_set, length_set]
      have hbefore : ∀ j, j < s.2 → nodes[j]? = s.1.nodes[j]? := by
        intro j hj
        rw [← hnodes]
        split
        · rfl
        · rw [List.getElem?_set_ne (by omega), List.getElem?_set_ne (by omega)]
      have hnew : nodes[s.2]? = some (some p) := by
        rw [← hnodes]
        split
        · next heq => rw [← heq, hp]
        · next hne =>
            rw [List.getElem?_set_ne hne, List.getElem?_set_self]
            rw [h.length]
            omega
      have hafter : ∀ j, i + 1 ≤ j → nodes[j]? = s.1.nodes[j]? := by
        intro j hj
        rw [← hnodes]
        split
        · rfl
        · rw [List.getElem?_set_ne (by omega), List.getElem?_set_ne (by omega)]
      refine ⟨h.heap, hlength.trans h.length, Nat.succ_le_succ hcount, ?_, fun j hj => ?_,
        fun hlt hfinal => ?_, fun hle => ?_⟩
      · rw [htake]
        simp only [take_add_one, hnew]
        refine congrArg₂ _ (ext_getElem? fun j => ?_) rfl
        rw [List.getElem?_take, List.getElem?_take]
        split
        · next hj => exact hbefore j hj
        · rfl
      · exact (hafter j hj).trans (h.rest j (by omega))
      · rcases Nat.lt_or_ge g.finalNode i with hbeforei | hge
        · obtain ⟨hless, heq⟩ := h.finalBefore hbeforei hfinal
          have hne : s.1.finalNode ≠ i := by omega
          simp only [if_neg hne]
          exact ⟨by omega, (hbefore _ hless).trans heq⟩
        · have heq : g.finalNode = i := by omega
          have hfin : s.1.finalNode = i := (h.finalAfter hge).trans heq
          simp only [if_pos hfin]
          exact ⟨Nat.lt_succ_self _, by rw [hnew, heq, hpg]⟩
      · have hfin := h.finalAfter (by omega)
        have hne : s.1.finalNode ≠ i := by omega
        simp only [if_neg hne]
        exact hfin
  · next hnone =>
      have hgone : g.nodes[i]? = some none := by
        rw [h.rest i le_rfl, List.getElem?_eq_getElem hi] at hnone
        rw [List.getElem?_eq_getElem hi]
        exact congrArg some hnone
      rw [hgone] at htake
      refine ⟨h.heap, h.length, by omega, ?_, fun j hj => h.rest j (by omega),
        fun hlt hfinal => ?_, fun hle => h.finalAfter (by omega)⟩
      · rw [htake]
        simp
      · refine h.finalBefore ?_ hfinal
        obtain ⟨f, hf⟩ := hfinal
        have hne : g.finalNode ≠ i := by
          intro heq
          rw [heq, hgone] at hf
          cases hf
        omega

theorem compacted (g : ControlFlowGraph) :
    Compacted g g.nodes.length ((range g.nodes.length).foldl compactStep (g, 0)) := by
  have hsteps : ∀ i, i ≤ g.nodes.length →
      Compacted g i ((range i).foldl compactStep (g, 0)) := by
    intro i hi
    induction i with
    | zero => exact compacted_zero g
    | succ i ih =>
      rw [range_succ, foldl_append]
      exact (ih (by omega)).step hi
  exact hsteps _ le_rfl

theorem compact_nodes (g : ControlFlowGraph) : g.compact.nodes = g.nodes.filter isSome := by
  have hkept := (compacted g).kept
  rw [take_length] at hkept
  exact hkept

theorem compact_heap (g : ControlFlowGraph) : g.compact.heap = g.heap :=
  (compacted g).heap

theorem mem_compact_nodes : some u ∈ g.compact.nodes ↔ some u ∈ g.nodes := by
  rw [compact_nodes, mem_filter]
  exact and_iff_left rfl

theorem Valid.compact_start (h : g.Valid) : g.compact.nodes[startNode]? = g.nodes[startNode]? := by
  obtain ⟨s, hs⟩ := h.start
  rw [compact_nodes]
  rcases hnodes : g.nodes with _ | ⟨o, nodes⟩
  · rw [hnodes] at hs
    cases hs
  · rw [hnodes] at hs
    cases hs
    rfl

theorem Valid.compact_final (h : g.Valid) :
    g.compact.nodes[g.compact.finalNode]? = g.nodes[g.finalNode]? := by
  obtain ⟨f, hf⟩ := h.final
  have hlt : g.finalNode < g.nodes.length := by
    by_contra hge
    rw [List.getElem?_eq_none (by omega)] at hf
    cases hf
  obtain ⟨hless, heq⟩ := (compacted g).finalBefore hlt ⟨f, hf⟩
  rw [← heq]
  simp only [compact, List.getElem?_take, if_pos hless]

theorem compact_hasTrace (h : g.Valid) (l : List ℕ) : g.compact.HasTrace l ↔ g.HasTrace l := by
  have hedge : g.compact.edge = g.edge := by
    funext u v
    rw [edge, edge, next, next, compact_heap]
  have hvisible : g.compact.nonEmpty = g.nonEmpty := by
    funext u
    rw [nonEmpty, nonEmpty, compact_heap]
  rw [HasTrace, HasTrace, h.compact_start, h.compact_final, hedge, hvisible]

theorem Kept.simplified (h : Kept g g') : Simplified g g'.compact := by
  have hvalid := h.valid
  have hnext : g'.compact.next = g'.next := by
    funext u
    rw [next, next, compact_heap]
  have hprev : g'.compact.prev = g'.prev := by
    funext u
    rw [prev, prev, compact_heap]
  have hmem : ∀ u, g'.Alive u → some u ∈ g'.compact.nodes := by
    intro u hu
    obtain ⟨i, hi⟩ := hvalid.owner u hu
    exact mem_compact_nodes.2 (mem_iff_getElem?.2 ⟨i, hi⟩)
  refine ⟨hvalid.compact_start.trans h.start, ?_, fun u v _ hv => ?_, fun u v _ hu => ?_,
    fun u v _ _ => ?_, fun l => (compact_hasTrace hvalid l).trans (h.traces l)⟩
  · rw [hvalid.compact_final, h.finalNode, h.final]
  · rw [hnext] at hv
    exact hmem v (hvalid.alive_of_mem_next hv)
  · rw [hprev] at hu
    exact hmem u (hvalid.alive_of_mem_prev hu)
  · rw [hnext, hprev]
    exact hvalid.symm u v

theorem Dangling.not_simplified (h : g'.Dangling) : ¬Simplified g g'.compact := by
  intro hsimplified
  obtain ⟨u, v, hv, hu, hgone⟩ := h.exists_gone
  have hu' : u ∈ g'.compact.prev v := by
    rw [prev, compact_heap]
    exact hu
  have hmem := mem_compact_nodes.1 (hsimplified.prev_kept u v (mem_compact_nodes.2 hv) hu')
  obtain ⟨i, hi⟩ := mem_iff_getElem?.1 hmem
  exact hgone (h.alive i u hi)

theorem left_le_length (g : ControlFlowGraph) : g.left ≤ g.nodes.length :=
  countP_le_length

/-- `simplify_graph` ends with the graph whole and its paths kept exactly when no call of `erase`
meets a node that is its only predecessor and has another successor. -/
theorem simplifyGraph_iff (hvalid : g.Valid) : (∃ g', g.simplifyGraph = .ok g' ∧ Simplified g g') ↔
      ∀ c ∈ g.eraseCalls, ¬MeetsOwnPredecessor c := by
  constructor
  · rintro ⟨g', hresult, hsimplified⟩ c hc hmeets
    rw [simplifyGraph] at hresult
    rcases hsweeps : g.sweeps (g.nodes.length + 1) with e | g1
    · rw [hsweeps] at hresult
      cases hresult
    · rw [hsweeps] at hresult
      cases hresult
      exact (sweeps_improper hvalid ⟨c, hc, hmeets⟩ hsweeps).not_simplified hsimplified
  · intro hproper
    obtain ⟨g1, hsweeps, hkept⟩ :=
      sweeps_kept hvalid (Nat.lt_succ_of_le (left_le_length g)) hproper
    exact ⟨g1.compact, by rw [simplifyGraph, hsweeps]; rfl, hkept.simplified⟩

section Built

variable {σ κ : Type}

/-- The graph of the builder, with its edges in both lists in the order of the `add_edge` calls.
The neighbours in the block are left out. -/
def ofGraph (g : Graph σ) : ControlFlowGraph where
  heap u := g.nodes[u]?.map fun n =>
    { beginLocation := 0
      endLocation := n.stmts.length
      prevNodeInSameBlock := none
      nextNodeInSameBlock := none
      prev := g.edges.filterMap fun e => if e.2 = u then some e.1 else none
      next := g.next u }
  nodes := (range g.size).map some
  finalNode := g.finalNode

variable {g : Graph σ}

theorem ofGraph_alive : (ofGraph g).Alive u ↔ u < g.size := by
  simp [Alive, ofGraph, Graph.size]

theorem ofGraph_nodes {o : Option ℕ} :
    (ofGraph g).nodes[i]? = some o ↔ i < g.size ∧ o = some i := by
  rw [ofGraph, List.getElem?_map]
  by_cases hi : i < g.size
  · simp [hi, eq_comm]
  · simp [hi]

theorem Graph.finalNode_lt (root : List (TopStmt σ κ)) :
    (Graph.build root).finalNode < (Graph.build root).size := by
  have hgood := (Builder.foldl_visitTop_good root Builder.start_good).grown
    (Builder.newNode_grown (Builder.foldl_visitTop_good root Builder.start_good).valid)
  have hpos := hgood.pos
  unfold Graph.build
  dsimp only
  split
  · simp only [Graph.size, Builder.back, Builder.size] at hpos ⊢
    omega
  · simp [Graph.size]

theorem ofGraph_valid (root : List (TopStmt σ κ)) : (ofGraph (Graph.build root)).Valid := by
  have hinside : ∀ e ∈ (Graph.build root).edges,
      e.1 < (Graph.build root).size ∧ e.2 < (Graph.build root).size := by
    obtain ⟨-, loops, hregion⟩ := Graph.build_region root
    intro e he
    exact ⟨(hregion.edge e he).1, (hregion.edge e he).2.2.1⟩
  have hfinal := Graph.finalNode_lt root
  have hpos := Graph.size_pos root
  generalize Graph.build root = g at hinside hfinal hpos
  have hout : ∀ u v, (ofGraph g).outs u v = g.edges.count (u, v) := by
    intro u v
    by_cases hu : u < g.size
    · have hnext : (ofGraph g).next u = g.next u := by
        simp [next, ofGraph, List.getElem?_eq_getElem (show u < g.nodes.length from hu)]
      rw [outs, hnext, Graph.next]
      induction g.edges with
      | nil => rfl
      | cons e edges ih =>
        rcases e with ⟨a, b⟩
        by_cases ha : a = u
        · simp [ha, count_cons, ih]
        · simp [ha, ih]
    · have hnext : (ofGraph g).next u = [] := by
        simp [next, ofGraph, List.getElem?_eq_none (show g.nodes.length ≤ u from Nat.not_lt.1 hu)]
      rw [outs, hnext, count_nil, count_eq_zero.2 fun he => hu (hinside _ he).1]
  have hin : ∀ u v, (ofGraph g).ins u v = g.edges.count (u, v) := by
    intro u v
    by_cases hv : v < g.size
    · have hprev : (ofGraph g).prev v =
          g.edges.filterMap fun e => if e.2 = v then some e.1 else none := by
        simp [prev, ofGraph, List.getElem?_eq_getElem (show v < g.nodes.length from hv)]
      rw [ins, hprev]
      induction g.edges with
      | nil => rfl
      | cons e edges ih =>
        rcases e with ⟨a, b⟩
        by_cases hb : b = v
        · simp [hb, count_cons, ih]
        · simp [hb, ih]
    · have hprev : (ofGraph g).prev v = [] := by
        simp [prev, ofGraph, List.getElem?_eq_none (show g.nodes.length ≤ v from Nat.not_lt.1 hv)]
      rw [ins, hprev, count_nil, count_eq_zero.2 fun he => hv (hinside _ he).2]
  have hlinks : ∀ u, (ofGraph g).sameNext u = none ∧ (ofGraph g).samePrev u = none := by
    intro u
    rcases hu : g.nodes[u]? with _ | n
    · simp [sameNext, samePrev, ofGraph, hu]
    · simp [sameNext, samePrev, ofGraph, hu]
  constructor
  · constructor
    · intro j p hp
      obtain ⟨hj, heq⟩ := ofGraph_nodes.1 hp
      cases heq
      exact ofGraph_alive.2 hj
    · intro j k p hj hk
      have hj := (ofGraph_nodes.1 hj).2
      have hk := (ofGraph_nodes.1 hk).2
      exact Option.some.inj (hj.symm.trans hk)
  · exact fun p hp => ⟨p, ofGraph_nodes.2 ⟨ofGraph_alive.1 hp, rfl⟩⟩
  · intro u v
    rw [hout, hin]
  · intro u v
    rw [(hlinks u).1, (hlinks v).2]
    simp
  · exact ⟨0, ofGraph_nodes.2 ⟨hpos, rfl⟩⟩
  · exact ⟨g.finalNode, ofGraph_nodes.2 ⟨hfinal, rfl⟩⟩

def loopAfterContinue : List (TopStmt ℕ ℕ) :=
  [.offloaded true .absent .absent .absent
    (.present (.cons .continueStmt (.cons (.forStmt 0 .nil) .nil))) .absent .absent]

/-- The body of that loop is its own only predecessor when it is erased, and the node behind the
loop follows the pointer to it. -/
theorem simplifyGraph_loopAfterContinue :
    (ofGraph (Graph.build loopAfterContinue)).simplifyGraph = .error .dangling ∧
      ¬∃ g', (ofGraph (Graph.build loopAfterContinue)).simplifyGraph = .ok g' ∧
        Simplified (ofGraph (Graph.build loopAfterContinue)) g' := by
  have hfault : (ofGraph (Graph.build loopAfterContinue)).simplifyGraph = .error .dangling := rfl
  refine ⟨hfault, ?_⟩
  rintro ⟨g', hresult, -⟩
  cases hresult

theorem simplifyGraph_iff_loopAfterContinue :
    (∃ g', (ofGraph (Graph.build loopAfterContinue)).simplifyGraph = .ok g' ∧
        Simplified (ofGraph (Graph.build loopAfterContinue)) g') ↔
      ∀ c ∈ (ofGraph (Graph.build loopAfterContinue)).eraseCalls, ¬MeetsOwnPredecessor c :=
  simplifyGraph_iff (ofGraph_valid loopAfterContinue)

end Built

end Quadrants.Cfg.ControlFlowGraph
