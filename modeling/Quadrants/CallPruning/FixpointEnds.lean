import Quadrants.CallPruning.LeastSets
import Mathlib.Data.Set.Finite.Lattice

/-!
The fixpoint ends, with the least sets, unless a cycle of call edges makes a recorded path longer.
-/

namespace Quadrants.CallPruning

open Library.PrefixRewriting List

variable {p : Pruning}

/-- The edges of a callee wait in the worklist or in the round that goes on, or are satisfied. -/
structure Inv (p : Pruning) (pending : List CallEdge) (s : State) : Prop where
  usedNeeded : ∀ f, ∀ name ∈ s.usedVars f, UsedBy p f name
  chainNeeded : ∀ f, ∀ path ∈ s.chainPaths f, ChainOf p f path
  usedRecorded : ∀ f, p.usedVars f ⊆ s.usedVars f
  chainRecorded : ∀ f, p.chainPaths f ⊆ s.chainPaths f
  edges : ∀ edge ∈ p.edges, edge.calleeFuncId ∈ s.worklist ∨ edge ∈ pending ∨
    Saturated edge (fun f => (s.usedVars f : Set Name)) (fun f => (s.chainPaths f : Set Name))
  queued : ∀ f, f ∈ s.queued ↔ f ∈ s.worklist
  nodup : s.worklist.Nodup

theorem enqueue_sets (funcId : FuncId) (s : State) :
    (enqueue funcId s).usedVars = s.usedVars ∧ (enqueue funcId s).chainPaths = s.chainPaths := by
  unfold enqueue
  split <;> exact ⟨rfl, rfl⟩

variable (s : State)

variable (edge : CallEdge)

theorem visitEdge_usedVars : (visitEdge s edge).usedVars = (forwardUsed edge s.usedVars).1 := by
  unfold visitEdge
  simp only
  split
  · exact (enqueue_sets _ _).1
  · rfl

theorem visitEdge_chainPaths :
    (visitEdge s edge).chainPaths = (forwardChains edge s.chainPaths).1 := by
  unfold visitEdge
  simp only
  split
  · exact (enqueue_sets _ _).2
  · rfl

theorem visitEdge_queue :
    ((forwardUsed edge s.usedVars).2 = false ∧ (forwardChains edge s.chainPaths).2 = false ∧
        (visitEdge s edge).worklist = s.worklist ∧ (visitEdge s edge).queued = s.queued) ∨
      (((forwardUsed edge s.usedVars).2 = true ∨ (forwardChains edge s.chainPaths).2 = true) ∧
        (visitEdge s edge).worklist = (enqueue edge.callerFuncId s).worklist ∧
        (visitEdge s edge).queued = (enqueue edge.callerFuncId s).queued) := by
  unfold visitEdge
  simp only
  split
  · next h =>
      refine .inr ⟨Bool.or_eq_true_iff.1 h, ?_, ?_⟩
      · unfold enqueue
        split <;> rfl
      · unfold enqueue
        split <;> rfl
  · next h =>
      rw [Bool.or_eq_true_iff, not_or, Bool.not_eq_true, Bool.not_eq_true] at h
      exact .inl ⟨h.1, h.2, rfl, rfl⟩

theorem visitEdge_used_grown : Grown edge.callerFuncId s.usedVars (visitEdge s edge).usedVars
      (forwardUsed edge s.usedVars).2 := by
  obtain ⟨more, hgrown, hgrew, -⟩ := forwardPairs_grown edge edge.pairs s.usedVars false
  rw [visitEdge_usedVars, forwardUsed, hgrew]
  exact hgrown

theorem visitEdge_chains_grown : Grown edge.callerFuncId s.chainPaths (visitEdge s edge).chainPaths
      (forwardChains edge s.chainPaths).2 := by
  rw [visitEdge_chainPaths]
  exact forwardChains_grown edge s.chainPaths

section Enqueue

variable {s : State} (hqueued : ∀ f, f ∈ s.queued ↔ f ∈ s.worklist)

include hqueued

theorem mem_enqueue (funcId f : FuncId) :
    f ∈ (enqueue funcId s).worklist ↔ f ∈ s.worklist ∨ f = funcId := by
  unfold enqueue
  split
  · next h =>
      refine ⟨.inl, ?_⟩
      rintro (hf | rfl)
      · exact hf
      · exact (hqueued _).1 h
  · rw [mem_append, mem_singleton]

theorem enqueue_queued (funcId f : FuncId) :
    f ∈ (enqueue funcId s).queued ↔ f ∈ (enqueue funcId s).worklist := by
  rw [mem_enqueue hqueued]
  unfold enqueue
  split
  · next h =>
      refine ⟨fun hf => .inl ((hqueued f).1 hf), ?_⟩
      rintro (hf | rfl)
      · exact (hqueued f).2 hf
      · exact h
  · rw [Finset.mem_insert, hqueued, or_comm]

theorem enqueue_nodup (hnodup : s.worklist.Nodup) (funcId : FuncId) :
    (enqueue funcId s).worklist.Nodup := by
  unfold enqueue
  split
  · exact hnodup
  · next h =>
      rw [hqueued] at h
      exact nodup_append'.2 ⟨hnodup, nodup_singleton _, disjoint_singleton.2 h⟩

end Enqueue

variable {edge : CallEdge} {pending : List CallEdge} {s : State}

theorem Saturated.grown {s' : State}
    (h : Saturated edge (fun f => (s.usedVars f : Set Name)) fun f => (s.chainPaths f : Set Name))
    (hused : s'.usedVars edge.calleeFuncId = s.usedVars edge.calleeFuncId)
    (hchains : s'.chainPaths edge.calleeFuncId = s.chainPaths edge.calleeFuncId)
    (husedMono : ∀ f, s.usedVars f ⊆ s'.usedVars f)
    (hchainMono : ∀ f, s.chainPaths f ⊆ s'.chainPaths f) :
    Saturated edge (fun f => (s'.usedVars f : Set Name)) fun f => (s'.chainPaths f : Set Name) where
  used callerArg calleeParam hpair hparam := by
    rw [hused] at hparam
    exact husedMono _ (h.used callerArg calleeParam hpair hparam)
  chains calleeParam callerFlat hpair rest hrest := by
    rw [hchains] at hrest
    exact hchainMono _ (h.chains calleeParam callerFlat hpair rest hrest)

theorem inv_visitEdge (h : Inv p (edge :: pending) s) (hedge : edge ∈ p.edges) :
    Inv p pending (visitEdge s edge) := by
  have hused := visitEdge_used_grown s edge
  have hchains := visitEdge_chains_grown s edge
  refine ⟨?_, ?_, fun f => (h.usedRecorded f).trans (hused.mono f),
    fun f => (h.chainRecorded f).trans (hchains.mono f), ?_, ?_, ?_⟩
  · rw [visitEdge_usedVars]
    exact forwardPairs_needed hedge edge.pairs (List.Subset.refl _) s.usedVars false h.usedNeeded
  · rw [visitEdge_chainPaths]
    exact forwardChains_needed hedge h.chainNeeded
  · intro other hother
    rcases visitEdge_queue s edge with ⟨hnoUsed, hnoChain, hworklist, -⟩ | ⟨-, hworklist, -⟩
    · have hsatisfied := saturated_of_not_grown hnoUsed hnoChain
      rw [hworklist, hused.same hnoUsed, hchains.same hnoChain]
      rcases h.edges other hother with hwait | hpending | hsat
      · exact .inl hwait
      · rcases mem_cons.1 hpending with rfl | hpending
        · exact .inr (.inr hsatisfied)
        · exact .inr (.inl hpending)
      · exact .inr (.inr hsat)
    · rw [hworklist, mem_enqueue h.queued]
      by_cases hcaller : other.calleeFuncId = edge.callerFuncId
      · exact .inl (.inr hcaller)
      · rcases h.edges other hother with hwait | hpending | hsat
        · exact .inl (.inl hwait)
        · rcases mem_cons.1 hpending with rfl | hpending
          · rw [visitEdge_usedVars, visitEdge_chainPaths]
            exact .inr (.inr (saturated_after hcaller s.usedVars s.chainPaths))
          · exact .inr (.inl hpending)
        · exact .inr (.inr (hsat.grown (hused.others _ hcaller) (hchains.others _ hcaller)
            hused.mono hchains.mono))
  · rcases visitEdge_queue s edge with ⟨-, -, hworklist, hqueued⟩ | ⟨-, hworklist, hqueued⟩
    · rw [hworklist, hqueued]
      exact h.queued
    · rw [hworklist, hqueued]
      exact enqueue_queued h.queued _
  · rcases visitEdge_queue s edge with ⟨-, -, hworklist, -⟩ | ⟨-, hworklist, -⟩
    · rw [hworklist]
      exact h.nodup
    · rw [hworklist]
      exact enqueue_nodup h.queued h.nodup _

theorem inv_visitEdges (pending : List CallEdge) :
    ∀ s, Inv p pending s → pending ⊆ p.edges → Inv p [] (pending.foldl visitEdge s) := by
  induction pending with
  | nil => exact fun s h _ => h
  | cons edge pending ih =>
    intro s h hsubset
    exact ih _ (inv_visitEdge h (hsubset mem_cons_self))
      fun x hx => hsubset (mem_cons_of_mem _ hx)

theorem inv_pop (h : Inv p [] s) {calleeFuncId : FuncId} {worklist : List FuncId}
    (hworklist : s.worklist = calleeFuncId :: worklist) : Inv p (edgesByCallee p.edges calleeFuncId)
      { s with worklist := worklist, queued := s.queued.erase calleeFuncId } where
  usedNeeded := h.usedNeeded
  chainNeeded := h.chainNeeded
  usedRecorded := h.usedRecorded
  chainRecorded := h.chainRecorded
  edges edge hedge := by
    rcases h.edges edge hedge with hwait | hpending | hsat
    · rw [hworklist] at hwait
      rcases mem_cons.1 hwait with heq | hwait
      · refine .inr (.inl (mem_filter.2 ⟨hedge, ?_⟩))
        rw [decide_eq_true_iff]
        exact heq
      · exact .inl hwait
    · cases hpending
    · exact .inr (.inr hsat)
  queued f := by
    have hnodup := h.nodup
    rw [hworklist] at hnodup
    rw [Finset.mem_erase, h.queued, hworklist, mem_cons]
    constructor
    · rintro ⟨hne, rfl | hf⟩
      · exact absurd rfl hne
      · exact hf
    · intro hf
      refine ⟨?_, .inr hf⟩
      rintro rfl
      exact (nodup_cons.1 hnodup).1 hf
  nodup := by
    have hnodup := h.nodup
    rw [hworklist] at hnodup
    exact (nodup_cons.1 hnodup).2

theorem inv_start {order : List FuncId} (hnodup : order.Nodup)
    (horder : ∀ f, f ∈ order ↔ f ∈ p.funcIds) : Inv p [] (p.start order) where
  usedNeeded f name h := .recorded h
  chainNeeded f path h := chainOf_recorded h
  usedRecorded f := Finset.Subset.refl _
  chainRecorded f := Finset.Subset.refl _
  edges edge hedge := by
    by_cases hf : edge.calleeFuncId ∈ p.funcIds
    · exact .inl ((horder _).2 hf)
    · refine .inr (.inr ⟨fun callerArg calleeParam _ hparam => ?_, fun _ _ _ rest hrest => ?_⟩)
      · have hempty := p.used_empty _ hf
        simp [Pruning.start, hempty] at hparam
      · have hempty := p.chain_empty _ hf
        simp [Pruning.start, hempty] at hrest
  queued f := mem_toFinset
  nodup := hnodup

theorem leastClosed_of_inv (h : Inv p [] s) (hdone : s.worklist = []) :
    p.LeastClosed (fun f => (s.usedVars f : Set Name)) fun f => (s.chainPaths f : Set Name) where
  closed := by
    refine ⟨fun f name hname => h.usedRecorded f hname, fun f path hpath => h.chainRecorded f hpath,
      fun edge hedge => ?_⟩
    rcases h.edges edge hedge with hwait | hpending | hsat
    · rw [hdone] at hwait
      cases hwait
    · cases hpending
    · exact hsat
  least usedVars' chainPaths' hclosed f :=
    ⟨fun name hname => hclosed.usedBy (h.usedNeeded f name hname),
      fun path hpath => hclosed.chainOf (h.chainNeeded f path hpath)⟩

theorem run_inv (fuel : ℕ) : ∀ s final, Inv p [] s → run p.edges fuel s = some final →
      Inv p [] final ∧ final.worklist = [] := by
  induction fuel with
  | zero => exact fun s final _ h => by cases h
  | succ fuel ih =>
    intro s final hinv hrun
    simp only [run, visitCallee] at hrun
    cases hworklist : s.worklist with
    | nil =>
      rw [hworklist] at hrun
      obtain rfl : s = final := Option.some.inj hrun
      exact ⟨hinv, hworklist⟩
    | cons calleeFuncId worklist =>
      rw [hworklist] at hrun
      exact ih _ final (inv_visitEdges _ _ (inv_pop hinv hworklist)
        fun edge hedge => (mem_filter.1 hedge).1) hrun

section Missing

def missing (facts : Finset (FuncId × Name)) (sets : FuncId → Finset Name) : ℕ :=
  (facts.filter fun fact => fact.2 ∉ sets fact.1).card

variable {caller : FuncId} {before after : FuncId → Finset Name} {grew : Bool}

theorem Grown.missing_le (facts : Finset (FuncId × Name)) (h : Grown caller before after grew) :
    missing facts after ≤ missing facts before := by
  refine Finset.card_le_card fun fact hfact => ?_
  rw [Finset.mem_filter] at hfact ⊢
  exact ⟨hfact.1, fun hbefore => hfact.2 (h.mono _ hbefore)⟩

theorem Grown.missing_lt {facts : Finset (FuncId × Name)} (h : Grown caller before after grew)
    (hgrew : grew = true) (hfacts : ∀ f, ∀ name ∈ after f, (f, name) ∈ facts) :
    missing facts after < missing facts before := by
  obtain ⟨name, hname, hfresh⟩ := h.new hgrew
  refine Finset.card_lt_card (Finset.ssubset_iff_subset_ne.2 ⟨fun fact hfact => ?_, fun heq => ?_⟩)
  · rw [Finset.mem_filter] at hfact ⊢
    exact ⟨hfact.1, fun hbefore => hfact.2 (h.mono _ hbefore)⟩
  · have hmem : (caller, name) ∈ facts.filter fun fact => fact.2 ∉ before fact.1 :=
      Finset.mem_filter.2 ⟨hfacts caller name hname, hfresh⟩
    rw [← heq, Finset.mem_filter] at hmem
    exact hmem.2 hname

end Missing

structure Facts (p : Pruning) where
  used : Finset (FuncId × Name)
  chains : Finset (FuncId × Name)
  mem_used : ∀ f name, UsedBy p f name → (f, name) ∈ used
  mem_chains : ∀ f path, ChainOf p f path → (f, path) ∈ chains

def Facts.missing (facts : Facts p) (s : State) : ℕ :=
  CallPruning.missing facts.used s.usedVars + CallPruning.missing facts.chains s.chainPaths

variable (facts : Facts p)

theorem visitEdge_missing (h : Inv p (edge :: pending) s) (hedge : edge ∈ p.edges) :
    facts.missing (visitEdge s edge) < facts.missing s ∨
      facts.missing (visitEdge s edge) ≤ facts.missing s ∧
        (visitEdge s edge).worklist = s.worklist := by
  have hinv := inv_visitEdge h hedge
  have hused := visitEdge_used_grown s edge
  have hchains := visitEdge_chains_grown s edge
  have husedLe := hused.missing_le facts.used
  have hchainLe := hchains.missing_le facts.chains
  rcases visitEdge_queue s edge with ⟨-, -, hworklist, -⟩ | ⟨hgrew | hgrew, -, -⟩
  · exact .inr ⟨Nat.add_le_add husedLe hchainLe, hworklist⟩
  · have hlt := hused.missing_lt hgrew
      fun f name hname => facts.mem_used f name (hinv.usedNeeded f name hname)
    exact .inl (Nat.add_lt_add_of_lt_of_le hlt hchainLe)
  · have hlt := hchains.missing_lt hgrew
      fun f path hpath => facts.mem_chains f path (hinv.chainNeeded f path hpath)
    exact .inl (Nat.add_lt_add_of_le_of_lt husedLe hlt)

theorem visitEdges_missing (pending : List CallEdge) : ∀ s, Inv p pending s → pending ⊆ p.edges →
      facts.missing (pending.foldl visitEdge s) < facts.missing s ∨
        facts.missing (pending.foldl visitEdge s) ≤ facts.missing s ∧
          (pending.foldl visitEdge s).worklist = s.worklist := by
  induction pending with
  | nil => exact fun s _ _ => .inr ⟨Nat.le_refl _, rfl⟩
  | cons edge pending ih =>
    intro s h hsubset
    have hedge := hsubset mem_cons_self
    have hfirst := visitEdge_missing facts h hedge
    have hrest := ih _ (inv_visitEdge h hedge) fun x hx => hsubset (mem_cons_of_mem _ hx)
    rcases hfirst with hlt | ⟨hle, hworklist⟩
    · rcases hrest with hlt' | ⟨hle', -⟩
      · exact .inl (hlt'.trans hlt)
      · exact .inl (Nat.lt_of_le_of_lt hle' hlt)
    · rcases hrest with hlt' | ⟨hle', hworklist'⟩
      · exact .inl (Nat.lt_of_lt_of_le hlt' hle)
      · exact .inr ⟨hle'.trans hle, hworklist'.trans hworklist⟩

theorem run_ends (n : ℕ) :
    ∀ s, facts.missing s = n → Inv p [] s → ∃ fuel final, run p.edges fuel s = some final := by
  induction n using Nat.strong_induction_on with
  | _ n ih =>
    intro s hmissing hinv
    generalize hlength : s.worklist.length = length
    induction length using Nat.strong_induction_on generalizing s with
    | _ length ihLength =>
      cases hworklist : s.worklist with
      | nil =>
        refine ⟨1, s, ?_⟩
        simp only [run, visitCallee, hworklist]
      | cons calleeFuncId worklist =>
        have hsubset : edgesByCallee p.edges calleeFuncId ⊆ p.edges :=
          fun edge hedge => (mem_filter.1 hedge).1
        have hpop := inv_pop hinv hworklist
        have hnext := inv_visitEdges _ _ hpop hsubset
        have hends : ∃ fuel final, run p.edges fuel
            ((edgesByCallee p.edges calleeFuncId).foldl visitEdge
              { s with worklist := worklist, queued := s.queued.erase calleeFuncId }) =
              some final := by
          rcases visitEdges_missing facts _ _ hpop hsubset with hlt | ⟨hle, hsame⟩
          · exact ih _ (hmissing ▸ hlt) _ rfl hnext
          · rcases Nat.lt_or_eq_of_le hle with hlt | heq
            · exact ih _ (hmissing ▸ hlt) _ rfl hnext
            · refine ihLength worklist.length ?_ _ (heq.trans hmissing) hnext ?_
              · rw [← hlength, hworklist]
                exact Nat.lt_succ_self _
              · rw [hsame]
        obtain ⟨fuel, final, hrun⟩ := hends
        refine ⟨fuel + 1, final, ?_⟩
        simp only [run, visitCallee, hworklist]
        exact hrun

theorem usedBy_finite (p : Pruning) : {fact : FuncId × Name | UsedBy p fact.1 fact.2}.Finite := by
  have hrecorded : {fact : FuncId × Name | ∃ f ∈ p.funcIds, fact.1 = f ∧
      fact.2 ∈ p.usedVars f}.Finite := by
    refine ((finite_toSet p.funcIds).biUnion fun f _ =>
      ((p.usedVars f).finite_toSet.image (Prod.mk f))).subset ?_
    rintro ⟨f, name⟩ ⟨g, hg, rfl, hname⟩
    exact Set.mem_biUnion hg ⟨name, hname, rfl⟩
  have hforwarded : {fact : FuncId × Name | ∃ edge ∈ p.edges, fact.1 = edge.callerFuncId ∧
      fact.2 ∈ edge.pairs.map Prod.fst}.Finite := by
    refine ((finite_toSet p.edges).biUnion fun edge _ =>
      ((finite_toSet (edge.pairs.map Prod.fst)).image (Prod.mk edge.callerFuncId))).subset ?_
    rintro ⟨f, name⟩ ⟨edge, hedge, rfl, hname⟩
    exact Set.mem_biUnion hedge ⟨name, hname, rfl⟩
  refine (hrecorded.union hforwarded).subset ?_
  rintro ⟨f, name⟩ h
  cases h with
  | recorded hname =>
    refine .inl ⟨f, ?_, rfl, hname⟩
    by_contra hf
    rw [p.used_empty f hf] at hname
    exact absurd hname (Finset.notMem_empty _)
  | forwarded hedge hpair _ => exact .inr ⟨_, hedge, rfl, mem_map.2 ⟨_, hpair, rfl⟩⟩

theorem ends_of_no_lengtheningCycle (hno : ¬ p.LengtheningCycle) (hinv : Inv p [] s) :
    ∃ fuel final, run p.edges fuel s = some final := by
  have hchains : (reachable (chainRules p.edges) p.recordedPaths).Finite := reachable_finite hno
  have facts : Facts p :=
    { used := (usedBy_finite p).toFinset
      chains := hchains.toFinset
      mem_used := fun f name h => (Set.Finite.mem_toFinset _).2 h
      mem_chains := fun f path h => (Set.Finite.mem_toFinset _).2 h }
  exact run_ends facts _ s rfl hinv

theorem no_lengtheningCycle_of_run {final : State} (hinv : Inv p [] s) {fuel : ℕ}
    (hrun : run p.edges fuel s = some final) : ¬ p.LengtheningCycle := by
  obtain ⟨hfinal, hdone⟩ := run_inv fuel s final hinv hrun
  have hleast := leastClosed_of_inv hfinal hdone
  have hstates : {f | f ∈ (heads (chainRules p.edges) p.recordedPaths).map Prod.fst}.Finite :=
    finite_toSet _
  apply reachable_finite_iff.1
  refine (hstates.biUnion fun f _ => (final.chainPaths f).finite_toSet.image (Prod.mk f)).subset ?_
  rintro ⟨f, path⟩ h
  have hmem := hleast.closed.chainOf h
  obtain ⟨start, hstart, hreach⟩ := h
  exact Set.mem_biUnion (reach_within hstart hreach).1 ⟨path, hmem, rfl⟩

/-- In every order of the edges and of the worklist. -/
theorem Pruning.propagateFixpoint_iff (p : Pruning) (order : List FuncId) (hnodup : order.Nodup)
    (horder : ∀ f, f ∈ order ↔ f ∈ p.funcIds) :
    (∃ fuel final, p.propagateFixpoint order fuel = some final ∧
      p.LeastClosed (fun f => (final.usedVars f : Set Name))
        fun f => (final.chainPaths f : Set Name)) ↔
      ¬ p.LengtheningCycle := by
  have hstart := inv_start hnodup horder
  constructor
  · rintro ⟨fuel, final, hrun, -⟩
    exact no_lengtheningCycle_of_run hstart hrun
  · intro hno
    obtain ⟨fuel, final, hrun⟩ := ends_of_no_lengtheningCycle hno hstart
    obtain ⟨hfinal, hdone⟩ := run_inv fuel _ final hstart hrun
    exact ⟨fuel, final, hrun, leastClosed_of_inv hfinal hdone⟩

def pathX : Name := createFlatName ['s'] ['x']

def pathChild : Name := createFlatName ['s'] ['c', 'h', 'i', 'l', 'd']

def kernelCall : Call :=
  ⟨0, 1, false, [['s']], 9, 4, [.name ['a']], []⟩

def selfCall : Call :=
  ⟨1, 1, false, [['s']], 4, 8, [.name ['s']], []⟩

def childCall : Call :=
  ⟨1, 1, false, [['s']], 4, 8, [.attribute (.name ['s']) ['c', 'h', 'i', 'l', 'd']], []⟩

def discoverRecursive (call : Call) (paths : List Name) : Option Pruning := do
  let p := paths.foldl (fun p path => p.markKernelArgChainUsed 1 path) Pruning.empty
  let p ← p.recordAfterCall call
  p.recordAfterCall kernelCall

theorem propagateFixpoint_iff_selfCall : ∃ p, discoverRecursive selfCall [pathX] = some p ∧
    ((∃ fuel final, p.propagateFixpoint [1] fuel = some final ∧
      p.LeastClosed (fun f => (final.usedVars f : Set Name))
        fun f => (final.chainPaths f : Set Name)) ↔
      ¬ p.LengtheningCycle) :=
  ⟨_, rfl, Pruning.propagateFixpoint_iff _ [1] (nodup_singleton 1) fun _ => Iff.rfl⟩

/-- `__qd_s__qd_x` becomes `__qd_s__qd_child__qd_x`, and so on without end. -/
theorem childCall_never_ends : ∃ p, discoverRecursive childCall [pathX, pathChild] = some p ∧
    ∀ order : List FuncId, order.Nodup → (∀ f, f ∈ order ↔ f ∈ p.funcIds) →
      ∀ fuel, p.propagateFixpoint order fuel = none := by
  refine ⟨_, rfl, fun order hnodup horder fuel => ?_⟩
  rw [Option.eq_none_iff_forall_ne_some]
  intro final hrun
  apply no_lengtheningCycle_of_run (inv_start hnodup horder) hrun
  refine ⟨(1, pathX), mem_recordedPaths.2 (by decide), 1, chainPrefix ['s'],
    ['c', 'h', 'i', 'l', 'd'] ++ delimiter, ['x'], by decide, .refl, .single ?_⟩
  have hpair : (['s'], pathChild) ∈ CallEdge.chainPairs ⟨1, 1, [], [], [(['s'], pathChild)]⟩ :=
    mem_cons_self
  exact .mk ⟨1, chainPrefix ['s'], 1, rerooted pathChild⟩ []
    (mem_chainRules mem_cons_self hpair)

end Quadrants.CallPruning
