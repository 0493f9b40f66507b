import Quadrants.Analysis.UniqueSearch
import Mathlib.Data.List.Perm.Subperm

namespace Quadrants.Analysis

open List

section Identify

variable {task : OffloadedTask}

theorem axes_nodup (hwf : task.WellFormed) : task.axes.Nodup := by
  unfold OffloadedTask.axes
  split
  · rename_i activeIndices htype
    exact hwf.activeIndices_nodup activeIndices htype
  · split
    · exact nodup_singleton 0
    · exact nodup_dedup _

theorem mem_filter_own {operand : Val} {axis : ℕ} {loop : Loop} :
    .decoration loop operand axis ∈ task.body.filter (fun stmt => !stmt.isInnerDecoration) ↔
      loop = .offloaded ∧ .decoration .offloaded operand axis ∈ task.body := by
  cases loop with
  | offloaded => simp [BodyStmt.isInnerDecoration]
  | inner id => simp [BodyStmt.isInnerDecoration]

theorem length_axes (hwf : task.WellFormed) (hmesh : task.taskType ≠ .meshFor) :
    (task.axes.length : ℤ) = task.ownUnique.numDifferentLoopIndices := by
  have hnum := numberInv_ownUnique hwf
  cases htype : task.taskType with
  | meshFor => exact absurd htype hmesh
  | structFor activeIndices =>
    rcases hnum.attained with h | ⟨loop, operand, axis, hmem, -⟩
    · rw [h]
      simp only [OffloadedTask.axes, OffloadedTask.numLoopIndices, htype]
    · obtain ⟨-, hbody⟩ := mem_filter_own.mp hmem
      rw [(hwf.decoration_complete operand axis hbody).1] at htype
      cases htype
  | rangeFor =>
    have hone : task.numLoopIndices = 1 := by
      simp only [OffloadedTask.numLoopIndices, htype]
    have hbound : ∀ axis ∈ task.decoratedAxes,
        (axis : ℤ) + 1 ≤ task.ownUnique.numDifferentLoopIndices := by
      intro axis h
      obtain ⟨operand, hmem⟩ := mem_decoratedAxes.mp h
      exact hnum.bound _ _ _ (mem_filter_own.mpr ⟨rfl, hmem⟩)
    have hattained : ∀ axis : ℕ, axis ∈ task.axes ↔
        (axis : ℤ) < task.ownUnique.numDifferentLoopIndices := by
      intro axis
      simp only [OffloadedTask.axes, htype]
      rcases hnum.attained with h | ⟨loop, operand, last, hmem, h⟩
      · split
        · rw [mem_singleton]
          omega
        · rename_i hne
          constructor
          · intro haxis
            have := hbound axis haxis
            omega
          · intro haxis
            obtain rfl : axis = 0 := by omega
            obtain ⟨first, hfirst⟩ := exists_mem_of_ne_nil _ hne
            have hle := hbound first hfirst
            obtain rfl : first = 0 := by omega
            exact hfirst
      · obtain ⟨-, hbody⟩ := mem_filter_own.mp hmem
        have hlast : last ∈ task.decoratedAxes := mem_decoratedAxes.mpr ⟨operand, hbody⟩
        rw [if_neg (ne_nil_of_mem hlast)]
        constructor
        · intro haxis
          have := hbound axis haxis
          omega
        · intro haxis
          rcases Nat.lt_or_ge axis last with hlt | hge
          · obtain ⟨operand', hmem'⟩ := (hwf.decoration_complete operand last hbody).2 axis hlt
            exact mem_decoratedAxes.mpr ⟨operand', hmem'⟩
          · obtain rfl : axis = last := by omega
            exact hlast
    have hstart := hnum.start
    have hnonneg : 0 ≤ task.ownUnique.numDifferentLoopIndices := by omega
    obtain ⟨n, hn⟩ := Int.eq_ofNat_of_zero_le hnonneg
    rw [hn] at hattained ⊢
    have hperm : task.axes.Perm (List.range n) := by
      rw [perm_ext_iff_of_nodup (axes_nodup hwf) nodup_range]
      intro axis
      rw [hattained, mem_range]
      omega
    rw [hperm.length_eq, length_range]

theorem OffloadedTask.Identifies.eq_of_value_eq (hwf : task.WellFormed) {indices : List Val}
    (h : task.Identifies indices) (r : TaskRun task) {s t : r.Iteration} {σ τ : Valuation}
    (hσ : r.state s σ) (hτ : r.state t τ)
    (hvalues : ∀ index ∈ indices, σ.value index = τ.value index) : s = t := by
  have hinv := @searchInv_ownUnique task r hwf
  have hseparate : (∃ index ∈ indices, task.ownUnique.loopUnique index = some (-1)) → s = t := by
    rintro ⟨index, hmem, hindex⟩
    rcases hinv.tells index (-1) hindex with ⟨-, hseparates⟩ | ⟨axis, -, haxis, -⟩
    · exact hseparates s t σ τ hσ hτ (hvalues index hmem)
    · omega
  rcases h with h | h
  · exact hseparate h
  · split at h
    · obtain ⟨index, hmem, hindex⟩ := h
      exact r.fromEnd_inj s t σ τ hσ hτ index hindex (hvalues index hmem)
    · rename_i hmesh
      rcases Classical.em (∃ index ∈ indices, task.ownUnique.loopUnique index = some (-1)) with
        hunique | hunique
      · exact hseparate hunique
      · -- all the loop indices of the task occur
        have hsubset : task.ownUnique.loopIndices indices ⊆ task.axes.map Int.ofNat := by
          intro index hindex
          rw [LoopUniqueStmtSearcher.loopIndices, mem_dedup, mem_filterMap] at hindex
          obtain ⟨val, hmem, hval⟩ := hindex
          rcases hinv.tells val index hval with ⟨rfl, -⟩ | ⟨axis, haxis, rfl, -⟩
          · exact absurd ⟨val, hmem, hval⟩ hunique
          · exact mem_map.mpr ⟨axis, haxis, rfl⟩
        have hperm := (subperm_of_subset (nodup_dedup _) hsubset).perm_of_length_le (by
          rw [length_map]
          have hlength := length_axes hwf hmesh
          rw [← h] at hlength
          exact Int.ofNat_le.mp hlength.le)
        apply r.coordinates_inj hmesh
        intro axis haxis
        have haxis' : (axis : ℤ) ∈ task.ownUnique.loopIndices indices :=
          hperm.mem_iff.mpr (mem_map.mpr ⟨axis, haxis, rfl⟩)
        rw [LoopUniqueStmtSearcher.loopIndices, mem_dedup, mem_filterMap] at haxis'
        obtain ⟨val, hmem, hval⟩ := haxis'
        rcases hinv.tells val axis hval with ⟨h, -⟩ | ⟨axis', -, heq, htells⟩
        · omega
        · obtain rfl : axis = axis' := by omega
          exact htells hmesh s t σ τ hσ hτ (hvalues val hmem)

theorem EqualIndex.value_eq (σ : Valuation) {val1 val2 : Val} (h : EqualIndex val1 val2) :
    σ.value val1 = σ.value val2 := by
  induction h with
  | rel val1 val2 h =>
    obtain ⟨htyped1, htyped2, hequal | hsame⟩ := h
    · exact σ.value_eq_of_certainlyEqual htyped1 htyped2 hequal
    · exact σ.value_eq_of_sameValue hsame
  | refl val => rfl
  | symm val1 val2 _ ih => exact ih.symm
  | trans val1 val2 val3 _ _ ih1 ih2 => exact ih1.trans ih2

theorem OffloadedTask.Covered.eq_of_value_eq (hwf : task.WellFormed) {indices indices' : List Val}
    (h : task.Covered indices indices') (r : TaskRun task) {s t : r.Iteration}
    {σ τ : Valuation} (hσ : r.state s σ) (hτ : r.state t τ)
    (hcell : indices.map σ.value = indices'.map τ.value) : s = t := by
  obtain ⟨common, hcommon, hidentifies⟩ := h
  apply hidentifies.eq_of_value_eq hwf r hσ hτ
  intro index hindex
  obtain ⟨entry, hentry, rfl⟩ := mem_map.mp hindex
  obtain ⟨hequal, hequal', axis, haxis, haxis'⟩ := hcommon entry hentry
  have hvalue := congrArg (fun cell : List ℤ => cell[axis]?) hcell
  simp only [List.getElem?_map, haxis, haxis', Option.map_some, Option.some.injEq] at hvalue
  rw [hequal.value_eq σ, hvalue, hequal'.value_eq τ]

end Identify

section Cover

variable {task : OffloadedTask}

theorem covered_of_uniqueIndices (hmesh : task.taskType ≠ .meshFor)
    {base indices indices' : List Val} (hlength : base.length = indices.length)
    (hlength' : base.length = indices'.length)
    (hunique : task.ownUnique.isPtrIndicesLoopUnique base = true)
    (hequal : ∀ entry ∈ base.zip (indices.zip indices'),
      (task.ownUnique.loopUnique entry.1).isSome = true →
      EqualIndex entry.1 entry.2.1 ∧ EqualIndex entry.1 entry.2.2) :
    task.Covered indices indices' := by
  refine ⟨(base.zip (indices.zip indices')).filter fun entry =>
    (task.ownUnique.loopUnique entry.1).isSome, ?_, ?_⟩
  · intro entry hentry
    obtain ⟨hmem, hsome⟩ := mem_filter.mp hentry
    obtain ⟨hequal1, hequal2⟩ := hequal entry hmem hsome
    obtain ⟨axis, haxis⟩ := mem_iff_getElem?.mp hmem
    rw [List.getElem?_zip_eq_some, List.getElem?_zip_eq_some] at haxis
    exact ⟨hequal1, hequal2, axis, haxis.2.1, haxis.2.2⟩
  · have hfst : ((base.zip (indices.zip indices')).filter fun entry =>
        (task.ownUnique.loopUnique entry.1).isSome).map Prod.fst =
        base.filter fun index => (task.ownUnique.loopUnique index).isSome := by
      have hmap : (base.zip (indices.zip indices')).map Prod.fst = base :=
        map_fst_zip (by rw [length_zip]; omega)
      rw [← hmap, filter_map, hmap]
      rfl
    rw [hfst]
    rcases Bool.or_eq_true _ _ ▸ hunique with hunique | hcount
    · obtain ⟨index, hmem, hindex⟩ := any_eq_true.mp hunique
      rw [beq_iff_eq] at hindex
      exact Or.inl ⟨index, mem_filter.mpr ⟨hmem, by rw [hindex]; rfl⟩, hindex⟩
    · refine Or.inr ?_
      have hindices : task.ownUnique.loopIndices (base.filter fun index =>
          (task.ownUnique.loopUnique index).isSome) = task.ownUnique.loopIndices base := by
        unfold LoopUniqueStmtSearcher.loopIndices
        rw [filterMap_filter]
        congr 1
        apply filterMap_congr
        intro index _
        cases task.ownUnique.loopUnique index <;> rfl
      split
      · rename_i htype
        exact absurd htype hmesh
      · rw [hindices]
        exact beq_iff_eq.mp hcount

theorem ownUnique_eq (hown : ∀ stmt ∈ task.body, stmt.isInnerDecoration ≠ true) :
    task.ownUnique = task.searchUnique task.body := by
  unfold OffloadedTask.ownUnique
  rw [filter_eq_self.mpr]
  intro stmt hstmt
  simpa using hown stmt hstmt

theorem certainlyEqual_refl (val : Val) : CertainlyEqual val val := by
  unfold CertainlyEqual valueDiffPtrIndex
  rw [if_pos rfl]

theorem sameValue_refl (val : Val) : sameValue val val = true := by
  unfold sameValue
  rw [beq_self_eq_true, Bool.true_or]

theorem certainlyEqual_of_definitelySame {id id' snode : ℕ} {indices indices' : List Val}
    (h : definitelySameAddress (some (.globalPtr id snode indices)) (.globalPtr id' snode indices') =
      true) : List.Forall₂ CertainlyEqual indices indices' := by
  have hsame := beq_iff_eq.mp h
  rcases eq_or_ne (Ptr.globalPtr id snode indices) (.globalPtr id' snode indices') with heq | hne
  · obtain ⟨-, -, rfl⟩ := Ptr.globalPtr.inj heq
    exact forall₂_same.mpr fun val _ => certainlyEqual_refl val
  · rw [aliasAnalysis_nonlocal hne ⟨rfl, rfl⟩ ⟨rfl, rfl⟩] at hsame
    simp only [aliasNonlocal, Ptr.isAdStackAlloca, Ptr.asGlobalTemporary, Ptr.asThreadLocalPtr,
      Ptr.asBlockLocalPtr, Ptr.asExternalPtr, ifEither, Bool.or_self, Bool.false_eq_true,
      aliasSNode, Ptr.getSNodeId, Ptr.asGlobalPtr, ne_eq, not_true_eq_false,
      if_false] at hsame
    split at hsame
    · rename_i hlength
      exact (aliasGlobalIndices_same hlength (Option.some.inj hsame)).2
    · cases hsame

end Cover

end Quadrants.Analysis
