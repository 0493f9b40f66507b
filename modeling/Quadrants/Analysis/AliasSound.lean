import Quadrants.Analysis.NonlocalAlias

namespace Quadrants.Analysis

open Quadrants.Library.PathRegion

section Local

variable {K : Kernel} {r : Run} {var1 var2 origin1 origin2 : Ptr}

variable {argId : List ℕ} {id id1 id2 : ℕ} {isGrad : Bool} {offset offset1 offset2 : Val}
variable {origin var : Ptr}

theorem Ptr.eq_of_retrieveLocal (h : var.retrieveLocal = some origin) :
    (∃ id, var = .alloca id ∧ origin = .alloca id) ∨
      ∃ id offset, var = .matrixPtr id origin offset ∧
        (Ptr.matrixPtr id origin offset).offsetUsedAsIndex = true := by
  cases var with
  | alloca id => exact Or.inl ⟨id, rfl, (Option.some.inj h).symm⟩
  | matrixPtr id origin' offset =>
    simp only [Ptr.retrieveLocal, Option.ite_none_right_eq_some, Option.some.injEq] at h
    obtain ⟨hindex, rfl⟩ := h
    exact Or.inr ⟨id, offset, rfl, hindex⟩
  | _ => cases h

theorem Ptr.retrieveLocal_matrixPtr
    (h : (Ptr.matrixPtr id origin offset).offsetUsedAsIndex = true) :
    (Ptr.matrixPtr id origin offset).retrieveLocal = some origin := by
  rw [Ptr.retrieveLocal, if_pos h]

inductive IndexOrigin (K : Kernel) : Ptr → Prop where
  | alloca (id : ℕ) : IndexOrigin K (.alloca id)
  | globalTemporary (id offset : ℕ) : IndexOrigin K (.globalTemporary id offset)
  | externalPtr (id : ℕ) (basePtr : ArgLoad) (indices : List Val) (isGrad : Bool) :
      indices.length = K.ndim basePtr.argId →
      IndexOrigin K (.externalPtr id basePtr indices isGrad)
  | matrixPtr (id id2 : ℕ) (offset : Val) : IndexOrigin K (.matrixPtr id (.alloca id2) offset)

theorem Kernel.WellTyped.indexOrigin (htyped : K.WellTyped (.matrixPtr id origin offset))
    (h : (Ptr.matrixPtr id origin offset).offsetUsedAsIndex = true) : IndexOrigin K origin := by
  obtain ⟨_, horigin, _⟩ := htyped
  match origin, h, horigin with
  | .alloca id, _, _ => exact .alloca id
  | .globalTemporary id offset, _, _ => exact .globalTemporary id offset
  | .externalPtr id basePtr indices isGrad, _, horigin =>
    exact .externalPtr id basePtr indices isGrad horigin.1
  | .matrixPtr id (.alloca id2) offset, _, _ => exact .matrixPtr id id2 offset

theorem Ptr.notBase_of_retrieveLocal (h : var.retrieveLocal = some origin) :
    var.asExternalTensorBasePtr = none := by
  rcases Ptr.eq_of_retrieveLocal h with ⟨id, rfl, -⟩ | ⟨id, offset, rfl, -⟩ <;> rfl

theorem aliasAnalysis_local (hne : var1 ≠ var2) (hlocal1 : var1.retrieveLocal = some origin1)
    (hlocal2 : var2.retrieveLocal = some origin2) :
    aliasAnalysis var1 var2 = aliasLocal (var1.originAlias origin2) var1 var2 origin1 origin2 := by
  rw [aliasAnalysis_eq, aliasStep, if_neg hne, Ptr.notBase_of_retrieveLocal hlocal1,
    Ptr.notBase_of_retrieveLocal hlocal2]
  simp only [hlocal1, hlocal2]

theorem aliasAnalysis_mixed (hlocal1 : var1.retrieveLocal = some origin1)
    (hnonlocal2 : IsNonlocal var2) : aliasAnalysis var1 var2 = some .different := by
  have hne : var1 ≠ var2 := by
    rintro rfl
    rw [hnonlocal2.notLocal] at hlocal1
    cases hlocal1
  rw [aliasAnalysis_eq, aliasStep, if_neg hne, Ptr.notBase_of_retrieveLocal hlocal1,
    hnonlocal2.notBase]
  simp only [hlocal1, hnonlocal2.notLocal]

theorem aliasAnalysis_nonlocal (hne : var1 ≠ var2) (hnonlocal1 : IsNonlocal var1)
    (hnonlocal2 : IsNonlocal var2) : aliasAnalysis var1 var2 = aliasNonlocal var1 var2 := by
  rw [aliasAnalysis_eq, aliasStep, if_neg hne, hnonlocal1.notBase, hnonlocal2.notBase]
  simp only [hnonlocal1.notLocal, hnonlocal2.notLocal]

theorem aliasAnalysis_base (hne : .externalTensorBasePtr id argId isGrad ≠ var2) :
    aliasAnalysis (.externalTensorBasePtr id argId isGrad) var2 =
      some (aliasBase argId isGrad var2) := by
  rw [aliasAnalysis_eq, aliasStep, if_neg hne]
  rfl

theorem Ptr.base_or_local_or_nonlocal (var : Ptr) :
    (∃ id argId isGrad, var = .externalTensorBasePtr id argId isGrad) ∨
      (∃ origin, var.retrieveLocal = some origin) ∨ IsNonlocal var := by
  cases hbase : var.asExternalTensorBasePtr with
  | some base =>
    obtain ⟨id, rfl⟩ := Ptr.eq_of_asExternalTensorBasePtr hbase
    exact Or.inl ⟨id, base.1, base.2, rfl⟩
  | none =>
    cases hlocal : var.retrieveLocal with
    | some origin => exact Or.inr (Or.inl ⟨origin, rfl⟩)
    | none => exact Or.inr (Or.inr ⟨hlocal, hbase⟩)

theorem aliasBase_ne_same (argId : List ℕ) (isGrad : Bool) (other : Ptr) :
    aliasBase argId isGrad other ≠ .same := by
  unfold aliasBase
  split
  · split
    · exact AliasResult.noConfusion
    · split <;> exact AliasResult.noConfusion
  · split
    · exact AliasResult.noConfusion
    · split <;> exact AliasResult.noConfusion
  · exact AliasResult.noConfusion

theorem eq_base_of_aliasBase {other : Ptr}
    (htyped : K.WellTyped other) (h : aliasBase argId isGrad other = .different)
    (hroot : other.root = .external argId isGrad) :
    ∃ id, other = .externalTensorBasePtr id argId isGrad := by
  match other, htyped with
  | .externalTensorBasePtr id argId' isGrad', _ =>
    obtain ⟨rfl, rfl⟩ := Root.external.inj hroot
    exact ⟨id, rfl⟩
  | .externalPtr id basePtr indices isGrad', _ =>
    obtain ⟨rfl, rfl⟩ := Root.external.inj hroot
    simp [aliasBase] at h
  | .matrixPtr id (.externalPtr id2 basePtr indices isGrad') offset, _ =>
    obtain ⟨rfl, rfl⟩ := Root.external.inj hroot
    simp [aliasBase] at h
  | .matrixPtr id (.matrixPtr id2 (.alloca id3) offset2) offset, _ => cases hroot

theorem aliasOrigins_ne_same (origin1 origin2 : Ptr) : aliasOrigins origin1 origin2 ≠ some .same := by
  unfold aliasOrigins
  split
  · simp
  · split
    · simp
    · split
      · split <;> simp
      · simp

section MatrixPtrs

variable {originAlias : Option AliasResult} {id1 id2 : ℕ} {offset1 offset2 : Val}

theorem aliasLocal_same (h : origin1 = origin2 ∨ originAlias = some .same) :
    aliasLocal originAlias (.matrixPtr id1 origin1 offset1) (.matrixPtr id2 origin2 offset2)
        origin1 origin2 =
      if (valueDiffPtrIndex offset1 offset2).isDiffCertain then
        some (if (valueDiffPtrIndex offset1 offset2).diffRange = 0 then .same else .different)
      else aliasOrigins origin1 origin2 := by
  have hsame : (if origin1 = origin2 then some .same else originAlias) = some .same := by
    rw [ite_eq_left_iff]
    exact h.resolve_left
  simp only [aliasLocal, Ptr.asMatrixPtr, hsame]

variable {result : AliasResult}

theorem aliasLocal_not_same (hne : origin1 ≠ origin2) (hresult : result ≠ .same) :
    aliasLocal (some result) (.matrixPtr id1 origin1 offset1) (.matrixPtr id2 origin2 offset2)
      origin1 origin2 = some .different := by
  simp only [aliasLocal, Ptr.asMatrixPtr, if_neg hne]

theorem aliasLocal_none (hne : origin1 ≠ origin2) :
    aliasLocal none (.matrixPtr id1 origin1 offset1) (.matrixPtr id2 origin2 offset2)
      origin1 origin2 = none := by
  simp only [aliasLocal, Ptr.asMatrixPtr, if_neg hne]

theorem aliasLocal_matrixPtr_cases
    (h : aliasLocal originAlias (.matrixPtr id1 origin1 offset1) (.matrixPtr id2 origin2 offset2)
      origin1 origin2 = some result) :
    (origin1 ≠ origin2 ∧ originAlias ≠ some .same ∧ result = .different) ∨
    ((origin1 = origin2 ∨ originAlias = some .same) ∧
      (((valueDiffPtrIndex offset1 offset2).isDiffCertain = true ∧
        result = if (valueDiffPtrIndex offset1 offset2).diffRange = 0 then .same
          else .different) ∨
      aliasOrigins origin1 origin2 = some result)) := by
  rcases Decidable.em (origin1 = origin2 ∨ originAlias = some .same) with hsame | hsame
  · rw [aliasLocal_same hsame] at h
    split at h
    · rename_i hcertain
      exact Or.inr ⟨hsame, Or.inl ⟨hcertain, (Option.some.inj h).symm⟩⟩
    · exact Or.inr ⟨hsame, Or.inr h⟩
  · obtain ⟨hne, halias⟩ := not_or.mp hsame
    cases originAlias with
    | none =>
      rw [aliasLocal_none hne] at h
      cases h
    | some originResult =>
      rw [aliasLocal_not_same hne (fun heq => halias (by rw [heq]))] at h
      exact Or.inl ⟨hne, halias, (Option.some.inj h).symm⟩

end MatrixPtrs

theorem aliasLocal_alloca (originAlias : Option AliasResult) (id : ℕ) (var2 origin1 origin2 : Ptr) :
    aliasLocal originAlias (.alloca id) var2 origin1 origin2 = aliasOrigins origin1 origin2 := by
  cases var2 <;> rfl

theorem region_eq_of_cells_eq (h : r.cells K var1 = r.cells K var2) :
    var1.root = var2.root ∧ r.path K var1 = r.path K var2 := by
  have hregion := (Region.cells_eq_iff _ _).mp h
  exact ⟨congrArg Region.root hregion, congrArg Region.path hregion⟩

theorem cells_matrixPtr_eq
    (horigin : r.cells K origin1 = r.cells K origin2) (hoffset : r.value offset1 = r.value offset2) :
    r.cells K (.matrixPtr id1 origin1 offset1) = r.cells K (.matrixPtr id2 origin2 offset2) := by
  obtain ⟨hroot, hpath⟩ := region_eq_of_cells_eq horigin
  apply cells_eq
  · exact hroot
  · rw [Run.path, Run.path, hpath, hoffset]

theorem IndexOrigin.not_lookalike (h : IndexOrigin K origin1) : ¬Lookalike origin1 origin2 := by
  rintro ⟨⟩
  cases h

theorem cells_eq_of_local_same (htyped1 : K.WellTyped var1) (htyped2 : K.WellTyped var2)
    (hlocal1 : var1.retrieveLocal = some origin1) (hlocal2 : var2.retrieveLocal = some origin2)
    (hne : var1 ≠ var2)
    (horigin : var1.originAlias origin2 = some .same → r.cells K origin1 = r.cells K origin2)
    (h : aliasAnalysis var1 var2 = some .same) : r.cells K var1 = r.cells K var2 := by
  have hcomm := h
  rw [← aliasAnalysis_comm, aliasAnalysis_local hne.symm hlocal2 hlocal1] at hcomm
  rw [aliasAnalysis_local hne hlocal1 hlocal2] at h
  rcases Ptr.eq_of_retrieveLocal hlocal1 with ⟨id1, rfl, rfl⟩ | ⟨id1, offset1, rfl, -⟩
  · exact absurd h (aliasOrigins_ne_same _ _)
  rcases Ptr.eq_of_retrieveLocal hlocal2 with ⟨id2, rfl, rfl⟩ | ⟨id2, offset2, rfl, -⟩
  · exact absurd hcomm (aliasOrigins_ne_same _ _)
  rcases aliasLocal_matrixPtr_cases h with ⟨-, -, hresult⟩ | ⟨hsame, ⟨hcertain, hresult⟩ | hrest⟩
  · cases hresult
  · have hcells : r.cells K origin1 = r.cells K origin2 := by
      rcases hsame with rfl | hsame
      · rfl
      · exact horigin hsame
    have hzero : (valueDiffPtrIndex offset1 offset2).diffRange = 0 := by
      by_contra hnonzero
      rw [if_neg hnonzero] at hresult
      cases hresult
    exact cells_matrixPtr_eq hcells
      ((r.value_eq_iff_of_certain htyped1.2.2 htyped2.2.2 hcertain).mpr hzero)
  · exact absurd hrest (aliasOrigins_ne_same _ _)

theorem cells_eq_or_lookalike_step (htyped1 : K.WellTyped var1) (htyped2 : K.WellTyped var2)
    (horigin : ∀ origin1 origin2, var1.retrieveLocal = some origin1 →
      var2.retrieveLocal = some origin2 → var1.originAlias origin2 = some .same →
      r.cells K origin1 = r.cells K origin2)
    (h : aliasAnalysis var1 var2 = some .same) :
    r.cells K var1 = r.cells K var2 ∨ Lookalike var1 var2 := by
  rcases eq_or_ne var1 var2 with rfl | hne
  · exact Or.inl rfl
  rcases var1.base_or_local_or_nonlocal with ⟨id, argId, isGrad, rfl⟩ | ⟨origin1, hlocal1⟩ |
    hnonlocal1
  · rw [aliasAnalysis_base hne] at h
    exact absurd (Option.some.inj h) (aliasBase_ne_same _ _ _)
  all_goals rcases var2.base_or_local_or_nonlocal with ⟨id, argId, isGrad, rfl⟩ |
    ⟨origin2, hlocal2⟩ | hnonlocal2
  · rw [← aliasAnalysis_comm, aliasAnalysis_base hne.symm] at h
    exact absurd (Option.some.inj h) (aliasBase_ne_same _ _ _)
  · exact Or.inl (cells_eq_of_local_same htyped1 htyped2 hlocal1 hlocal2 hne
      (horigin origin1 origin2 hlocal1 hlocal2) h)
  · rw [aliasAnalysis_mixed hlocal1 hnonlocal2] at h
    cases h
  · rw [← aliasAnalysis_comm, aliasAnalysis_base hne.symm] at h
    exact absurd (Option.some.inj h) (aliasBase_ne_same _ _ _)
  · rw [← aliasAnalysis_comm, aliasAnalysis_mixed hlocal2 hnonlocal1] at h
    cases h
  · rw [aliasAnalysis_nonlocal hne hnonlocal1 hnonlocal2] at h
    exact aliasNonlocal_same htyped1 htyped2 h

theorem cells_eq_or_lookalike (htyped1 : K.WellTyped var1) (htyped2 : K.WellTyped var2)
    (h : aliasAnalysis var1 var2 = some .same) :
    r.cells K var1 = r.cells K var2 ∨ Lookalike var1 var2 := by
  induction var1 generalizing var2 with
  | matrixPtr id origin offset ih =>
    apply cells_eq_or_lookalike_step htyped1 htyped2 ?_ h
    intro origin1 origin2 hlocal1 hlocal2 hsame
    rcases Ptr.eq_of_retrieveLocal hlocal1 with ⟨_, hvar, _⟩ | ⟨_, _, hvar, hindex1⟩
    · cases hvar
    obtain ⟨rfl, rfl, rfl⟩ := Ptr.matrixPtr.inj hvar
    have horigin1 := htyped1.indexOrigin hindex1
    rcases Ptr.eq_of_retrieveLocal hlocal2 with ⟨id2, rfl, rfl⟩ | ⟨id2, offset2, rfl, hindex2⟩
    · have halloca : K.WellTyped (.alloca id2) := trivial
      exact (ih htyped1.1 halloca hsame).resolve_right horigin1.not_lookalike
    · exact (ih htyped1.1 htyped2.1 hsame).resolve_right horigin1.not_lookalike
  | _ =>
    apply cells_eq_or_lookalike_step htyped1 htyped2 ?_ h
    intro _ _ _ _ hsame
    cases hsame

theorem not_overlap_of_certain (htyped1 : offset1.WellTyped) (htyped2 : offset2.WellTyped)
    (horigin : r.cells K origin1 = r.cells K origin2)
    (hcertain : (valueDiffPtrIndex offset1 offset2).isDiffCertain = true)
    (hnonzero : (valueDiffPtrIndex offset1 offset2).diffRange ≠ 0) :
    ¬Overlap K r (.matrixPtr id1 origin1 offset1) (.matrixPtr id2 origin2 offset2) := by
  intro hoverlap
  obtain ⟨_, hpath⟩ := region_eq_of_cells_eq horigin
  have hpaths := hoverlap.path_eq (by simp only [Run.path, List.length_append, hpath]; rfl)
  rw [Run.path, Run.path, hpath, List.append_right_inj, List.singleton_inj] at hpaths
  exact hnonzero ((r.value_eq_iff_of_certain htyped1 htyped2 hcertain).mp hpaths)

theorem SameTensor.aliasAnalysis_eq_same (horigin1 : IndexOrigin K origin1)
    (h : SameTensor origin1 origin2) : aliasAnalysis origin1 origin2 = some .same := by
  rcases eq_or_ne origin1 origin2 with rfl | hne
  · rw [aliasAnalysis_eq, aliasStep, if_pos rfl]
  cases h with
  | refl => exact absurd rfl hne
  | globalTemporary id1 id2 offset =>
    rw [aliasAnalysis_nonlocal hne ⟨rfl, rfl⟩ ⟨rfl, rfl⟩]
    simp [aliasNonlocal, ifEither, Ptr.isAdStackAlloca, Ptr.asGlobalTemporary]
  | externalPtr id1 id2 base1 base2 indices1 indices2 isGrad harg hindices =>
    rw [aliasAnalysis_nonlocal hne ⟨rfl, rfl⟩ ⟨rfl, rfl⟩]
    have hlength := hindices.length_eq
    simp [aliasNonlocal, ifEither, Ptr.isAdStackAlloca, Ptr.asGlobalTemporary,
      Ptr.asThreadLocalPtr, Ptr.asBlockLocalPtr, Ptr.asExternalPtr, aliasExternal, harg, hlength,
      (aliasExternalIndices_same hlength).mpr ⟨rfl, hindices⟩]
  | matrixPtr id1 id2 origin offset1 offset2 hoffset =>
    cases horigin1 with
    | matrixPtr _ id _ =>
      rw [aliasAnalysis_local hne rfl rfl, aliasLocal_same (Or.inl rfl)]
      obtain ⟨hcertain, hzero⟩ := (certainlyEqual_iff _ _).mp hoffset
      rw [if_pos hcertain, if_pos hzero]

theorem IndexOrigin.eq_alloca_or_matrixPtr (h : IndexOrigin K origin1)
    (hroot : origin1.root = .alloca id) :
    origin1 = .alloca id ∨ ∃ id1 offset, origin1 = .matrixPtr id1 (.alloca id) offset := by
  cases h with
  | alloca id' => exact Or.inl (by rw [Root.alloca.inj hroot])
  | matrixPtr id1 id2 offset => exact Or.inr ⟨id1, offset, by rw [Root.alloca.inj hroot]⟩
  | _ => cases hroot

theorem splitByKind_of_alloca (htyped2 : K.WellTyped var2)
    (hlocal2 : var2.retrieveLocal = some origin2)
    (h : aliasOrigins (.alloca id) origin2 = some .different)
    (hoverlap : Overlap K r (.alloca id) var2) : SplitByKind (.alloca id) var2 := by
  have hroot := hoverlap.root_eq
  have hne : .alloca id ≠ origin2 := by
    rintro rfl
    simp [aliasOrigins] at h
  rcases Ptr.eq_of_retrieveLocal hlocal2 with ⟨id2, rfl, rfl⟩ | ⟨id2, offset2, rfl, hindex2⟩
  · rw [Root.alloca.inj hroot] at hne
    exact absurd rfl hne
  · rcases (htyped2.indexOrigin hindex2).eq_alloca_or_matrixPtr hroot.symm with
      rfl | ⟨id3, offset, rfl⟩
    · exact absurd rfl hne
    · exact .nested id id3 id2 (.alloca id) offset offset2

theorem aliasOrigins_ne_different (horigin1 : IndexOrigin K origin1)
    (horigin2 : IndexOrigin K origin2) (hcells : r.cells K origin1 = r.cells K origin2) :
    aliasOrigins origin1 origin2 ≠ some .different := by
  obtain ⟨hroot, hpath⟩ := region_eq_of_cells_eq hcells
  intro h
  unfold aliasOrigins at h
  split at h
  · cases h
  split at h
  · cases horigin1 <;> cases horigin2 <;> simp_all [Ptr.root, Run.path, Ptr.isAlloca]
  · split at h
    · rename_i offset1 offset2 h1 h2
      obtain ⟨id1, rfl⟩ := Ptr.eq_of_asGlobalTemporary h1
      obtain ⟨id2, rfl⟩ := Ptr.eq_of_asGlobalTemporary h2
      rw [Root.globalTemporary.inj hroot] at h
      simp at h
    · cases h

theorem IsNonlocal.root_ne_alloca (h : IsNonlocal var1) (id : ℕ) : var1.root ≠ .alloca id := by
  have hlocal := h.notLocal
  cases var1 with
  | matrixPtr id1 origin offset =>
    cases origin <;> simp_all [Ptr.root, Ptr.retrieveLocal, Ptr.offsetUsedAsIndex]
  | _ => simp_all [Ptr.root, Ptr.retrieveLocal]

theorem splitByKind_of_local (htyped1 : K.WellTyped var1) (htyped2 : K.WellTyped var2)
    (hlocal1 : var1.retrieveLocal = some origin1) (hlocal2 : var2.retrieveLocal = some origin2)
    (hne : var1 ≠ var2) (h : aliasAnalysis var1 var2 = some .different)
    (hoverlap : Overlap K r var1 var2) : SplitByKind var1 var2 ∨ SplitByKind var2 var1 := by
  have hcomm := h
  rw [← aliasAnalysis_comm, aliasAnalysis_local hne.symm hlocal2 hlocal1] at hcomm
  rw [aliasAnalysis_local hne hlocal1 hlocal2] at h
  rcases Ptr.eq_of_retrieveLocal hlocal1 with ⟨id1, rfl, rfl⟩ | ⟨id1, offset1, rfl, hindex1⟩
  · exact Or.inl (splitByKind_of_alloca htyped2 hlocal2 h hoverlap)
  rcases Ptr.eq_of_retrieveLocal hlocal2 with ⟨id2, rfl, rfl⟩ | ⟨id2, offset2, rfl, hindex2⟩
  · exact Or.inr (splitByKind_of_alloca htyped1 hlocal1 hcomm hoverlap.symm)
  have horigin1 := htyped1.indexOrigin hindex1
  have horigin2 := htyped2.indexOrigin hindex2
  rcases aliasLocal_matrixPtr_cases h with ⟨-, hnotSame, -⟩ | ⟨hsame, hrest⟩
  · refine Or.inl (.origins id1 id2 origin1 origin2 offset1 offset2 hindex1 hindex2 ?_)
    intro hsame
    exact hnotSame (hsame.aliasAnalysis_eq_same horigin1)
  have hcells : r.cells K origin1 = r.cells K origin2 := by
    rcases hsame with rfl | hsame
    · rfl
    · exact (cells_eq_or_lookalike htyped1.1 htyped2.1 hsame).resolve_right horigin1.not_lookalike
  rcases hrest with ⟨hcertain, hresult⟩ | hrest
  · have hnonzero : (valueDiffPtrIndex offset1 offset2).diffRange ≠ 0 := by
      intro hzero
      rw [if_pos hzero] at hresult
      cases hresult
    exact absurd hoverlap
      (not_overlap_of_certain htyped1.2.2 htyped2.2.2 hcells hcertain hnonzero)
  · exact absurd hrest (aliasOrigins_ne_different horigin1 horigin2 hcells)

theorem splitByKind_of_mixed (hlocal1 : var1.retrieveLocal = some origin1)
    (hnonlocal2 : IsNonlocal var2) (hroot : var1.root = var2.root) : SplitByKind var1 var2 := by
  rcases Ptr.eq_of_retrieveLocal hlocal1 with ⟨id, rfl, -⟩ | ⟨id, offset, rfl, hindex⟩
  · exact absurd hroot.symm (hnonlocal2.root_ne_alloca id)
  · exact .nonlocal id origin1 offset var2 hindex hnonlocal2.notLocal hnonlocal2.notBase

theorem splitByKind_of_overlap (htyped1 : K.WellTyped var1) (htyped2 : K.WellTyped var2)
    (hbounds1 : r.InBounds K var1) (hbounds2 : r.InBounds K var2)
    (h : aliasAnalysis var1 var2 = some .different) (hoverlap : Overlap K r var1 var2) :
    SplitByKind var1 var2 ∨ SplitByKind var2 var1 := by
  have hne : var1 ≠ var2 := by
    rintro rfl
    rw [aliasAnalysis_eq, aliasStep, if_pos rfl] at h
    cases h
  have hroot := hoverlap.root_eq
  rcases var1.base_or_local_or_nonlocal with ⟨id1, argId, isGrad, rfl⟩ | ⟨origin1, hlocal1⟩ |
    hnonlocal1
  · rw [aliasAnalysis_base hne] at h
    obtain ⟨id2, rfl⟩ := eq_base_of_aliasBase htyped2 (Option.some.inj h) hroot.symm
    exact Or.inl (.base id1 id2 argId argId isGrad isGrad)
  all_goals rcases var2.base_or_local_or_nonlocal with ⟨id2, argId, isGrad, rfl⟩ |
    ⟨origin2, hlocal2⟩ | hnonlocal2
  · rw [← aliasAnalysis_comm, aliasAnalysis_base hne.symm] at h
    obtain ⟨id1, rfl⟩ := eq_base_of_aliasBase htyped1 (Option.some.inj h) hroot
    exact Or.inl (.base id1 id2 argId argId isGrad isGrad)
  · exact splitByKind_of_local htyped1 htyped2 hlocal1 hlocal2 hne h hoverlap
  · exact Or.inl (splitByKind_of_mixed hlocal1 hnonlocal2 hroot)
  · rw [← aliasAnalysis_comm, aliasAnalysis_base hne.symm] at h
    obtain ⟨id1, rfl⟩ := eq_base_of_aliasBase htyped1 (Option.some.inj h) hroot
    exact Or.inl (.base id1 id2 argId argId isGrad isGrad)
  · exact Or.inr (splitByKind_of_mixed hlocal2 hnonlocal1 hroot.symm)
  · rw [aliasAnalysis_nonlocal hne hnonlocal1 hnonlocal2] at h
    exact splitByKind_of_aliasNonlocal htyped1 htyped2 hbounds1 hbounds2 hnonlocal1 hnonlocal2 h
      hoverlap

theorem exists_aliasOrigins_alloca (id : ℕ) (origin2 : Ptr) :
    ∃ result, aliasOrigins (.alloca id) origin2 = some result ∧ result ≠ .same := by
  unfold aliasOrigins
  split
  · exact ⟨.uncertain, rfl, nofun⟩
  · exact ⟨.different, rfl, nofun⟩

theorem exists_aliasAnalysis_origins (horigin1 : IndexOrigin K origin1)
    (horigin2 : IndexOrigin K origin2) (hne : origin1 ≠ origin2) :
    ∃ result, aliasAnalysis origin1 origin2 = some result ∧
      (result = .same → SameTensor origin1 origin2) := by
  cases horigin1 with
  | alloca id1 =>
    cases horigin2 with
    | alloca id2 =>
      rw [aliasAnalysis_local hne rfl rfl]
      obtain ⟨result, hresult, hnotSame⟩ := exists_aliasOrigins_alloca id1 (.alloca id2)
      exact ⟨result, hresult, fun heq => absurd heq hnotSame⟩
    | matrixPtr id2 id3 offset =>
      obtain ⟨result, hresult, hnotSame⟩ := exists_aliasOrigins_alloca id1 (.alloca id3)
      exact ⟨result, hresult, fun heq => absurd heq hnotSame⟩
    | _ => exact ⟨.different, aliasAnalysis_mixed rfl ⟨rfl, rfl⟩, nofun⟩
  | matrixPtr id1 id3 offset1 =>
    cases horigin2 with
    | alloca id2 =>
      rw [← aliasAnalysis_comm, aliasAnalysis_local hne.symm rfl rfl]
      obtain ⟨result, hresult, hnotSame⟩ := exists_aliasOrigins_alloca id2 (.alloca id3)
      exact ⟨result, hresult, fun heq => absurd heq hnotSame⟩
    | matrixPtr id2 id4 offset2 =>
      rw [aliasAnalysis_local hne rfl rfl]
      rcases eq_or_ne id3 id4 with rfl | hid
      · rw [aliasLocal_same (Or.inl rfl)]
        split
        · rename_i hcertain
          refine ⟨_, rfl, fun hsame => .matrixPtr id1 id2 (.alloca id3) offset1 offset2 ?_⟩
          refine (certainlyEqual_iff _ _).mpr ⟨hcertain, ?_⟩
          by_contra hnonzero
          rw [if_neg hnonzero] at hsame
          cases hsame
        · obtain ⟨result, hresult, hnotSame⟩ := exists_aliasOrigins_alloca id3 (.alloca id3)
          exact ⟨result, hresult, fun heq => absurd heq hnotSame⟩
      · have horigins : Ptr.alloca id3 ≠ .alloca id4 := fun heq => hid (Ptr.alloca.inj heq)
        have halias : aliasAnalysis (.alloca id3) (.alloca id4) = some .different := by
          rw [aliasAnalysis_local horigins rfl rfl, aliasLocal_alloca, aliasOrigins,
            if_neg horigins]
          rfl
        rw [Ptr.originAlias, halias,
          aliasLocal_not_same horigins (show AliasResult.different ≠ .same from nofun)]
        exact ⟨.different, rfl, nofun⟩
    | _ => exact ⟨.different, aliasAnalysis_mixed rfl ⟨rfl, rfl⟩, nofun⟩
  | globalTemporary id1 offset1 =>
    cases horigin2 with
    | globalTemporary id2 offset2 =>
      rw [aliasAnalysis_nonlocal hne ⟨rfl, rfl⟩ ⟨rfl, rfl⟩]
      refine ⟨_, rfl, fun hsame => ?_⟩
      obtain rfl : offset1 = offset2 := by
        by_contra hoffset
        rw [if_neg hoffset] at hsame
        cases hsame
      exact .globalTemporary id1 id2 offset1
    | externalPtr =>
      exact ⟨.different, rfl, nofun⟩
    | _ =>
      rw [← aliasAnalysis_comm]
      exact ⟨.different, aliasAnalysis_mixed rfl ⟨rfl, rfl⟩, nofun⟩
  | externalPtr id1 base1 indices1 isGrad1 hlength1 =>
    cases horigin2 with
    | globalTemporary id2 offset2 =>
      exact ⟨.different, rfl, nofun⟩
    | externalPtr id2 base2 indices2 isGrad2 hlength2 =>
      rw [aliasAnalysis_nonlocal hne ⟨rfl, rfl⟩ ⟨rfl, rfl⟩]
      change ∃ result, aliasExternal (base1, indices1, isGrad1) (base2, indices2, isGrad2) =
        some result ∧ _
      unfold aliasExternal
      split
      · exact ⟨.different, rfl, nofun⟩
      · rename_i hsame
        obtain ⟨harg, hgrad⟩ := not_or.mp hsame
        obtain rfl : isGrad1 = isGrad2 := not_not.mp hgrad
        have hlength : indices1.length = indices2.length := by
          rw [hlength1, hlength2, not_not.mp harg]
        rw [if_pos hlength]
        refine ⟨_, rfl, fun hresult => ?_⟩
        exact .externalPtr id1 id2 base1 base2 indices1 indices2 isGrad1 (not_not.mp harg)
          ((aliasExternalIndices_same hlength).mp hresult).2
    | _ =>
      rw [← aliasAnalysis_comm]
      exact ⟨.different, aliasAnalysis_mixed rfl ⟨rfl, rfl⟩, nofun⟩

theorem aliasAnalysis_of_splitByKind (htyped1 : K.WellTyped var1) (htyped2 : K.WellTyped var2)
    (hne : var1 ≠ var2) (h : SplitByKind var1 var2) :
    aliasAnalysis var1 var2 = some .different := by
  cases h with
  | base id1 id2 argId1 argId2 isGrad1 isGrad2 =>
    rw [aliasAnalysis_base hne]
    rfl
  | nonlocal id origin offset _ hindex hlocal hbase =>
    exact aliasAnalysis_mixed (Ptr.retrieveLocal_matrixPtr hindex) ⟨hlocal, hbase⟩
  | nested id id2 id3 origin offset2 offset3 =>
    rfl
  | origins id1 id2 origin1 origin2 offset1 offset2 hindex1 hindex2 hnotSame =>
    rw [aliasAnalysis_local hne (Ptr.retrieveLocal_matrixPtr hindex1)
      (Ptr.retrieveLocal_matrixPtr hindex2)]
    have horigins : origin1 ≠ origin2 := by
      rintro rfl
      exact hnotSame (.refl _)
    obtain ⟨result, hresult, hsame⟩ := exists_aliasAnalysis_origins
      (htyped1.indexOrigin hindex1) (htyped2.indexOrigin hindex2) horigins
    rw [Ptr.originAlias, hresult]
    exact aliasLocal_not_same horigins fun heq => hnotSame (hsame heq)
  | adStack id _ hlocal hbase =>
    rw [aliasAnalysis_nonlocal hne ⟨rfl, rfl⟩ ⟨hlocal, hbase⟩]
    rfl
  | threadLocal id offset _ hlocal hbase hother =>
    rw [aliasAnalysis_nonlocal hne ⟨rfl, rfl⟩ ⟨hlocal, hbase⟩]
    unfold aliasNonlocal
    split
    · rfl
    · cases htemporary : var2.asGlobalTemporary with
      | some offset2 => rfl
      | none =>
        rw [hother]
        rfl

theorem aliasAnalysis_of_lookalike (h : Lookalike var1 var2) :
    aliasAnalysis var1 var2 = some .same := by
  rcases eq_or_ne var1 var2 with rfl | hne
  · rw [aliasAnalysis_eq, aliasStep, if_pos rfl]
  cases h with
  | offsets id1 id2 idA idB dt kind operands =>
    rw [aliasAnalysis_nonlocal hne ⟨rfl, rfl⟩ ⟨rfl, rfl⟩]
    simp [aliasNonlocal, ifEither, Ptr.isAdStackAlloca, Ptr.asGlobalTemporary,
      Ptr.asThreadLocalPtr, Ptr.asBlockLocalPtr, sameStatements]

end Local

/-- The analysis is sound for a pair of pointers exactly if they are not of two kinds that it
tells apart without a look at the object they point into, unless they never meet, and they are
not block-local pointers with lookalike offsets, unless these always agree. -/
theorem aliasAnalysis_sound_iff (K : Kernel) (var1 var2 : Ptr) (htyped1 : K.WellTyped var1)
    (htyped2 : K.WellTyped var2) : Sound K var1 var2 ↔
      (var1 ≠ var2 → SplitByKind var1 var2 ∨ SplitByKind var2 var1 →
        ∀ r : Run, r.Reaches K var1 → r.Reaches K var2 →
          Disjoint (r.cells K var1) (r.cells K var2)) ∧
      (Lookalike var1 var2 → ∀ r : Run, r.Reaches K var1 → r.Reaches K var2 →
        r.cells K var1 = r.cells K var2) := by
  constructor
  · intro hsound
    refine ⟨fun hne hsplit => hsound.different ?_, fun hlook => hsound.same ?_⟩
    · rcases hsplit with hsplit | hsplit
      · exact aliasAnalysis_of_splitByKind htyped1 htyped2 hne hsplit
      · rw [← aliasAnalysis_comm]
        exact aliasAnalysis_of_splitByKind htyped2 htyped1 hne.symm hsplit
    · exact aliasAnalysis_of_lookalike hlook
  · rintro ⟨hsplit, hlook⟩
    refine ⟨fun hsame r hreach1 hreach2 => ?_, fun hdifferent r hreach1 hreach2 => ?_,
      aliasAnalysis_comm var1 var2⟩
    · rcases cells_eq_or_lookalike htyped1 htyped2 hsame with hcells | hkind
      · exact hcells
      · exact hlook hkind r hreach1 hreach2
    · by_contra hoverlap
      have hne : var1 ≠ var2 := by
        rintro rfl
        rw [aliasAnalysis_eq, aliasStep, if_pos rfl] at hdifferent
        cases hdifferent
      have hkind := splitByKind_of_overlap htyped1 htyped2 hreach1.2.2 hreach2.2.2 hdifferent
        hoverlap
      exact hoverlap (hsplit hne hkind r hreach1 hreach2)

def loadedIndex (id : ℕ) : Val := .other id .i32 0 [id] false

def elementPtr (id : ℕ) (index : Val) : Ptr := .externalPtr id ⟨0, [0]⟩ [index] false

def componentPtr (id : ℕ) (index : Val) : Ptr :=
  .matrixPtr (id + 1) (elementPtr id index) (.const (id + 2) .i32 0)

def gatherRun : Run where
  toValuation := Valuation.ofInput (fun _ _ => 0) fun _ => 3
  executed _ := True
  arrayShape _ := [8]
  lookup _ := []
  top _ := 0

def gatherKernel : Kernel where
  elementShape _ := [2]
  ndim _ := 1
  snodeShape _ := []
  extent _ := 2
  runs r := r = gatherRun

theorem reaches_componentPtr (id k : ℕ) :
    gatherRun.Reaches gatherKernel (componentPtr id (loadedIndex k)) := by
  refine ⟨rfl, trivial, ⟨?_, by simp [gatherKernel]⟩, ?_⟩
  · exact .cons (show (0 : ℤ) ≤ 3 ∧ (3 : ℤ) < 8 by decide) .nil
  · exact show (0 : ℤ) ≤ 0 ∧ (0 : ℤ) < 2 by decide

theorem wellTyped_componentPtr (id k : ℕ) :
    gatherKernel.WellTyped (componentPtr id (loadedIndex k)) := by
  simp [Kernel.WellTyped, componentPtr, elementPtr, loadedIndex, Kernel.TensorOrigin,
    Val.WellTyped, gatherKernel, DataType.wrap, DataType.i32]

/-- `a[i][0]` and `a[j][0]` are said to be different, although `i` and `j` are equal. -/
theorem gather_not_sound : gatherKernel.WellTyped (componentPtr 10 (loadedIndex 1)) ∧
      gatherKernel.WellTyped (componentPtr 20 (loadedIndex 2)) ∧
      aliasAnalysis (componentPtr 10 (loadedIndex 1)) (componentPtr 20 (loadedIndex 2)) =
        some .different ∧
      ¬Sound gatherKernel (componentPtr 10 (loadedIndex 1)) (componentPtr 20 (loadedIndex 2)) := by
  have hdifferent : aliasAnalysis (componentPtr 10 (loadedIndex 1))
      (componentPtr 20 (loadedIndex 2)) = some .different := by decide
  refine ⟨wellTyped_componentPtr 10 1, wellTyped_componentPtr 20 2, hdifferent, ?_⟩
  intro hsound
  have hdisjoint := hsound.different hdifferent gatherRun (reaches_componentPtr 10 1)
    (reaches_componentPtr 20 2)
  apply (Region.not_disjoint_iff _ _).mpr ?_ hdisjoint
  exact ⟨rfl, Or.inl (by decide)⟩

def shiftedPtr (id : ℕ) (shift : ℤ) : Ptr :=
  elementPtr id (.binary (id + 1) .i32 .add (loadedIndex 1) (.const (id + 2) .i32 shift))

/-- `a[i + 1]` and `a[i + 2]` are told apart, and rightly so. -/
theorem shifted_sound : aliasAnalysis (shiftedPtr 10 1) (shiftedPtr 20 2) = some .different ∧
      Sound gatherKernel (shiftedPtr 10 1) (shiftedPtr 20 2) := by
  refine ⟨by decide, (aliasAnalysis_sound_iff _ _ _ ?_ ?_).mpr ⟨?_, ?_⟩⟩
  · simp [Kernel.WellTyped, shiftedPtr, elementPtr, loadedIndex, Val.WellTyped, Val.retType,
      gatherKernel, DataType.wrap, DataType.i32]
  · simp [Kernel.WellTyped, shiftedPtr, elementPtr, loadedIndex, Val.WellTyped, Val.retType,
      gatherKernel, DataType.wrap, DataType.i32]
  · rintro - (hsplit | hsplit) <;> cases hsplit
  · rintro ⟨⟩

end Quadrants.Analysis
