import Quadrants.Analysis.AliasAnalysis
import Quadrants.Library.PathRegion

namespace Quadrants.Analysis

open Quadrants.Library.PathRegion

/-- The objects a kernel's pointers point into. Global temporaries and thread-local buffers
are laid out without overlap, so an offset stands for the object at it. -/
inductive Root where
  | alloca (id : ℕ)
  | adStack (id : ℕ)
  | globalTemporary (offset : ℕ)
  | threadLocal (offset : ℕ)
  | blockLocal
  | external (argId : List ℕ) (isGrad : Bool)
  | snode (id : ℕ)
  deriving DecidableEq, Repr

namespace Ptr

@[simp] def root : Ptr → Root
  | alloca id => .alloca id
  | adStackAlloca id => .adStack id
  | globalTemporary _ offset => .globalTemporary offset
  | threadLocalPtr _ offset => .threadLocal offset
  | blockLocalPtr _ _ => .blockLocal
  | externalTensorBasePtr _ argId isGrad => .external argId isGrad
  | externalPtr _ basePtr _ isGrad => .external basePtr.argId isGrad
  | globalPtr _ snode _ => .snode snode
  | getCh _ outputSnode => .snode outputSnode
  | adStackLoadTop _ stack => .adStack stack
  | matrixPtr _ origin _ => origin.root

end Ptr

/-- One execution: the values the statements hold, the pointer statements it executes, the
shapes of the arrays passed to the kernel, the cell each `GetChStmt` was looked up at and the
position of the stack top each `AdStackLoadTopStmt` saw. -/
structure Run extends Valuation where
  executed : Ptr → Prop
  arrayShape : List ℕ → List ℕ
  lookup : ℕ → List ℤ
  top : ℕ → ℤ

structure Kernel where
  elementShape : List ℕ → List ℕ
  ndim : List ℕ → ℕ
  snodeShape : ℕ → List ℕ
  /-- The number of offsets a matrix pointer into this tensor can take. -/
  extent : Ptr → ℕ
  runs : Run → Prop

namespace Kernel

variable (K : Kernel)

/-- A matrix pointer selects an element of a tensor: elements of arrays, temporaries and fields
are tensors of scalars, only a shared array may hold tensors itself. -/
def TensorOrigin : Ptr → Prop
  | .alloca _ | .globalTemporary _ _ | .threadLocalPtr _ _ | .globalPtr _ _ _ | .getCh _ _
  | .adStackLoadTop _ _ | .matrixPtr _ (.alloca _) _ => True
  | .externalPtr _ basePtr indices _ =>
    indices.length = K.ndim basePtr.argId ∧ K.elementShape basePtr.argId ≠ []
  | _ => False

def WellTyped : Ptr → Prop
  | .alloca _ | .adStackAlloca _ | .globalTemporary _ _ | .threadLocalPtr _ _
  | .externalTensorBasePtr _ _ _ | .getCh _ _ | .adStackLoadTop _ _ => True
  | .blockLocalPtr _ offset => offset.WellTyped
  | .externalPtr _ basePtr indices _ =>
    (∀ index ∈ indices, index.WellTyped) ∧
      (indices.length = K.ndim basePtr.argId ∨
        indices.length = K.ndim basePtr.argId + (K.elementShape basePtr.argId).length)
  | .globalPtr _ snode indices =>
    (∀ index ∈ indices, index.WellTyped) ∧ indices.length = (K.snodeShape snode).length
  | .matrixPtr _ origin offset => WellTyped origin ∧ K.TensorOrigin origin ∧ offset.WellTyped

end Kernel

namespace Run

variable (K : Kernel) (r : Run)

/-- The way down from the root. The inner indices of an external pointer are linearised, so
that they agree with the offset of a matrix pointer into the same element. -/
def path : Ptr → List ℤ
  | .alloca _ | .adStackAlloca _ | .globalTemporary _ _ | .threadLocalPtr _ _
  | .externalTensorBasePtr _ _ _ => []
  | .blockLocalPtr _ offset => [r.value offset]
  | .externalPtr _ basePtr indices _ =>
    let inner := indices.drop (K.ndim basePtr.argId)
    (indices.take (K.ndim basePtr.argId)).map r.value ++
      if inner = [] then []
      else [linearize 0 (K.elementShape basePtr.argId) (inner.map r.value)]
  | .globalPtr _ _ indices => indices.map r.value
  | .getCh id _ => r.lookup id
  | .adStackLoadTop id _ => [r.top id]
  | .matrixPtr _ origin offset => path origin ++ [r.value offset]

def region (var : Ptr) : Region Root ℤ := ⟨var.root, r.path K var⟩

def cells (var : Ptr) : Set (Root × List ℤ) := (r.region K var).cells

def InBounds : Ptr → Prop
  | .externalPtr _ basePtr indices _ =>
    Within ((indices.take (K.ndim basePtr.argId)).map r.value) (r.arrayShape basePtr.argId) ∧
      (indices.drop (K.ndim basePtr.argId) ≠ [] →
        Within ((indices.drop (K.ndim basePtr.argId)).map r.value)
          (K.elementShape basePtr.argId))
  | .globalPtr _ snode indices => Within (indices.map r.value) (K.snodeShape snode)
  | .getCh id outputSnode => Within (r.lookup id) (K.snodeShape outputSnode)
  | .matrixPtr _ origin offset =>
    InBounds origin ∧ 0 ≤ r.value offset ∧ r.value offset < K.extent origin
  | _ => True

/-- A run of the kernel that executes the pointer, with in-bounds indices. -/
def Reaches (var : Ptr) : Prop := K.runs r ∧ r.executed var ∧ r.InBounds K var

end Run

structure Sound (K : Kernel) (var1 var2 : Ptr) : Prop where
  same : aliasAnalysis var1 var2 = some .same →
    ∀ r : Run, r.Reaches K var1 → r.Reaches K var2 → r.cells K var1 = r.cells K var2
  different : aliasAnalysis var1 var2 = some .different →
    ∀ r : Run, r.Reaches K var1 → r.Reaches K var2 → Disjoint (r.cells K var1) (r.cells K var2)
  symm : aliasAnalysis var2 var1 = aliasAnalysis var1 var2

def CertainlyEqual (val1 val2 : Val) : Prop := valueDiffPtrIndex val1 val2 = .makeCertain 0

/-- Two statements for one tensor: they have the same root and pairwise equal indices. -/
inductive SameTensor : Ptr → Ptr → Prop where
  | refl (var : Ptr) : SameTensor var var
  | globalTemporary (id1 id2 offset : ℕ) :
      SameTensor (.globalTemporary id1 offset) (.globalTemporary id2 offset)
  | externalPtr (id1 id2 : ℕ) (base1 base2 : ArgLoad) (indices1 indices2 : List Val)
      (isGrad : Bool) : base1.argId = base2.argId →
      List.Forall₂ CertainlyEqual indices1 indices2 →
      SameTensor (.externalPtr id1 base1 indices1 isGrad) (.externalPtr id2 base2 indices2 isGrad)
  | matrixPtr (id1 id2 : ℕ) (origin : Ptr) (offset1 offset2 : Val) :
      CertainlyEqual offset1 offset2 →
      SameTensor (.matrixPtr id1 origin offset1) (.matrixPtr id2 origin offset2)

/-- The pairs that the analysis tells apart by their kinds alone, although pointers of these
kinds can point into one object. -/
inductive SplitByKind : Ptr → Ptr → Prop where
  | base (id1 id2 : ℕ) (argId1 argId2 : List ℕ) (isGrad1 isGrad2 : Bool) :
      SplitByKind (.externalTensorBasePtr id1 argId1 isGrad1)
        (.externalTensorBasePtr id2 argId2 isGrad2)
  | nonlocal (id : ℕ) (origin : Ptr) (offset : Val) (var2 : Ptr) :
      (Ptr.matrixPtr id origin offset).offsetUsedAsIndex = true → var2.retrieveLocal = none →
      var2.asExternalTensorBasePtr = none → SplitByKind (.matrixPtr id origin offset) var2
  | nested (id id2 id3 : ℕ) (origin : Ptr) (offset2 offset3 : Val) :
      SplitByKind (.alloca id) (.matrixPtr id3 (.matrixPtr id2 origin offset2) offset3)
  | origins (id1 id2 : ℕ) (origin1 origin2 : Ptr) (offset1 offset2 : Val) :
      (Ptr.matrixPtr id1 origin1 offset1).offsetUsedAsIndex = true →
      (Ptr.matrixPtr id2 origin2 offset2).offsetUsedAsIndex = true →
      ¬SameTensor origin1 origin2 →
      SplitByKind (.matrixPtr id1 origin1 offset1) (.matrixPtr id2 origin2 offset2)
  | adStack (id : ℕ) (var2 : Ptr) : var2.retrieveLocal = none →
      var2.asExternalTensorBasePtr = none → SplitByKind (.adStackAlloca id) var2
  | threadLocal (id offset : ℕ) (var2 : Ptr) : var2.retrieveLocal = none →
      var2.asExternalTensorBasePtr = none → var2.asThreadLocalPtr = none →
      SplitByKind (.threadLocalPtr id offset) var2

/-- Two block-local pointers whose offsets look the same but are statements of a class whose
identical statements can hold different values. -/
inductive Lookalike : Ptr → Ptr → Prop where
  | offsets (id1 id2 idA idB : ℕ) (dt : DataType) (kind : ℕ) (operands : List ℕ) :
      Lookalike (.blockLocalPtr id1 (.other idA dt kind operands false))
        (.blockLocalPtr id2 (.other idB dt kind operands false))

namespace Valuation

variable (σ : Valuation)

theorem value_eq_of_certainlyEqual {val1 val2 : Val} (htyped1 : val1.WellTyped)
    (htyped2 : val2.WellTyped) (h : CertainlyEqual val1 val2) : σ.value val1 = σ.value val2 := by
  apply (σ.value_eq_iff_of_certain htyped1 htyped2 ?_).mpr <;> rw [h] <;> rfl

theorem map_value_eq {indices1 indices2 : List Val} (htyped1 : ∀ index ∈ indices1, index.WellTyped)
    (htyped2 : ∀ index ∈ indices2, index.WellTyped)
    (h : List.Forall₂ CertainlyEqual indices1 indices2) :
    indices1.map σ.value = indices2.map σ.value := by
  induction h with
  | nil => rfl
  | cons hindex hrest ih =>
    rw [List.forall_mem_cons] at htyped1 htyped2
    rw [List.map_cons, List.map_cons, ih htyped1.2 htyped2.2,
      σ.value_eq_of_certainlyEqual htyped1.1 htyped2.1 hindex]

end Valuation

theorem certainlyEqual_iff (val1 val2 : Val) : CertainlyEqual val1 val2 ↔
    (valueDiffPtrIndex val1 val2).isDiffCertain = true ∧
      (valueDiffPtrIndex val1 val2).diffRange = 0 := by
  constructor
  · intro h
    rw [h]
    exact ⟨rfl, rfl⟩
  · rintro ⟨hcertain, hzero⟩
    unfold CertainlyEqual DiffPtrResult.makeCertain
    rw [← hcertain, ← hzero]

variable {indices1 indices2 : List Val} {uncertain : Bool}

theorem aliasExternalIndices_same (hlength : indices1.length = indices2.length) :
    aliasExternalIndices uncertain indices1 indices2 = .same ↔
      uncertain = false ∧ List.Forall₂ CertainlyEqual indices1 indices2 := by
  induction indices1 generalizing uncertain indices2 with
  | nil =>
    obtain rfl := List.length_eq_zero_iff.mp hlength.symm
    cases uncertain <;> simp [aliasExternalIndices]
  | cons index1 indices1 ih =>
    cases indices2 with
    | nil => exact absurd hlength (by simp)
    | cons index2 indices2 =>
      have hrest : indices1.length = indices2.length := by simpa using hlength
      rw [List.forall₂_cons, certainlyEqual_iff]
      simp only [aliasExternalIndices]
      split
      · rename_i huncertain
        rw [ih hrest]
        rw [Bool.not_eq_true'] at huncertain
        simp [huncertain]
      · rename_i hcertain
        split
        · rename_i hnonzero
          simp [hnonzero]
        · rename_i hzero
          rw [ih hrest]
          simp only [Bool.not_eq_true, Bool.not_eq_false'] at hcertain
          simp [hcertain, not_not.mp hzero]

theorem aliasExternalIndices_different (σ : Valuation)
    (htyped1 : ∀ index ∈ indices1, index.WellTyped) (htyped2 : ∀ index ∈ indices2, index.WellTyped)
    (h : aliasExternalIndices uncertain indices1 indices2 = .different) :
    indices1.map σ.value ≠ indices2.map σ.value := by
  induction indices1 generalizing uncertain indices2 with
  | nil => cases uncertain <;> cases indices2 <;> cases h
  | cons index1 indices1 ih =>
    cases indices2 with
    | nil => cases uncertain <;> cases h
    | cons index2 indices2 =>
      rw [List.forall_mem_cons] at htyped1 htyped2
      intro heq
      rw [List.map_cons, List.map_cons, List.cons.injEq] at heq
      simp only [aliasExternalIndices] at h
      split at h
      · exact ih htyped1.2 htyped2.2 h heq.2
      · rename_i hcertain
        simp only [Bool.not_eq_true, Bool.not_eq_false'] at hcertain
        split at h
        · rename_i hnonzero
          exact hnonzero ((σ.value_eq_iff_of_certain htyped1.1 htyped2.1 hcertain).mp heq.1)
        · exact ih htyped1.2 htyped2.2 h heq.2

theorem aliasGlobalIndices_same (hlength : indices1.length = indices2.length)
    (h : aliasGlobalIndices uncertain indices1 indices2 = .same) :
    uncertain = false ∧ List.Forall₂ CertainlyEqual indices1 indices2 := by
  induction indices1 generalizing uncertain indices2 with
  | nil =>
    obtain rfl := List.length_eq_zero_iff.mp hlength.symm
    cases uncertain with
    | false => exact ⟨rfl, .nil⟩
    | true => cases h
  | cons index1 indices1 ih =>
    cases indices2 with
    | nil => exact absurd hlength (by simp)
    | cons index2 indices2 =>
      have hrest : indices1.length = indices2.length := by simpa using hlength
      simp only [aliasGlobalIndices] at h
      split at h
      · cases h
      · obtain ⟨hflags, hforall⟩ := ih hrest h
        simp only [Bool.or_eq_false_iff, Bool.not_eq_false', decide_eq_false_iff_not,
          not_not] at hflags
        exact ⟨hflags.1, .cons ((certainlyEqual_iff _ _).mpr hflags.2) hforall⟩

theorem aliasGlobalIndices_different (σ : Valuation) (htyped1 : ∀ index ∈ indices1, index.WellTyped)
    (htyped2 : ∀ index ∈ indices2, index.WellTyped)
    (h : aliasGlobalIndices uncertain indices1 indices2 = .different) :
    indices1.map σ.value ≠ indices2.map σ.value := by
  induction indices1 generalizing uncertain indices2 with
  | nil => cases uncertain <;> cases indices2 <;> cases h
  | cons index1 indices1 ih =>
    cases indices2 with
    | nil => cases uncertain <;> cases h
    | cons index2 indices2 =>
      rw [List.forall_mem_cons] at htyped1 htyped2
      intro heq
      rw [List.map_cons, List.map_cons, List.cons.injEq] at heq
      simp only [aliasGlobalIndices] at h
      split at h
      · rename_i hnonzero
        have hcertain : (valueDiffPtrIndex index1 index2).isDiffCertain = true := by
          by_contra huncertain
          rw [diffRange_of_uncertain (Bool.eq_false_iff.mpr huncertain)] at hnonzero
          exact absurd hnonzero (by decide)
        rw [(σ.value_eq_iff_of_certain htyped1.1 htyped2.1 hcertain).mp heq.1] at hnonzero
        exact absurd hnonzero (by decide)
      · exact ih htyped1.2 htyped2.2 h heq.2

end Quadrants.Analysis

namespace Quadrants.Analysis

open Quadrants.Library.PathRegion

section Casts

variable {K : Kernel} {var : Ptr}

variable {offset : ℕ}

theorem Ptr.eq_of_asGlobalTemporary (h : var.asGlobalTemporary = some offset) :
    ∃ id, var = .globalTemporary id offset := by
  cases var <;> simp_all [Ptr.asGlobalTemporary]

theorem Ptr.eq_of_asThreadLocalPtr (h : var.asThreadLocalPtr = some offset) :
    ∃ id, var = .threadLocalPtr id offset := by
  cases var <;> simp_all [Ptr.asThreadLocalPtr]

theorem Ptr.eq_of_asBlockLocalPtr {offset : Val} (h : var.asBlockLocalPtr = some offset) :
    ∃ id, var = .blockLocalPtr id offset := by
  cases var <;> simp_all [Ptr.asBlockLocalPtr]

theorem Ptr.eq_of_asExternalPtr {ptr : ArgLoad × List Val × Bool}
    (h : var.asExternalPtr = some ptr) : ∃ id, var = .externalPtr id ptr.1 ptr.2.1 ptr.2.2 := by
  cases var <;> simp_all [Ptr.asExternalPtr]
  rw [← h]
  exact ⟨rfl, rfl, rfl⟩

variable {snode : ℕ}

theorem Ptr.eq_of_asGlobalPtr {indices : List Val} (hsnode : var.getSNodeId = some snode)
    (h : var.asGlobalPtr = some indices) : ∃ id, var = .globalPtr id snode indices := by
  cases var <;> simp_all [Ptr.asGlobalPtr, Ptr.getSNodeId]

theorem Ptr.root_of_getSNodeId (h : var.getSNodeId = some snode) : var.root = .snode snode := by
  cases var <;> simp_all [Ptr.getSNodeId, Ptr.root]

theorem Ptr.asGlobalTemporary_of_root (hlocal : var.retrieveLocal = none)
    (hroot : var.root = .globalTemporary offset) : var.asGlobalTemporary = some offset := by
  cases var with
  | matrixPtr id origin off =>
    cases origin <;> simp_all [Ptr.root, Ptr.retrieveLocal, Ptr.offsetUsedAsIndex]
  | _ => simp_all [Ptr.root, Ptr.asGlobalTemporary]

theorem Kernel.WellTyped.asBlockLocalPtr_of_root (htyped : K.WellTyped var)
    (hlocal : var.retrieveLocal = none) (hroot : var.root = .blockLocal) :
    var.asBlockLocalPtr ≠ none := by
  cases var with
  | matrixPtr id origin off =>
    cases origin <;> simp_all [Ptr.root, Ptr.retrieveLocal, Ptr.offsetUsedAsIndex,
      Kernel.WellTyped, Kernel.TensorOrigin]
  | _ => simp_all [Ptr.root, Ptr.asBlockLocalPtr]

theorem Kernel.WellTyped.asExternalPtr_of_root {argId : List ℕ} {isGrad : Bool}
    (htyped : K.WellTyped var) (hlocal : var.retrieveLocal = none)
    (hbase : var.asExternalTensorBasePtr = none) (hroot : var.root = .external argId isGrad) :
    var.asExternalPtr ≠ none := by
  cases var with
  | matrixPtr id origin off =>
    cases origin <;> simp_all [Ptr.root, Ptr.retrieveLocal, Ptr.offsetUsedAsIndex,
      Kernel.WellTyped, Kernel.TensorOrigin]
  | _ => simp_all [Ptr.root, Ptr.asExternalPtr, Ptr.asExternalTensorBasePtr]

end Casts

theorem ifEither_cases {α : Type} {cast1 cast2 : Option α} {both : α → α → Option AliasResult}
    {neither result : Option AliasResult} (h : ifEither cast1 cast2 both neither = result) :
    (∃ a b, cast1 = some a ∧ cast2 = some b ∧ both a b = result) ∨
    (cast1 = none ∧ cast2 = none ∧ neither = result) ∨
    (((∃ a, cast1 = some a ∧ cast2 = none) ∨ ∃ b, cast1 = none ∧ cast2 = some b) ∧
      result = some .different) := by
  rcases cast1 with _ | a <;> rcases cast2 with _ | b
  · exact Or.inr (Or.inl ⟨rfl, rfl, h⟩)
  · exact Or.inr (Or.inr ⟨Or.inr ⟨b, rfl, rfl⟩, h.symm⟩)
  · exact Or.inr (Or.inr ⟨Or.inl ⟨a, rfl, rfl⟩, h.symm⟩)
  · exact Or.inl ⟨a, b, rfl, rfl, h⟩

section Nonlocal

variable {K : Kernel} {r : Run} {var1 var2 : Ptr}

def Overlap (K : Kernel) (r : Run) (var1 var2 : Ptr) : Prop :=
  ¬Disjoint (r.cells K var1) (r.cells K var2)

theorem Overlap.root_eq (h : Overlap K r var1 var2) : var1.root = var2.root :=
  ((Region.not_disjoint_iff _ _).mp h).1

theorem Overlap.path_eq (h : Overlap K r var1 var2)
    (hlength : (r.path K var1).length = (r.path K var2).length) : r.path K var1 = r.path K var2 :=
  Region.path_eq_of_not_disjoint h hlength

theorem Overlap.symm (h : Overlap K r var1 var2) : Overlap K r var2 var1 :=
  fun hdisjoint => h hdisjoint.symm

theorem cells_eq (hroot : var1.root = var2.root) (hpath : r.path K var1 = r.path K var2) :
    r.cells K var1 = r.cells K var2 := by
  unfold Run.cells Run.region
  rw [hroot, hpath]

variable {id1 id2 : ℕ}

variable {base1 base2 : ArgLoad} {indices1 indices2 : List Val} {isGrad1 isGrad2 : Bool}
variable {ptr1 ptr2 : ArgLoad × List Val × Bool}

theorem path_externalPtr_eq (harg : base1.argId = base2.argId)
    (h : indices1.map r.value = indices2.map r.value) :
    r.path K (.externalPtr id1 base1 indices1 isGrad1) =
      r.path K (.externalPtr id2 base2 indices2 isGrad2) := by
  have hlength : indices1.length = indices2.length := by
    simpa using congrArg List.length h
  have hinner : indices1.drop (K.ndim base2.argId) = [] ↔ indices2.drop (K.ndim base2.argId) = [] := by
    rw [List.drop_eq_nil_iff, List.drop_eq_nil_iff, hlength]
  simp [Run.path, harg, h, hinner]

theorem map_value_eq_of_overlap (harg : base1.argId = base2.argId)
    (hlength : indices1.length = indices2.length)
    (hbounds1 : r.InBounds K (.externalPtr id1 base1 indices1 isGrad1))
    (hbounds2 : r.InBounds K (.externalPtr id2 base2 indices2 isGrad2))
    (h : Overlap K r (.externalPtr id1 base1 indices1 isGrad1)
      (.externalPtr id2 base2 indices2 isGrad2)) :
    indices1.map r.value = indices2.map r.value := by
  have hinner : indices1.drop (K.ndim base2.argId) = [] ↔
      indices2.drop (K.ndim base2.argId) = [] := by
    rw [List.drop_eq_nil_iff, List.drop_eq_nil_iff, hlength]
  have hpath := h.path_eq (by
    simp only [Run.path, harg, List.length_append, List.length_map, List.length_take, hlength,
      hinner]
    split <;> rfl)
  simp only [Run.path, harg, hinner] at hpath
  obtain ⟨houter, hrest⟩ := List.append_inj hpath (by simp [hlength])
  have hdrop : (indices1.drop (K.ndim base2.argId)).map r.value =
      (indices2.drop (K.ndim base2.argId)).map r.value := by
    split at hrest
    · rename_i hnil
      rw [hnil, hinner.mpr hnil]
    · rename_i hnil
      have hwithin1 := hbounds1.2 (by rw [harg]; exact fun h => hnil (hinner.mp h))
      rw [harg] at hwithin1
      exact (linearize_inj hwithin1 (hbounds2.2 hnil) (List.singleton_inj.mp hrest)).2
  rw [← List.take_append_drop (K.ndim base2.argId) indices1,
    ← List.take_append_drop (K.ndim base2.argId) indices2, List.map_append, List.map_append,
    houter, hdrop]

theorem aliasExternal_same (htyped1 : K.WellTyped (.externalPtr id1 ptr1.1 ptr1.2.1 ptr1.2.2))
    (htyped2 : K.WellTyped (.externalPtr id2 ptr2.1 ptr2.2.1 ptr2.2.2))
    (h : aliasExternal ptr1 ptr2 = some .same) :
    r.cells K (.externalPtr id1 ptr1.1 ptr1.2.1 ptr1.2.2) =
      r.cells K (.externalPtr id2 ptr2.1 ptr2.2.1 ptr2.2.2) := by
  unfold aliasExternal at h
  split at h
  · cases h
  · rename_i hsame
    obtain ⟨harg, hgrad⟩ := not_or.mp hsame
    rw [not_not] at harg hgrad
    split at h
    · rename_i hlength
      have hforall := ((aliasExternalIndices_same hlength).mp (Option.some.inj h)).2
      apply cells_eq
      · simp [harg, hgrad]
      · exact path_externalPtr_eq harg (r.map_value_eq htyped1.1 htyped2.1 hforall)
    · cases h

theorem not_overlap_of_aliasExternal
    (htyped1 : K.WellTyped (.externalPtr id1 ptr1.1 ptr1.2.1 ptr1.2.2))
    (htyped2 : K.WellTyped (.externalPtr id2 ptr2.1 ptr2.2.1 ptr2.2.2))
    (hbounds1 : r.InBounds K (.externalPtr id1 ptr1.1 ptr1.2.1 ptr1.2.2))
    (hbounds2 : r.InBounds K (.externalPtr id2 ptr2.1 ptr2.2.1 ptr2.2.2))
    (h : aliasExternal ptr1 ptr2 = some .different) :
    ¬Overlap K r (.externalPtr id1 ptr1.1 ptr1.2.1 ptr1.2.2)
      (.externalPtr id2 ptr2.1 ptr2.2.1 ptr2.2.2) := by
  intro hoverlap
  obtain ⟨harg, hgrad⟩ : ptr1.1.argId = ptr2.1.argId ∧ ptr1.2.2 = ptr2.2.2 := by
    simpa [Ptr.root] using hoverlap.root_eq
  unfold aliasExternal at h
  rw [if_neg (by simp [harg, hgrad])] at h
  split at h
  · rename_i hlength
    exact aliasExternalIndices_different r.toValuation htyped1.1 htyped2.1 (Option.some.inj h)
      (map_value_eq_of_overlap harg hlength hbounds1 hbounds2 hoverlap)
  · cases h

theorem aliasSNode_same (htyped1 : K.WellTyped var1) (htyped2 : K.WellTyped var2)
    (h : aliasSNode var1 var2 = some .same) : r.cells K var1 = r.cells K var2 := by
  unfold aliasSNode at h
  split at h
  · rename_i snode1 snode2 hsnode1 hsnode2
    split at h
    · cases h
    · rename_i hsnode
      obtain rfl := not_not.mp hsnode
      split at h
      · rename_i indices1 indices2 hindices1 hindices2
        obtain ⟨id1, rfl⟩ := Ptr.eq_of_asGlobalPtr hsnode1 hindices1
        obtain ⟨id2, rfl⟩ := Ptr.eq_of_asGlobalPtr hsnode2 hindices2
        split at h
        · rename_i hlength
          have hforall := (aliasGlobalIndices_same hlength (Option.some.inj h)).2
          exact cells_eq rfl (r.map_value_eq htyped1.1 htyped2.1 hforall)
        · cases h
      · cases h
  · cases h

theorem not_overlap_of_aliasSNode (htyped1 : K.WellTyped var1) (htyped2 : K.WellTyped var2)
    (h : aliasSNode var1 var2 = some .different) : ¬Overlap K r var1 var2 := by
  intro hoverlap
  unfold aliasSNode at h
  split at h
  · rename_i snode1 snode2 hsnode1 hsnode2
    have hsnode : snode1 = snode2 := by
      have hroot := hoverlap.root_eq
      rw [Ptr.root_of_getSNodeId hsnode1, Ptr.root_of_getSNodeId hsnode2] at hroot
      exact Root.snode.inj hroot
    subst hsnode
    rw [if_neg (by simp)] at h
    split at h
    · rename_i indices1 indices2 hindices1 hindices2
      obtain ⟨id1, rfl⟩ := Ptr.eq_of_asGlobalPtr hsnode1 hindices1
      obtain ⟨id2, rfl⟩ := Ptr.eq_of_asGlobalPtr hsnode2 hindices2
      split at h
      · rename_i hlength
        apply aliasGlobalIndices_different r.toValuation htyped1.1 htyped2.1 (Option.some.inj h)
        exact hoverlap.path_eq (by simpa [Run.path] using hlength)
      · cases h
    · cases h
  · cases h

theorem lookalike_or_value_eq (σ : Valuation) {offset1 offset2 : Val}
    (h : sameStatements offset1 offset2 = true) : σ.value offset1 = σ.value offset2 ∨
      Lookalike (.blockLocalPtr id1 offset1) (.blockLocalPtr id2 offset2) := by
  rcases Classical.em (∃ id dt kind operands, offset1 = .other id dt kind operands false) with
    ⟨idA, dt, kind, operands, rfl⟩ | hother
  · cases offset2 with
    | other idB dt' kind' operands' eliminable =>
      simp only [sameStatements, Bool.and_eq_true, beq_iff_eq] at h
      obtain ⟨⟨⟨rfl, rfl⟩, rfl⟩, rfl⟩ := h
      exact Or.inr (.offsets id1 id2 idA idB dt kind operands)
    | _ => simp [sameStatements] at h
  · refine Or.inl (σ.value_eq_of_sameStatements h ?_)
    intro id dt kind operands heq
    exact hother ⟨id, dt, kind, operands, heq⟩

theorem aliasNonlocal_same (htyped1 : K.WellTyped var1) (htyped2 : K.WellTyped var2)
    (h : aliasNonlocal var1 var2 = some .same) :
    r.cells K var1 = r.cells K var2 ∨ Lookalike var1 var2 := by
  unfold aliasNonlocal at h
  split at h
  · cases h
  rcases ifEither_cases h with ⟨offset1, offset2, h1, h2, hboth⟩ | ⟨-, -, hnext1⟩ | ⟨-, hmixed⟩
  · obtain ⟨id1, rfl⟩ := Ptr.eq_of_asGlobalTemporary h1
    obtain ⟨id2, rfl⟩ := Ptr.eq_of_asGlobalTemporary h2
    obtain rfl : offset1 = offset2 := by
      by_contra hne
      simp [hne] at hboth
    exact Or.inl (cells_eq rfl rfl)
  swap
  · cases hmixed
  rcases ifEither_cases hnext1 with ⟨offset1, offset2, h1, h2, hboth⟩ | ⟨-, -, hnext2⟩ | ⟨-, hmixed⟩
  · obtain ⟨id1, rfl⟩ := Ptr.eq_of_asThreadLocalPtr h1
    obtain ⟨id2, rfl⟩ := Ptr.eq_of_asThreadLocalPtr h2
    obtain rfl : offset1 = offset2 := by
      by_contra hne
      simp [hne] at hboth
    exact Or.inl (cells_eq rfl rfl)
  swap
  · cases hmixed
  rcases ifEither_cases hnext2 with ⟨offset1, offset2, h1, h2, hboth⟩ | ⟨-, -, hnext3⟩ | ⟨-, hmixed⟩
  · obtain ⟨id1, rfl⟩ := Ptr.eq_of_asBlockLocalPtr h1
    obtain ⟨id2, rfl⟩ := Ptr.eq_of_asBlockLocalPtr h2
    have hsame : sameStatements offset1 offset2 = true := by
      by_contra hne
      simp [hne] at hboth
    rcases lookalike_or_value_eq r.toValuation hsame with hvalue | hlook
    · exact Or.inl (cells_eq rfl (by rw [Run.path, Run.path, hvalue]))
    · exact Or.inr hlook
  swap
  · cases hmixed
  rcases ifEither_cases hnext3 with ⟨ptr1, ptr2, h1, h2, hboth⟩ | ⟨-, -, hnext4⟩ | ⟨-, hmixed⟩
  · obtain ⟨id1, rfl⟩ := Ptr.eq_of_asExternalPtr h1
    obtain ⟨id2, rfl⟩ := Ptr.eq_of_asExternalPtr h2
    exact Or.inl (aliasExternal_same htyped1 htyped2 hboth)
  · exact Or.inl (aliasSNode_same htyped1 htyped2 hnext4)
  · cases hmixed

structure IsNonlocal (var : Ptr) : Prop where
  notLocal : var.retrieveLocal = none
  notBase : var.asExternalTensorBasePtr = none

theorem Ptr.eq_of_isAdStackAlloca {var : Ptr} (h : var.isAdStackAlloca = true) :
    ∃ id, var = .adStackAlloca id := by
  cases var <;> simp_all [Ptr.isAdStackAlloca]

theorem splitByKind_of_aliasNonlocal (htyped1 : K.WellTyped var1) (htyped2 : K.WellTyped var2)
    (hbounds1 : r.InBounds K var1) (hbounds2 : r.InBounds K var2)
    (hnonlocal1 : IsNonlocal var1) (hnonlocal2 : IsNonlocal var2)
    (h : aliasNonlocal var1 var2 = some .different) (hoverlap : Overlap K r var1 var2) :
    SplitByKind var1 var2 ∨ SplitByKind var2 var1 := by
  have hroot := hoverlap.root_eq
  unfold aliasNonlocal at h
  split at h
  · rename_i hstack
    rcases Bool.or_eq_true _ _ ▸ hstack with hstack | hstack
    · obtain ⟨id, rfl⟩ := Ptr.eq_of_isAdStackAlloca hstack
      exact Or.inl (.adStack id var2 hnonlocal2.notLocal hnonlocal2.notBase)
    · obtain ⟨id, rfl⟩ := Ptr.eq_of_isAdStackAlloca hstack
      exact Or.inr (.adStack id var1 hnonlocal1.notLocal hnonlocal1.notBase)
  rcases ifEither_cases h with ⟨offset1, offset2, h1, h2, hboth⟩ | ⟨-, -, hnext1⟩ | ⟨hmixed, -⟩
  · obtain ⟨id1, rfl⟩ := Ptr.eq_of_asGlobalTemporary h1
    obtain ⟨id2, rfl⟩ := Ptr.eq_of_asGlobalTemporary h2
    simp [Root.globalTemporary.inj hroot] at hboth
  swap
  · rcases hmixed with ⟨offset, h1, h2⟩ | ⟨offset, h1, h2⟩
    · obtain ⟨id, rfl⟩ := Ptr.eq_of_asGlobalTemporary h1
      rw [Ptr.asGlobalTemporary_of_root hnonlocal2.notLocal hroot.symm] at h2
      cases h2
    · obtain ⟨id, rfl⟩ := Ptr.eq_of_asGlobalTemporary h2
      rw [Ptr.asGlobalTemporary_of_root hnonlocal1.notLocal hroot] at h1
      cases h1
  rcases ifEither_cases hnext1 with ⟨offset1, offset2, h1, h2, hboth⟩ | ⟨-, -, hnext2⟩ | ⟨hmixed, -⟩
  · obtain ⟨id1, rfl⟩ := Ptr.eq_of_asThreadLocalPtr h1
    obtain ⟨id2, rfl⟩ := Ptr.eq_of_asThreadLocalPtr h2
    simp [Root.threadLocal.inj hroot] at hboth
  swap
  · rcases hmixed with ⟨offset, h1, h2⟩ | ⟨offset, h1, h2⟩
    · obtain ⟨id, rfl⟩ := Ptr.eq_of_asThreadLocalPtr h1
      exact Or.inl (.threadLocal id offset var2 hnonlocal2.notLocal hnonlocal2.notBase h2)
    · obtain ⟨id, rfl⟩ := Ptr.eq_of_asThreadLocalPtr h2
      exact Or.inr (.threadLocal id offset var1 hnonlocal1.notLocal hnonlocal1.notBase h1)
  rcases ifEither_cases hnext2 with ⟨offset1, offset2, h1, h2, hboth⟩ | ⟨-, -, hnext3⟩ | ⟨hmixed, -⟩
  · split at hboth <;> cases hboth
  swap
  · rcases hmixed with ⟨offset, h1, h2⟩ | ⟨offset, h1, h2⟩
    · obtain ⟨id, rfl⟩ := Ptr.eq_of_asBlockLocalPtr h1
      exact absurd h2 (htyped2.asBlockLocalPtr_of_root hnonlocal2.notLocal hroot.symm)
    · obtain ⟨id, rfl⟩ := Ptr.eq_of_asBlockLocalPtr h2
      exact absurd h1 (htyped1.asBlockLocalPtr_of_root hnonlocal1.notLocal hroot)
  rcases ifEither_cases hnext3 with ⟨ptr1, ptr2, h1, h2, hboth⟩ | ⟨-, -, hnext4⟩ | ⟨hmixed, -⟩
  · obtain ⟨id1, rfl⟩ := Ptr.eq_of_asExternalPtr h1
    obtain ⟨id2, rfl⟩ := Ptr.eq_of_asExternalPtr h2
    exact absurd hoverlap (not_overlap_of_aliasExternal htyped1 htyped2 hbounds1 hbounds2 hboth)
  · exact absurd hoverlap (not_overlap_of_aliasSNode htyped1 htyped2 hnext4)
  · rcases hmixed with ⟨ptr, h1, h2⟩ | ⟨ptr, h1, h2⟩
    · obtain ⟨id, rfl⟩ := Ptr.eq_of_asExternalPtr h1
      exact absurd h2
        (htyped2.asExternalPtr_of_root hnonlocal2.notLocal hnonlocal2.notBase hroot.symm)
    · obtain ⟨id, rfl⟩ := Ptr.eq_of_asExternalPtr h2
      exact absurd h1
        (htyped1.asExternalPtr_of_root hnonlocal1.notLocal hnonlocal1.notBase hroot)

end Nonlocal

end Quadrants.Analysis
