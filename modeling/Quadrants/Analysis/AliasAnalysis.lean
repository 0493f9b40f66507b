import Quadrants.Analysis.ValueDiff

namespace Quadrants.Analysis

inductive AliasResult where
  | same
  | uncertain
  | different
  deriving DecidableEq, Repr

structure ArgLoad where
  id : ℕ
  argId : List ℕ
  deriving DecidableEq, Repr

/-- The pointer statements, each with the fields the analysis reads. A `GlobalPtrStmt` or
`GetChStmt` names the id of a place SNode, an `AdStackLoadTopStmt` the id of its stack. -/
inductive Ptr where
  | alloca (id : ℕ)
  | adStackAlloca (id : ℕ)
  | globalTemporary (id offset : ℕ)
  | threadLocalPtr (id offset : ℕ)
  | blockLocalPtr (id : ℕ) (offset : Val)
  | externalTensorBasePtr (id : ℕ) (argId : List ℕ) (isGrad : Bool)
  | externalPtr (id : ℕ) (basePtr : ArgLoad) (indices : List Val) (isGrad : Bool)
  | globalPtr (id snode : ℕ) (indices : List Val)
  | getCh (id outputSnode : ℕ)
  | adStackLoadTop (id stack : ℕ)
  | matrixPtr (id : ℕ) (origin : Ptr) (offset : Val)
  deriving DecidableEq, Repr

namespace Ptr

@[simp] def offsetUsedAsIndex : Ptr → Bool
  | matrixPtr _ (alloca _) _ | matrixPtr _ (globalTemporary _ _) _
  | matrixPtr _ (externalPtr _ _ _ _) _ | matrixPtr _ (matrixPtr _ _ _) _ => true
  | _ => false

@[simp] def retrieveLocal (var : Ptr) : Option Ptr :=
  match var with
  | alloca _ => some var
  | matrixPtr _ origin _ => if var.offsetUsedAsIndex then some origin else none
  | _ => none

def asMatrixPtr : Ptr → Option Val
  | matrixPtr _ _ offset => some offset
  | _ => none

def isAlloca : Ptr → Bool
  | alloca _ => true
  | _ => false

def isAdStackAlloca : Ptr → Bool
  | adStackAlloca _ => true
  | _ => false

@[simp] def asGlobalTemporary : Ptr → Option ℕ
  | globalTemporary _ offset => some offset
  | _ => none

@[simp] def asThreadLocalPtr : Ptr → Option ℕ
  | threadLocalPtr _ offset => some offset
  | _ => none

@[simp] def asBlockLocalPtr : Ptr → Option Val
  | blockLocalPtr _ offset => some offset
  | _ => none

@[simp] def asExternalTensorBasePtr : Ptr → Option (List ℕ × Bool)
  | externalTensorBasePtr _ argId isGrad => some (argId, isGrad)
  | _ => none

@[simp] def asExternalPtr : Ptr → Option (ArgLoad × List Val × Bool)
  | externalPtr _ basePtr indices isGrad => some (basePtr, indices, isGrad)
  | _ => none

@[simp] def asGlobalPtr : Ptr → Option (List Val)
  | globalPtr _ _ indices => some indices
  | _ => none

@[simp] def getSNodeId : Ptr → Option ℕ
  | globalPtr _ snode _ => some snode
  | getCh _ outputSnode => some outputSnode
  | _ => none

end Ptr

def aliasBase (argId : List ℕ) (isGrad : Bool) (other : Ptr) : AliasResult :=
  match other with
  | .externalPtr _ basePtr _ isGrad' | .matrixPtr _ (.externalPtr _ basePtr _ isGrad') _ =>
    if isGrad ≠ isGrad' then .different
    else if argId = basePtr.argId then .uncertain
    else .different
  | _ => .different

def ifEither {α : Type} (cast1 cast2 : Option α) (both : α → α → Option AliasResult)
    (neither : Option AliasResult) : Option AliasResult :=
  match cast1, cast2 with
  | some a, some b => both a b
  | none, none => neither
  | _, _ => some .different

def aliasExternalIndices (uncertain : Bool) : List Val → List Val → AliasResult
  | index1 :: indices1, index2 :: indices2 =>
    let diff := valueDiffPtrIndex index1 index2
    if !diff.isDiffCertain then aliasExternalIndices true indices1 indices2
    else if diff.diffRange ≠ 0 then .different
    else aliasExternalIndices uncertain indices1 indices2
  | _, _ => if uncertain then .uncertain else .same

def aliasGlobalIndices (uncertain : Bool) : List Val → List Val → AliasResult
  | index1 :: indices1, index2 :: indices2 =>
    let diff := valueDiffPtrIndex index1 index2
    let uncertain := uncertain || (!diff.isDiffCertain || diff.diffRange ≠ 0)
    if int32 diff.diffRange.natAbs ≥ 1 then .different
    else aliasGlobalIndices uncertain indices1 indices2
  | _, _ => if uncertain then .uncertain else .same

def aliasExternal (ptr1 ptr2 : ArgLoad × List Val × Bool) : Option AliasResult :=
  if ptr1.1.argId ≠ ptr2.1.argId ∨ ptr1.2.2 ≠ ptr2.2.2 then some .different
  else if ptr1.2.1.length = ptr2.2.1.length then
    some (aliasExternalIndices false ptr1.2.1 ptr2.2.1)
  else none

def aliasSNode (var1 var2 : Ptr) : Option AliasResult :=
  match var1.getSNodeId, var2.getSNodeId with
  | some snode1, some snode2 =>
    if snode1 ≠ snode2 then some .different
    else
      match var1.asGlobalPtr, var2.asGlobalPtr with
      | some indices1, some indices2 =>
        if indices1.length = indices2.length then
          some (aliasGlobalIndices false indices1 indices2)
        else none
      | _, _ => some .uncertain
  | _, _ => some .uncertain

def aliasNonlocal (var1 var2 : Ptr) : Option AliasResult :=
  if var1.isAdStackAlloca || var2.isAdStackAlloca then some .different
  else
    ifEither var1.asGlobalTemporary var2.asGlobalTemporary
      (fun offset1 offset2 => some (if offset1 = offset2 then .same else .different)) <|
    ifEither var1.asThreadLocalPtr var2.asThreadLocalPtr
      (fun offset1 offset2 => some (if offset1 = offset2 then .same else .different)) <|
    ifEither var1.asBlockLocalPtr var2.asBlockLocalPtr
      (fun offset1 offset2 => some (if sameStatements offset1 offset2 then .same else .uncertain)) <|
    ifEither var1.asExternalPtr var2.asExternalPtr aliasExternal <|
    aliasSNode var1 var2

def aliasOrigins (origin1 origin2 : Ptr) : Option AliasResult :=
  if origin1 = origin2 then some .uncertain
  else if origin1.isAlloca || origin2.isAlloca then some .different
  else
    match origin1.asGlobalTemporary, origin2.asGlobalTemporary with
    | some offset1, some offset2 => some (if offset1 = offset2 then .uncertain else .different)
    | _, _ => none

def aliasLocal (originAlias : Option AliasResult) (var1 var2 origin1 origin2 : Ptr) :
    Option AliasResult :=
  match var1.asMatrixPtr, var2.asMatrixPtr with
  | some offset1, some offset2 =>
    match if origin1 = origin2 then some .same else originAlias with
    | none => none
    | some .same =>
      let diff := valueDiffPtrIndex offset1 offset2
      if diff.isDiffCertain then some (if diff.diffRange = 0 then .same else .different)
      else aliasOrigins origin1 origin2
    | some _ => some .different
  | _, _ => aliasOrigins origin1 origin2

def aliasStep (originAlias : Ptr → Option AliasResult) (var1 var2 : Ptr) : Option AliasResult :=
  if var1 = var2 then some .same
  else
    match var1.asExternalTensorBasePtr, var2.asExternalTensorBasePtr with
    | some (argId, isGrad), _ => some (aliasBase argId isGrad var2)
    | none, some (argId, isGrad) => some (aliasBase argId isGrad var1)
    | none, none =>
      match var1.retrieveLocal, var2.retrieveLocal with
      | some origin1, some origin2 =>
        aliasLocal (originAlias origin2) var1 var2 origin1 origin2
      | none, none => aliasNonlocal var1 var2
      | _, _ => some .different

def aliasAnalysis : Ptr → Ptr → Option AliasResult
  | .matrixPtr id origin offset => aliasStep (aliasAnalysis origin) (.matrixPtr id origin offset)
  | var1 => aliasStep (fun _ => none) var1

theorem aliasExternalIndices_comm (uncertain : Bool) (indices1 indices2 : List Val) :
    aliasExternalIndices uncertain indices2 indices1 =
      aliasExternalIndices uncertain indices1 indices2 := by
  induction indices1 generalizing uncertain indices2 with
  | nil => cases indices2 <;> rfl
  | cons index1 indices1 ih =>
    cases indices2 with
    | nil => rfl
    | cons index2 indices2 =>
      obtain ⟨hcertain, habs⟩ := valueDiffPtrIndex_comm index1 index2
      have hzero : (valueDiffPtrIndex index2 index1).diffRange = 0 ↔
          (valueDiffPtrIndex index1 index2).diffRange = 0 := by omega
      simp [aliasExternalIndices, hcertain, hzero, ih]

theorem aliasGlobalIndices_comm (uncertain : Bool) (indices1 indices2 : List Val) :
    aliasGlobalIndices uncertain indices2 indices1 =
      aliasGlobalIndices uncertain indices1 indices2 := by
  induction indices1 generalizing uncertain indices2 with
  | nil => cases indices2 <;> rfl
  | cons index1 indices1 ih =>
    cases indices2 with
    | nil => rfl
    | cons index2 indices2 =>
      obtain ⟨hcertain, habs⟩ := valueDiffPtrIndex_comm index1 index2
      have hzero : (valueDiffPtrIndex index2 index1).diffRange = 0 ↔
          (valueDiffPtrIndex index1 index2).diffRange = 0 := by omega
      simp [aliasGlobalIndices, hcertain, habs, hzero, ih]

theorem ifEither_comm {α : Type} (cast1 cast2 : Option α) (both : α → α → Option AliasResult)
    (neither neither' : Option AliasResult) (hboth : ∀ a b, both b a = both a b)
    (hneither : neither' = neither) :
    ifEither cast2 cast1 both neither' = ifEither cast1 cast2 both neither := by
  cases cast1 <;> cases cast2 <;> simp [ifEither, hboth, hneither]

theorem aliasExternal_comm (ptr1 ptr2 : ArgLoad × List Val × Bool) :
    aliasExternal ptr2 ptr1 = aliasExternal ptr1 ptr2 := by
  unfold aliasExternal
  simp only [ne_comm, eq_comm (b := ptr1.2.1.length), aliasExternalIndices_comm]

variable (var1 var2 : Ptr)

theorem aliasSNode_comm : aliasSNode var2 var1 = aliasSNode var1 var2 := by
  unfold aliasSNode
  rcases var1.getSNodeId with _ | snode1 <;> rcases var2.getSNodeId with _ | snode2 <;> try rfl
  rcases var1.asGlobalPtr with _ | indices1 <;> rcases var2.asGlobalPtr with _ | indices2
  · simp only [ne_comm]
  · simp only [ne_comm]
  · simp only [ne_comm]
  · simp only [ne_comm, eq_comm (a := indices2.length), aliasGlobalIndices_comm]

theorem aliasNonlocal_comm : aliasNonlocal var2 var1 = aliasNonlocal var1 var2 := by
  unfold aliasNonlocal
  rw [Bool.or_comm]
  congr 1
  apply ifEither_comm _ _ _ _ _ (fun _ _ => by simp only [eq_comm])
  apply ifEither_comm _ _ _ _ _ (fun _ _ => by simp only [eq_comm])
  apply ifEither_comm _ _ _ _ _ (fun _ _ => by simp only [sameStatements_comm])
  apply ifEither_comm _ _ _ _ _ (fun _ _ => aliasExternal_comm _ _)
  exact aliasSNode_comm var1 var2

theorem aliasOrigins_comm (origin1 origin2 : Ptr) :
    aliasOrigins origin2 origin1 = aliasOrigins origin1 origin2 := by
  unfold aliasOrigins
  rcases origin1.asGlobalTemporary with _ | offset1 <;>
    rcases origin2.asGlobalTemporary with _ | offset2 <;>
    simp only [eq_comm, Bool.or_comm]

theorem aliasLocal_comm (alias1 alias2 : Option AliasResult) (var1 var2 origin1 origin2 : Ptr)
    (halias : var1.asMatrixPtr.isSome → var2.asMatrixPtr.isSome → alias2 = alias1) :
    aliasLocal alias2 var2 var1 origin2 origin1 = aliasLocal alias1 var1 var2 origin1 origin2 := by
  unfold aliasLocal
  rcases hmatrix1 : var1.asMatrixPtr with _ | offset1 <;>
    rcases hmatrix2 : var2.asMatrixPtr with _ | offset2
  · exact aliasOrigins_comm origin1 origin2
  · exact aliasOrigins_comm origin1 origin2
  · exact aliasOrigins_comm origin1 origin2
  · obtain ⟨hcertain, habs⟩ := valueDiffPtrIndex_comm offset1 offset2
    have hzero : (valueDiffPtrIndex offset2 offset1).diffRange = 0 ↔
        (valueDiffPtrIndex offset1 offset2).diffRange = 0 := by omega
    simp only [hcertain, hzero, aliasOrigins_comm, eq_comm (a := origin2),
      halias (by rw [hmatrix1]; rfl) (by rw [hmatrix2]; rfl)]

theorem Ptr.eq_of_asExternalTensorBasePtr {var : Ptr} {base : List ℕ × Bool}
    (h : var.asExternalTensorBasePtr = some base) :
    ∃ id, var = .externalTensorBasePtr id base.1 base.2 := by
  cases var with
  | externalTensorBasePtr id argId isGrad =>
    obtain rfl := Option.some.inj h
    exact ⟨id, rfl⟩
  | _ => exact absurd h (by simp [Ptr.asExternalTensorBasePtr])

theorem aliasStep_comm (alias1 alias2 : Ptr → Option AliasResult) (var1 var2 : Ptr)
    (halias : ∀ origin1 origin2, var1.retrieveLocal = some origin1 →
      var2.retrieveLocal = some origin2 → var1.asMatrixPtr.isSome → var2.asMatrixPtr.isSome →
      alias2 origin1 = alias1 origin2) :
    aliasStep alias2 var2 var1 = aliasStep alias1 var1 var2 := by
  unfold aliasStep
  rcases eq_or_ne var1 var2 with rfl | hne
  · rw [if_pos rfl, if_pos rfl]
  rw [if_neg hne, if_neg hne.symm]
  cases hbase1 : var1.asExternalTensorBasePtr with
  | some base1 =>
    cases hbase2 : var2.asExternalTensorBasePtr with
    | some base2 =>
      obtain ⟨id1, rfl⟩ := Ptr.eq_of_asExternalTensorBasePtr hbase1
      obtain ⟨id2, rfl⟩ := Ptr.eq_of_asExternalTensorBasePtr hbase2
      rfl
    | none => rfl
  | none =>
    cases hbase2 : var2.asExternalTensorBasePtr with
    | some base2 => rfl
    | none =>
      cases hlocal1 : var1.retrieveLocal with
      | none => cases hlocal2 : var2.retrieveLocal with
        | none => exact aliasNonlocal_comm var1 var2
        | some origin2 => rfl
      | some origin1 => cases hlocal2 : var2.retrieveLocal with
        | none => rfl
        | some origin2 =>
          exact aliasLocal_comm _ _ _ _ _ _ (halias origin1 origin2 hlocal1 hlocal2)

def Ptr.originAlias : Ptr → Ptr → Option AliasResult
  | .matrixPtr _ origin _ => aliasAnalysis origin
  | _ => fun _ => none

theorem aliasAnalysis_eq : aliasAnalysis var1 var2 = aliasStep var1.originAlias var1 var2 := by
  cases var1 <;> rfl

theorem aliasAnalysis_comm : aliasAnalysis var2 var1 = aliasAnalysis var1 var2 := by
  induction var1 generalizing var2 with
  | matrixPtr id origin offset ih =>
    rw [aliasAnalysis_eq]
    apply aliasStep_comm
    intro origin1 origin2 hlocal1 hlocal2 _ hmatrix
    cases var2 with
    | matrixPtr id' origin' offset' =>
      obtain ⟨_, rfl⟩ : _ ∧ origin = origin1 := by
        simpa only [Ptr.retrieveLocal, Option.ite_none_right_eq_some, Option.some.injEq]
          using hlocal1
      obtain ⟨_, rfl⟩ : _ ∧ origin' = origin2 := by
        simpa only [Ptr.retrieveLocal, Option.ite_none_right_eq_some, Option.some.injEq]
          using hlocal2
      exact ih origin'
    | _ => exact absurd hmatrix (by simp [Ptr.asMatrixPtr])
  | _ =>
    rw [aliasAnalysis_eq]
    apply aliasStep_comm
    intro _ _ _ _ hmatrix
    exact absurd hmatrix (by simp [Ptr.asMatrixPtr])

end Quadrants.Analysis
