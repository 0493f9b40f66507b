import Quadrants.Analysis.UniqueSound

namespace Quadrants.Analysis

open List Option Bool Function

section Verdict

variable {task : OffloadedTask} {taskType : TaskType} {unique : LoopUniqueStmtSearcher}
  {visited : List BodyStmt} {s : UniquelyAccessedSNodeSearcher}

namespace UniquelyAccessedSNodeSearcher

theorem setAccessed_self (snode : ℕ) (ptr : Option Ptr) :
    (s.setAccessed snode ptr).accessedPointer snode = some ptr :=
  update_self _ _ _

theorem setAccessed_of_ne {snode snode' : ℕ} (ptr : Option Ptr) (h : snode' ≠ snode) :
    (s.setAccessed snode ptr).accessedPointer snode' = s.accessedPointer snode' :=
  update_of_ne h _ _

theorem setArr_self (argId : List ℕ) (ptr : Option Ptr) :
    (s.setArr argId ptr).accessedArrPointer argId = some ptr :=
  update_self _ _ _

theorem setArr_of_ne {argId argId' : List ℕ} (ptr : Option Ptr) (h : argId' ≠ argId) :
    (s.setArr argId ptr).accessedArrPointer argId' = s.accessedArrPointer argId' :=
  update_of_ne h _ _

theorem isFromEnd_eq_false (hmesh : taskType ≠ .meshFor) (val : Val) :
    val.isFromEnd taskType = false := by
  unfold Val.isFromEnd
  split
  · split
    · simp [hmesh]
    · rfl
  · rfl

theorem visitMeshIndex_cases (hmesh : taskType ≠ .meshFor) (stmt : Ptr) (snode : ℕ)
    (indices : List Val) : s.visitMeshIndex taskType stmt snode indices = s ∨
      s.visitMeshIndex taskType stmt snode indices = (s.setRelAccess snode).setAccessed snode none := by
  unfold visitMeshIndex
  split
  · rw [isFromEnd_eq_false hmesh]
    exact Or.inr rfl
  · exact Or.inl rfl

theorem visitGlobalPtr_self (hmesh : taskType ≠ .meshFor) (stmt : Ptr) (snode : ℕ)
    (indices : List Val) :
    (s.visitGlobalPtr taskType unique stmt snode indices).accessedPointer snode = some none ∨
    (s.accessedPointer snode = none ∧ unique.isPtrIndicesLoopUnique indices = true ∧
      (s.visitGlobalPtr taskType unique stmt snode indices).accessedPointer snode =
        some (some stmt)) ∨
    ∃ ptr, s.accessedPointer snode = some (some ptr) ∧
      definitelySameAddress (some ptr) stmt = true ∧
      (s.visitGlobalPtr taskType unique stmt snode indices).accessedPointer snode =
        some (some ptr) := by
  rcases visitMeshIndex_cases (s := s) hmesh stmt snode indices with hskip | hclear
  · simp only [visitGlobalPtr, hskip]
    cases haccessed : s.accessedPointer snode with
    | none =>
      rcases eq_false_or_eq_true (unique.isPtrIndicesLoopUnique indices) with
        hunique | hunique
      · exact Or.inr (Or.inl ⟨rfl, hunique, by simp only [hunique, if_true, setAccessed_self]⟩)
      · exact Or.inl (by simp only [hunique, false_eq_true, if_false, setAccessed_self])
    | some accessed =>
      rcases eq_false_or_eq_true (definitelySameAddress accessed stmt) with hsame | hsame
      · cases accessed with
        | none => cases hsame
        | some ptr =>
          exact Or.inr (Or.inr ⟨ptr, rfl, hsame, by simp only [hsame, if_true, haccessed]⟩)
      · exact Or.inl (by simp only [hsame, false_eq_true, if_false, setAccessed_self])
  · simp [visitGlobalPtr, hclear, setAccessed_self, definitelySameAddress]

theorem visitGlobalPtr_of_ne (hmesh : taskType ≠ .meshFor) (stmt : Ptr) {snode snode' : ℕ}
    (indices : List Val) (h : snode' ≠ snode) :
    (s.visitGlobalPtr taskType unique stmt snode indices).accessedPointer snode' =
      s.accessedPointer snode' := by
  have hmeshIndex : (s.visitMeshIndex taskType stmt snode indices).accessedPointer snode' =
      s.accessedPointer snode' := by
    rcases visitMeshIndex_cases (s := s) hmesh stmt snode indices with hskip | hclear
    · rw [hskip]
    · rw [hclear, setAccessed_of_ne none h]
      rfl
  rw [← hmeshIndex]
  simp only [visitGlobalPtr]
  split
  · split <;> exact setAccessed_of_ne _ h
  · split
    · rfl
    · exact setAccessed_of_ne _ h

theorem visitExternalPtr_accessedPointer (stmt : Ptr) (argId : List ℕ) (indices : List Val) :
    (s.visitExternalPtr unique stmt argId indices).accessedPointer = s.accessedPointer := by
  unfold visitExternalPtr
  split
  · rfl
  · split
    · rfl
    · split <;> rfl
    · rfl

end UniquelyAccessedSNodeSearcher

/-- A recorded pointer is loop-unique, and all pointers to its SNode are at the same address. -/
structure SNodeInv (unique : LoopUniqueStmtSearcher) (visited : List BodyStmt)
    (s : UniquelyAccessedSNodeSearcher) : Prop where
  absent : ∀ snode, s.accessedPointer snode = none →
    ∀ id indices, .pointer (.globalPtr id snode indices) ∉ visited
  recorded : ∀ snode ptr, s.accessedPointer snode = some (some ptr) →
    ∃ id indices, ptr = .globalPtr id snode indices ∧
      .pointer (.globalPtr id snode indices) ∈ visited ∧
      unique.isPtrIndicesLoopUnique indices = true ∧
      ∀ id' indices', .pointer (.globalPtr id' snode indices') ∈ visited →
        List.Forall₂ CertainlyEqual indices indices'

namespace SNodeInv

theorem skip (hinv : SNodeInv unique visited s) {stmt : BodyStmt}
    (hstmt : ∀ id snode indices, stmt ≠ .pointer (.globalPtr id snode indices))
    {s' : UniquelyAccessedSNodeSearcher} (hs : s'.accessedPointer = s.accessedPointer) :
    SNodeInv unique (visited ++ [stmt]) s' := by
  have hmem : ∀ id snode indices, .pointer (.globalPtr id snode indices) ∈ visited ++ [stmt] →
      .pointer (.globalPtr id snode indices) ∈ visited := by
    intro id snode indices h
    rcases mem_append.mp h with h | h
    · exact h
    · exact absurd (mem_singleton.mp h).symm (hstmt id snode indices)
  refine ⟨fun snode h id indices hin => ?_, fun snode ptr h => ?_⟩
  · rw [hs] at h
    exact hinv.absent snode h id indices (hmem id snode indices hin)
  · rw [hs] at h
    obtain ⟨id, indices, rfl, hin, hunique, hsame⟩ := hinv.recorded snode ptr h
    exact ⟨id, indices, rfl, mem_append_left _ hin, hunique,
      fun id' indices' h' => hsame id' indices' (hmem _ _ _ h')⟩

theorem visitGlobalPtr (hinv : SNodeInv unique visited s) (hmesh : taskType ≠ .meshFor)
    (id snode : ℕ) (indices : List Val) :
    SNodeInv unique (visited ++ [.pointer (.globalPtr id snode indices)])
      (s.visitGlobalPtr taskType unique (.globalPtr id snode indices) snode indices) := by
  have hother : ∀ snode', snode' ≠ snode → ∀ id' indices',
      .pointer (.globalPtr id' snode' indices') ∈
        visited ++ [.pointer (.globalPtr id snode indices)] →
      .pointer (.globalPtr id' snode' indices') ∈ visited := by
    intro snode' hne id' indices' h
    rcases mem_append.mp h with h | h
    · exact h
    · obtain ⟨-, rfl, -⟩ := Ptr.globalPtr.inj (BodyStmt.pointer.inj (mem_singleton.mp h))
      exact absurd rfl hne
  have hlast : BodyStmt.pointer (.globalPtr id snode indices) ∈
      visited ++ [.pointer (.globalPtr id snode indices)] :=
    mem_append_right _ mem_cons_self
  have hself := @UniquelyAccessedSNodeSearcher.visitGlobalPtr_self taskType unique s
    hmesh (.globalPtr id snode indices) snode indices
  refine ⟨fun snode' h id' indices' hin => ?_, fun snode' ptr h => ?_⟩
  · rcases eq_or_ne snode' snode with rfl | hne
    · rcases hself with hnew | ⟨-, -, hnew⟩ | ⟨_, -, -, hnew⟩ <;>
        rw [hnew] at h <;> cases h
    · rw [UniquelyAccessedSNodeSearcher.visitGlobalPtr_of_ne hmesh _ _ hne] at h
      exact hinv.absent snode' h id' indices' (hother snode' hne id' indices' hin)
  · rcases eq_or_ne snode' snode with rfl | hne
    · rcases hself with hnew | ⟨hold, hunique, hnew⟩ | ⟨ptr', hold, hsame, hnew⟩
      · rw [hnew] at h
        cases h
      · obtain rfl : Ptr.globalPtr id snode' indices = ptr := by
          rw [hnew] at h
          exact Option.some.inj (Option.some.inj h)
        refine ⟨id, indices, rfl, hlast, hunique, fun id' indices' h' => ?_⟩
        rcases mem_append.mp h' with h' | h'
        · exact absurd h' (hinv.absent snode' hold id' indices')
        · obtain ⟨-, -, rfl⟩ :=
            Ptr.globalPtr.inj (BodyStmt.pointer.inj (mem_singleton.mp h'))
          exact forall₂_same.mpr fun val _ => certainlyEqual_refl val
      · obtain rfl : ptr' = ptr := by
          rw [hnew] at h
          exact Option.some.inj (Option.some.inj h)
        obtain ⟨id0, indices0, rfl, hin, hunique, hall⟩ := hinv.recorded snode' ptr' hold
        refine ⟨id0, indices0, rfl, mem_append_left _ hin, hunique, fun id' indices' h' => ?_⟩
        rcases mem_append.mp h' with h' | h'
        · exact hall id' indices' h'
        · obtain ⟨rfl, -, rfl⟩ :=
            Ptr.globalPtr.inj (BodyStmt.pointer.inj (mem_singleton.mp h'))
          exact certainlyEqual_of_definitelySame hsame
    · rw [UniquelyAccessedSNodeSearcher.visitGlobalPtr_of_ne hmesh _ _ hne] at h
      obtain ⟨id0, indices0, rfl, hin, hunique, hall⟩ := hinv.recorded snode' ptr h
      exact ⟨id0, indices0, rfl, mem_append_left _ hin, hunique,
        fun id' indices' h' => hall id' indices' (hother snode' hne id' indices' h')⟩

theorem visit (hinv : SNodeInv unique visited s) (hmesh : taskType ≠ .meshFor) (stmt : BodyStmt) :
    SNodeInv unique (visited ++ [stmt]) (s.visit taskType unique stmt) := by
  match stmt with
  | .pointer (.globalPtr id snode indices) => exact hinv.visitGlobalPtr hmesh id snode indices
  | .pointer (.externalPtr id basePtr indices isGrad) =>
    exact hinv.skip (by simp)
      (UniquelyAccessedSNodeSearcher.visitExternalPtr_accessedPointer _ _ _)
  | .value _ | .decoration _ _ _ | .other _ | .pointer (.alloca _)
  | .pointer (.adStackAlloca _) | .pointer (.globalTemporary _ _)
  | .pointer (.threadLocalPtr _ _) | .pointer (.blockLocalPtr _ _)
  | .pointer (.externalTensorBasePtr _ _ _) | .pointer (.getCh _ _)
  | .pointer (.adStackLoadTop _ _) | .pointer (.matrixPtr _ _ _) => exact hinv.skip (by simp) rfl

theorem foldl (hinv : SNodeInv unique visited s) (hmesh : taskType ≠ .meshFor)
    (stmts : List BodyStmt) : SNodeInv unique (visited ++ stmts)
      (stmts.foldl (UniquelyAccessedSNodeSearcher.visit taskType unique) s) := by
  induction stmts generalizing visited s with
  | nil => rwa [append_nil]
  | cons stmt stmts ih =>
    rw [append_cons]
    exact ih (hinv.visit hmesh stmt)

end SNodeInv

theorem sameValue_of_sameUniqueIndices {indices other : List Val}
    (h : UniquelyAccessedSNodeSearcher.sameUniqueIndices unique indices other = true)
    {entry : Val × Val} (hentry : entry ∈ indices.zip other)
    (hunique : (unique.loopUnique entry.1).isSome = true) : sameValue entry.1 entry.2 = true := by
  have hall := all_eq_true.mp h entry hentry
  simpa [LoopUniqueStmtSearcher.isPartiallyLoopUnique, hunique] using hall

namespace UniquelyAccessedSNodeSearcher

theorem visitExternalPtr_self (stmt : Ptr) (argId : List ℕ) (indices : List Val) :
    (s.visitExternalPtr unique stmt argId indices).accessedArrPointer argId = some none ∨
    (unique.isPtrIndicesLoopUnique indices = true ∧ s.accessedArrPointer argId = none ∧
      (s.visitExternalPtr unique stmt argId indices).accessedArrPointer argId =
        some (some stmt)) ∨
    (unique.isPtrIndicesLoopUnique indices = true ∧ ∃ ptr, s.accessedArrPointer argId = some ptr ∧
      (∀ id basePtr otherIndices isGrad, ptr = some (.externalPtr id basePtr otherIndices isGrad) →
        sameUniqueIndices unique indices otherIndices = true) ∧
      (s.visitExternalPtr unique stmt argId indices).accessedArrPointer argId = some ptr) := by
  unfold visitExternalPtr
  split
  · exact Or.inl (setArr_self argId none)
  · rename_i hunique
    simp only [not_eq_true, not_eq_false'] at hunique
    split
    · rename_i hold
      exact Or.inr (Or.inl ⟨hunique, hold, setArr_self argId _⟩)
    · rename_i id basePtr otherIndices isGrad hold
      split
      · rename_i hsame
        refine Or.inr (Or.inr ⟨hunique, _, hold, ?_, hold⟩)
        intro _ _ _ _ heq
        obtain ⟨-, -, rfl, -⟩ := Ptr.externalPtr.inj (Option.some.inj heq)
        exact hsame
      · exact Or.inl (setArr_self argId none)
    · rename_i ptr hother hold
      refine Or.inr (Or.inr ⟨hunique, ptr, hold, ?_, hold⟩)
      intro id basePtr otherIndices isGrad heq
      exact absurd heq (hother id basePtr otherIndices isGrad)

theorem visitExternalPtr_of_ne (stmt : Ptr) {argId argId' : List ℕ} (indices : List Val)
    (h : argId' ≠ argId) :
    (s.visitExternalPtr unique stmt argId indices).accessedArrPointer argId' =
      s.accessedArrPointer argId' := by
  unfold visitExternalPtr
  split
  · exact setArr_of_ne _ h
  · split
    · exact setArr_of_ne _ h
    · split
      · rfl
      · exact setArr_of_ne _ h
    · rfl

theorem visitGlobalPtr_accessedArrPointer (stmt : Ptr) (snode : ℕ) (indices : List Val) :
    (s.visitGlobalPtr taskType unique stmt snode indices).accessedArrPointer =
      s.accessedArrPointer := by
  have hmeshIndex : (s.visitMeshIndex taskType stmt snode indices).accessedArrPointer =
      s.accessedArrPointer := by
    unfold visitMeshIndex
    split
    · split
      · split <;> rfl
      · rfl
    · rfl
  simp only [visitGlobalPtr]
  split
  · split <;> exact hmeshIndex
  · split <;> exact hmeshIndex

end UniquelyAccessedSNodeSearcher

/-- A recorded pointer is the first into its array, and every other one is loop-unique and
agrees with it on its own loop-unique indices. -/
structure ArrInv (unique : LoopUniqueStmtSearcher) (visited : List BodyStmt)
    (s : UniquelyAccessedSNodeSearcher) : Prop where
  absent : ∀ argId, s.accessedArrPointer argId = none →
    visited.findSome? (BodyStmt.externalPtrOf argId) = none
  recorded : ∀ argId ptr, s.accessedArrPointer argId = some (some ptr) →
    visited.findSome? (BodyStmt.externalPtrOf argId) = some ptr ∧
      ∀ id (basePtr : ArgLoad) indices isGrad, basePtr.argId = argId →
        .pointer (.externalPtr id basePtr indices isGrad) ∈ visited →
        unique.isPtrIndicesLoopUnique indices = true ∧
        UniquelyAccessedSNodeSearcher.sameUniqueIndices unique indices ptr.indices = true

theorem BodyStmt.externalPtrOf_eq_some {argId : List ℕ} {stmt : BodyStmt} {ptr : Ptr}
    (h : stmt.externalPtrOf argId = some ptr) : ∃ id basePtr indices isGrad, basePtr.argId = argId ∧
      ptr = .externalPtr id basePtr indices isGrad ∧ stmt = .pointer ptr := by
  unfold BodyStmt.externalPtrOf at h
  split at h
  · rename_i id basePtr indices isGrad
    split at h
    · rename_i harg
      obtain rfl := Option.some.inj h
      exact ⟨id, basePtr, indices, isGrad, harg, rfl, rfl⟩
    · cases h
  · cases h

namespace ArrInv

theorem skip (hinv : ArrInv unique visited s) {stmt : BodyStmt}
    (hstmt : ∀ id basePtr indices isGrad, stmt ≠ .pointer (.externalPtr id basePtr indices isGrad))
    {s' : UniquelyAccessedSNodeSearcher} (hs : s'.accessedArrPointer = s.accessedArrPointer) :
    ArrInv unique (visited ++ [stmt]) s' := by
  have hfind : ∀ argId, (visited ++ [stmt]).findSome? (BodyStmt.externalPtrOf argId) =
      visited.findSome? (BodyStmt.externalPtrOf argId) := by
    intro argId
    have hnone : stmt.externalPtrOf argId = none := by
      rw [eq_none_iff_forall_not_mem]
      intro ptr h
      obtain ⟨id, basePtr, indices, isGrad, -, rfl, heq⟩ :=
        BodyStmt.externalPtrOf_eq_some (mem_def.mp h)
      exact hstmt _ _ _ _ heq
    rw [List.findSome?_append, List.findSome?_singleton, hnone, or_none]
  refine ⟨fun argId h => ?_, fun argId ptr h => ?_⟩
  · rw [hs] at h
    rw [hfind]
    exact hinv.absent argId h
  · rw [hs] at h
    obtain ⟨hfirst, hall⟩ := hinv.recorded argId ptr h
    rw [hfind]
    refine ⟨hfirst, fun id basePtr indices isGrad harg hmem => ?_⟩
    rcases mem_append.mp hmem with hmem | hmem
    · exact hall id basePtr indices isGrad harg hmem
    · exact absurd (mem_singleton.mp hmem).symm (hstmt _ _ _ _)

theorem visitExternalPtr (hinv : ArrInv unique visited s) (id : ℕ) (basePtr : ArgLoad)
    (indices : List Val) (isGrad : Bool) :
    ArrInv unique (visited ++ [.pointer (.externalPtr id basePtr indices isGrad)])
      (s.visitExternalPtr unique (.externalPtr id basePtr indices isGrad) basePtr.argId
        indices) := by
  have hself := @UniquelyAccessedSNodeSearcher.visitExternalPtr_self unique s
    (.externalPtr id basePtr indices isGrad) basePtr.argId indices
  have hfind : ∀ argId, argId ≠ basePtr.argId →
      (visited ++ [BodyStmt.pointer (.externalPtr id basePtr indices isGrad)]).findSome?
        (BodyStmt.externalPtrOf argId) = visited.findSome? (BodyStmt.externalPtrOf argId) := by
    intro argId hne
    rw [List.findSome?_append, List.findSome?_singleton, BodyStmt.externalPtrOf,
      if_neg hne.symm, or_none]
  have hlast : ∀ id' (basePtr' : ArgLoad) indices' isGrad',
      BodyStmt.pointer (.externalPtr id' basePtr' indices' isGrad') ∈
        visited ++ [.pointer (.externalPtr id basePtr indices isGrad)] →
      BodyStmt.pointer (.externalPtr id' basePtr' indices' isGrad') ∈ visited ∨
        basePtr' = basePtr ∧ indices' = indices := by
    intro id' basePtr' indices' isGrad' h
    rcases mem_append.mp h with h | h
    · exact Or.inl h
    · obtain ⟨-, rfl, rfl, -⟩ :=
        Ptr.externalPtr.inj (BodyStmt.pointer.inj (mem_singleton.mp h))
      exact Or.inr ⟨rfl, rfl⟩
  refine ⟨fun argId h => ?_, fun argId ptr h => ?_⟩
  · rcases eq_or_ne argId basePtr.argId with rfl | hne
    · rcases hself with hnew | ⟨-, -, hnew⟩ | ⟨-, _, -, -, hnew⟩ <;> rw [hnew] at h <;> cases h
    · rw [UniquelyAccessedSNodeSearcher.visitExternalPtr_of_ne _ _ hne] at h
      rw [hfind argId hne]
      exact hinv.absent argId h
  · rcases eq_or_ne argId basePtr.argId with rfl | hne
    · rcases hself with hnew | ⟨hunique, hold, hnew⟩ | ⟨hunique, ptr', hold, hsame, hnew⟩
      · rw [hnew] at h
        cases h
      · obtain rfl : Ptr.externalPtr id basePtr indices isGrad = ptr := by
          rw [hnew] at h
          exact Option.some.inj (Option.some.inj h)
        have hnone := hinv.absent _ hold
        refine ⟨?_, fun id' basePtr' indices' isGrad' harg hmem => ?_⟩
        · rw [List.findSome?_append, hnone, List.findSome?_singleton, BodyStmt.externalPtrOf,
            if_pos rfl]
          rfl
        · rcases hlast id' basePtr' indices' isGrad' hmem with hmem | ⟨rfl, rfl⟩
          · have := List.findSome?_eq_none_iff.mp hnone _ hmem
            simp [BodyStmt.externalPtrOf, harg] at this
          · refine ⟨hunique, all_eq_true.mpr fun entry hentry => ?_⟩
            obtain ⟨axis, haxis⟩ := mem_iff_getElem?.mp hentry
            obtain ⟨hfst, hsnd⟩ := List.getElem?_zip_eq_some.mp haxis
            obtain ⟨val, val'⟩ := entry
            obtain rfl : val = val' := Option.some.inj (hfst.symm.trans hsnd)
            simp [sameValue_refl]
      · obtain rfl : ptr' = some ptr := by
          rw [hnew] at h
          exact Option.some.inj h
        obtain ⟨hfirst, hall⟩ := hinv.recorded _ ptr hold
        refine ⟨?_, fun id' basePtr' indices' isGrad' harg hmem => ?_⟩
        · rw [List.findSome?_append, hfirst]
          rfl
        · rcases hlast id' basePtr' indices' isGrad' hmem with hmem | ⟨rfl, rfl⟩
          · exact hall id' basePtr' indices' isGrad' harg hmem
          · obtain ⟨stmt, hstmt, hptr⟩ := List.exists_of_findSome?_eq_some hfirst
            obtain ⟨id0, base0, indices0, isGrad0, -, rfl, -⟩ :=
              BodyStmt.externalPtrOf_eq_some hptr
            exact ⟨hunique, hsame id0 base0 indices0 isGrad0 rfl⟩
    · rw [UniquelyAccessedSNodeSearcher.visitExternalPtr_of_ne _ _ hne] at h
      obtain ⟨hfirst, hall⟩ := hinv.recorded argId ptr h
      rw [hfind argId hne]
      refine ⟨hfirst, fun id' basePtr' indices' isGrad' harg hmem => ?_⟩
      rcases hlast id' basePtr' indices' isGrad' hmem with hmem | ⟨rfl, rfl⟩
      · exact hall id' basePtr' indices' isGrad' harg hmem
      · exact absurd harg.symm hne

theorem visit (hinv : ArrInv unique visited s) (stmt : BodyStmt) :
    ArrInv unique (visited ++ [stmt]) (s.visit taskType unique stmt) := by
  match stmt with
  | .pointer (.globalPtr id snode indices) =>
    exact hinv.skip (by simp)
      (UniquelyAccessedSNodeSearcher.visitGlobalPtr_accessedArrPointer _ _ _)
  | .pointer (.externalPtr id basePtr indices isGrad) =>
    exact hinv.visitExternalPtr id basePtr indices isGrad
  | .value _ | .decoration _ _ _ | .other _ | .pointer (.alloca _)
  | .pointer (.adStackAlloca _) | .pointer (.globalTemporary _ _)
  | .pointer (.threadLocalPtr _ _) | .pointer (.blockLocalPtr _ _)
  | .pointer (.externalTensorBasePtr _ _ _) | .pointer (.getCh _ _)
  | .pointer (.adStackLoadTop _ _) | .pointer (.matrixPtr _ _ _) => exact hinv.skip (by simp) rfl

theorem foldl (hinv : ArrInv unique visited s) (stmts : List BodyStmt) :
    ArrInv unique (visited ++ stmts)
      (stmts.foldl (UniquelyAccessedSNodeSearcher.visit taskType unique) s) := by
  induction stmts generalizing visited s with
  | nil => rwa [append_nil]
  | cons stmt stmts ih =>
    rw [append_cons]
    exact ih (hinv.visit stmt)

end ArrInv

theorem arrInv_gather (task : OffloadedTask) :
    ArrInv (task.searchUnique task.body) task.body task.gatherUniquelyAccessedPointers := by
  have hinit : ArrInv (task.searchUnique task.body) []
      ⟨fun _ => none, fun _ => false, fun _ => none⟩ := ⟨fun _ _ => rfl, nofun⟩
  exact hinit.foldl task.body

theorem snodeInv_gather (hmesh : task.taskType ≠ .meshFor) :
    SNodeInv (task.searchUnique task.body) task.body task.gatherUniquelyAccessedPointers := by
  have hinit : SNodeInv (task.searchUnique task.body) []
      ⟨fun _ => none, fun _ => false, fun _ => none⟩ :=
    ⟨fun _ _ _ _ => not_mem_nil, nofun⟩
  exact hinit.foldl hmesh task.body

end Verdict

end Quadrants.Analysis
