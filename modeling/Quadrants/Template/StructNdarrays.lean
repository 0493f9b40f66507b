import Quadrants.Template.LookupRuns

namespace Quadrants.Template

open List

structure Access where
  argIdx : ℕ
  chain : List Attr
  deriving DecidableEq

structure Visit where
  nd : ObjId
  access : Access
  deriving DecidableEq

section Compile

variable (h : Heap) (argMetas : List ArgMetadata) (args : List ObjId)

def resolve (access : Access) : Option ObjId := do
  let arg ← args[access.argIdx]?
  let member ← h.followChain (h.unwrap arg) access.chain
  pure (h.unwrap member)

def isStructSlot (argMeta : ArgMetadata) : Bool :=
  match argMeta.annot with
  | .template | .tensor => true
  | _ => false

def visitsOf (slot : (ArgMetadata × ObjId) × ℕ) : List Visit :=
  if isStructSlot slot.1.1 && !h.isNdarray (h.unwrap slot.1.2) then
    (h.structNdarrays (h.unwrap slot.1.2)).map fun found => ⟨found.1, slot.2, found.2⟩
  else []

def visits : List Visit := (argMetas.zip args).zipIdx.flatMap (visitsOf h)

/-- `_register_ndarray`: the slots that have been declared, in order. In the enforcing pass only
the ndarrays that the first pass has seen used get one. -/
def registerNdarray (usedIds : Option (List ObjId)) (declared : List Visit) (visit : Visit) :
    List Visit :=
  if declared.any (fun other => other.nd = visit.nd) then declared
  else if usedIds.any (fun ids => visit.nd ∉ ids) then declared
  else declared ++ [visit]

def predeclareStructNdarrays (usedIds : Option (List ObjId)) : List Visit :=
  (visits h argMetas args).foldl (registerNdarray usedIds) []

def usedStructNdarrayIds (accesses : List Access) : List ObjId :=
  (accesses.filterMap (resolve h args)).filter fun nd =>
    (predeclareStructNdarrays h argMetas args none).any fun visit => visit.nd = nd

def launchInfo (accesses : List Access) : List Visit :=
  predeclareStructNdarrays h argMetas args (some (usedStructNdarrayIds h argMetas args accesses))

def slotOf (accesses : List Access) (access : Access) : Option ℕ := do
  let nd ← resolve h args access
  (launchInfo h argMetas args accesses).findIdx? fun visit => visit.nd = nd

def Compiles (accesses : List Access) : Prop :=
  ∀ access ∈ accesses, access.chain ≠ [] ∧
    ((argMetas.zip args)[access.argIdx]?).any (fun slot => isStructSlot slot.1 &&
      !h.isNdarray (h.unwrap slot.2)) = true ∧
    (resolve h args access).any h.isNdarray = true

instance (accesses : List Access) : Decidable (Compiles h argMetas args accesses) :=
  inferInstanceAs (Decidable (∀ access ∈ accesses, _))

def firstPath (access : Access) : Option Access := do
  let nd ← resolve h args access
  let visit ← (visits h argMetas args).find? fun visit => visit.nd = nd
  pure visit.access

end Compile

def boundAt (h : Heap) (args : List ObjId) (info : List Visit) (slot : ℕ) : Option ObjId := do
  let visit ← info[slot]?
  resolve h args visit.access

/-- Each access reads the ndarray that is at its path when the kernel is launched. -/
def BoundByPath (argMetas : List ArgMetadata) (compileHeap launchHeap : Heap)
    (compileArgs launchArgs : List ObjId) (accesses : List Access) : Prop :=
  ∀ access ∈ accesses, ∃ slot,
    slotOf compileHeap argMetas compileArgs accesses access = some slot ∧
      boundAt launchHeap launchArgs (launchInfo compileHeap argMetas compileArgs accesses) slot =
        resolve launchHeap launchArgs access

/-- The path of an access and the path under which its ndarray was declared lead to the same
ndarray when the kernel is launched. -/
def StillAliased (argMetas : List ArgMetadata) (compileHeap launchHeap : Heap)
    (compileArgs launchArgs : List ObjId) (access : Access) : Prop :=
  ∀ first, firstPath compileHeap argMetas compileArgs access = some first →
    resolve launchHeap launchArgs first = resolve launchHeap launchArgs access

theorem find_registerNdarray (usedIds : Option (List ObjId)) (nd : ObjId)
    (hused : usedIds.all (fun ids => nd ∈ ids) = true) (visits declared : List Visit) :
    (visits.foldl (registerNdarray usedIds) declared).find? (fun visit => visit.nd = nd) =
      (declared.find? fun visit => visit.nd = nd).or
        (visits.find? fun visit => visit.nd = nd) := by
  induction visits generalizing declared with
  | nil => rw [foldl_nil, List.find?_nil, Option.or_none]
  | cons visit visits ih =>
    rw [foldl_cons, ih, List.find?_cons]
    unfold registerNdarray
    by_cases hnd : visit.nd = nd
    · have hkeep : usedIds.any (fun ids => visit.nd ∉ ids) = false := by
        cases usedIds with
        | none => rfl
        | some ids =>
          have hmem : nd ∈ ids := by simpa using hused
          simpa [hnd] using hmem
      split
      · rename_i hany
        obtain ⟨other, hother, heq⟩ := any_eq_true.mp hany
        have hsome : (declared.find? fun visit => visit.nd = nd).isSome := by
          rw [List.find?_isSome]
          exact ⟨other, hother, by simpa [hnd] using heq⟩
        obtain ⟨found, hfound⟩ := Option.isSome_iff_exists.mp hsome
        rw [hfound]
        rfl
      · rw [hkeep]
        rename_i hany
        have hnone : (declared.find? fun visit => visit.nd = nd) = none := by
          rw [List.find?_eq_none]
          intro other hother heq
          apply hany
          rw [any_eq_true]
          exact ⟨other, hother, by simpa [hnd] using heq⟩
        rw [if_neg (by decide), List.find?_append, hnone, List.find?_cons, decide_eq_true hnd]
        rfl
    · rw [decide_eq_false hnd]
      split
      · rfl
      · split
        · rfl
        · rw [List.find?_append, List.find?_cons, decide_eq_false hnd, List.find?_nil,
            Option.or_none]

section Bound

variable {argMetas : List ArgMetadata} {h : Heap} {args : List ObjId} {accesses : List Access}

theorem resolve_eq_some {access : Access} {nd : ObjId} (hnd : resolve h args access = some nd) :
    ∃ arg member, args[access.argIdx]? = some arg ∧
      h.followChain (h.unwrap arg) access.chain = some member ∧ h.unwrap member = nd := by
  obtain ⟨arg, harg, hnd⟩ := Option.bind_eq_some_iff.mp hnd
  obtain ⟨member, hmember, hnd⟩ := Option.bind_eq_some_iff.mp hnd
  exact ⟨arg, member, harg, hmember, Option.some.inj hnd⟩

theorem exists_visit (hcompiles : Compiles h argMetas args accesses) {access : Access}
    (haccess : access ∈ accesses) : ∃ nd visit, resolve h args access = some nd ∧
      (visits h argMetas args).find? (fun visit => visit.nd = nd) = some visit := by
  obtain ⟨hchain, hslot, hresolve⟩ := hcompiles access haccess
  obtain ⟨slot, hslot, hstruct⟩ := (Option.any_eq_true _ _).mp hslot
  obtain ⟨nd, hnd, hndarray⟩ := (Option.any_eq_true _ _).mp hresolve
  obtain ⟨arg, member, harg, hmember, rfl⟩ := resolve_eq_some hnd
  have hsame : slot.2 = arg := by
    have hsecond := (List.getElem?_zip_eq_some.mp hslot).2
    exact Option.some.inj (hsecond.symm.trans harg)
  obtain ⟨attr, chain, hcons⟩ := exists_cons_of_ne_nil hchain
  rw [hcons] at hmember
  obtain ⟨chain', hmem⟩ := Heap.mem_structNdarrays hmember hndarray
  have hvisit : (⟨h.unwrap member, access.argIdx, chain'⟩ : Visit) ∈ visits h argMetas args := by
    refine mem_flatMap.mpr ⟨(slot, access.argIdx), ?_, ?_⟩
    · rw [mem_zipIdx_iff_getElem?]
      exact hslot
    · unfold visitsOf
      rw [hstruct, hsame]
      exact mem_map.mpr ⟨_, hmem, rfl⟩
  have hsome : ((visits h argMetas args).find? fun visit => visit.nd = h.unwrap member).isSome := by
    rw [List.find?_isSome]
    exact ⟨_, hvisit, decide_eq_true rfl⟩
  obtain ⟨visit, hvisit⟩ := Option.isSome_iff_exists.mp hsome
  exact ⟨h.unwrap member, visit, hnd, hvisit⟩

theorem slotOf_access (hcompiles : Compiles h argMetas args accesses) {access : Access}
    (haccess : access ∈ accesses) :
    ∃ slot visit, slotOf h argMetas args accesses access = some slot ∧
      (launchInfo h argMetas args accesses)[slot]? = some visit ∧
      firstPath h argMetas args access = some visit.access := by
  obtain ⟨nd, visit, hnd, hvisit⟩ := exists_visit hcompiles haccess
  have hdeclared : (predeclareStructNdarrays h argMetas args none).find?
      (fun visit => visit.nd = nd) = some visit := by
    have hfind := find_registerNdarray none nd rfl (visits h argMetas args) []
    rw [hvisit] at hfind
    exact hfind
  have hused : nd ∈ usedStructNdarrayIds h argMetas args accesses := by
    refine mem_filter.mpr ⟨mem_filterMap.mpr ⟨access, haccess, hnd⟩, ?_⟩
    have hsat := List.find?_some hdeclared
    rw [any_eq_true]
    exact ⟨visit, List.mem_of_find?_eq_some hdeclared, hsat⟩
  have hinfo : (launchInfo h argMetas args accesses).find? (fun visit => visit.nd = nd) =
      some visit := by
    have hfind := find_registerNdarray (some (usedStructNdarrayIds h argMetas args accesses)) nd
      (by simpa using hused) (visits h argMetas args) []
    rw [hvisit] at hfind
    exact hfind
  rw [List.find?_eq_bind_findIdx?_getElem?] at hinfo
  obtain ⟨slot, hslot, hget⟩ := Option.bind_eq_some_iff.mp hinfo
  refine ⟨slot, visit, ?_, hget, ?_⟩
  · unfold slotOf
    rw [hnd]
    exact hslot
  · unfold firstPath
    rw [hnd, Option.bind_eq_bind, Option.bind_some, hvisit]
    rfl

end Bound

/-- Two members that are one ndarray at the first call, the second of which is then another
ndarray of the same features. -/
def aliasRebound : List Event :=
  [.alloc 10 (.ndarray ⟨32, some [4], false, none⟩),
    .alloc 1 (.dataOriented 7 false [("x", 10), ("y", 10)]), .call [1],
    .alloc 11 (.ndarray ⟨32, some [4], false, none⟩), .setattr 1 "y" 11, .call [1]]

def aliasKept : List Event :=
  [.alloc 10 (.ndarray ⟨32, some [4], false, none⟩),
    .alloc 1 (.dataOriented 7 false [("x", 10), ("y", 10)]), .call [1],
    .alloc 11 (.ndarray ⟨32, some [4], false, none⟩), .setattr 1 "x" 11, .setattr 1 "y" 11,
    .call [1]]

def heapsAtCalls (events : List Event) : List Heap :=
  (World.start.run false templateArg events).map fun answer => answer.world.heap

def countsOf (events : List Event) : List ℕ :=
  (World.start.run false templateArg events).map Answer.count

end Quadrants.Template
