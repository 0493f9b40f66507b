import Quadrants.Analysis.UniqueVerdict

namespace Quadrants.Analysis

open List Option Function

section BitStruct

variable {bitLevel : BitLevel} {accessed : ℕ → Option (Option Ptr)} {processed : List ℕ}
  {result : ℕ → Option (Option Ptr)}

/-- A recorded pointer belongs to a member of the bit struct, and every other member is accessed
at indices of the same values. -/
structure BitInv (bitLevel : BitLevel) (accessed : ℕ → Option (Option Ptr))
    (processed : List ℕ) (result : ℕ → Option (Option Ptr)) : Prop where
  absent : ∀ ancestor, result ancestor = none → ∀ snode ∈ processed,
    bitLevel snode = some ancestor → ∀ ptr, accessed snode = some ptr →
    ptr.any Ptr.startsWithMeshIndex = true
  recorded : ∀ ancestor ptr, result ancestor = some (some ptr) →
    (∃ snode, bitLevel snode = some ancestor ∧ accessed snode = some (some ptr)) ∧
      ∀ snode ∈ processed, bitLevel snode = some ancestor → ∀ member, accessed snode = some member →
        ∃ ptr', member = some ptr' ∧ (ptr'.startsWithMeshIndex = true ∨
          ∀ entry ∈ ptr'.indices.zip ptr.indices, sameValue entry.1 entry.2 = true)

namespace BitInv

variable {snode : ℕ}

theorem skip (hinv : BitInv bitLevel accessed processed result)
    (hskip : ∀ ancestor, bitLevel snode = some ancestor → ∀ ptr, accessed snode = some ptr →
      ptr.any Ptr.startsWithMeshIndex = true) :
    BitInv bitLevel accessed (processed ++ [snode]) result := by
  refine ⟨fun ancestor h snode' hmem hlevel => ?_, fun ancestor ptr h => ?_⟩
  · rcases mem_append.mp hmem with hmem | hmem
    · exact hinv.absent ancestor h snode' hmem hlevel
    · obtain rfl := mem_singleton.mp hmem
      exact hskip ancestor hlevel
  · obtain ⟨hfrom, hall⟩ := hinv.recorded ancestor ptr h
    refine ⟨hfrom, fun snode' hmem hlevel member hmember => ?_⟩
    rcases mem_append.mp hmem with hmem | hmem
    · exact hall snode' hmem hlevel member hmember
    · obtain rfl := mem_singleton.mp hmem
      obtain ⟨ptr', hptr', hstarts⟩ :=
        (Option.any_eq_true _ _).mp (hskip ancestor hlevel member hmember)
      exact ⟨ptr', hptr', Or.inl hstarts⟩

theorem update (hinv : BitInv bitLevel accessed processed result) {ancestor : ℕ}
    (hlevel : bitLevel snode = some ancestor) (entry : Option Ptr)
    (hentry : ∀ ptr, entry = some ptr →
      (∃ snode, bitLevel snode = some ancestor ∧ accessed snode = some (some ptr)) ∧
      ∀ snode' ∈ processed ++ [snode], bitLevel snode' = some ancestor →
        ∀ member, accessed snode' = some member →
        ∃ ptr', member = some ptr' ∧ (ptr'.startsWithMeshIndex = true ∨
          ∀ entry ∈ ptr'.indices.zip ptr.indices, sameValue entry.1 entry.2 = true)) :
    BitInv bitLevel accessed (processed ++ [snode])
      (Function.update result ancestor (some entry)) := by
  have hother : ∀ ancestor', ancestor' ≠ ancestor → ∀ snode' ∈ processed ++ [snode],
      bitLevel snode' = some ancestor' → snode' ∈ processed := by
    intro ancestor' hne snode' hmem hlevel'
    rcases mem_append.mp hmem with hmem | hmem
    · exact hmem
    · obtain rfl := mem_singleton.mp hmem
      exact absurd (Option.some.inj (hlevel'.symm.trans hlevel)) hne
  refine ⟨fun ancestor' h snode' hmem hlevel' => ?_, fun ancestor' ptr h => ?_⟩
  · rcases eq_or_ne ancestor' ancestor with rfl | hne
    · rw [update_self] at h
      cases h
    · rw [update_of_ne hne] at h
      exact hinv.absent ancestor' h snode' (hother ancestor' hne snode' hmem hlevel') hlevel'
  · rcases eq_or_ne ancestor' ancestor with rfl | hne
    · rw [update_self] at h
      exact hentry ptr (Option.some.inj h)
    · rw [update_of_ne hne] at h
      obtain ⟨hfrom, hall⟩ := hinv.recorded ancestor' ptr h
      exact ⟨hfrom, fun snode' hmem hlevel' =>
        hall snode' (hother ancestor' hne snode' hmem hlevel') hlevel'⟩

theorem visit (hinv : BitInv bitLevel accessed processed result) {ptr1 : Option Ptr}
    (haccessed : accessed snode = some ptr1) {result' : ℕ → Option (Option Ptr)}
    (hvisit : visitBitStruct bitLevel result snode ptr1 = some result') :
    BitInv bitLevel accessed (processed ++ [snode]) result' := by
  unfold visitBitStruct at hvisit
  split at hvisit
  · rename_i hstarts
    obtain rfl := Option.some.inj hvisit
    apply hinv.skip
    intro ancestor _ ptr hptr
    obtain rfl := Option.some.inj (haccessed.symm.trans hptr)
    exact hstarts
  · split at hvisit
    · rename_i hlevel
      obtain rfl := Option.some.inj hvisit
      apply hinv.skip
      intro ancestor hancestor
      rw [hlevel] at hancestor
      cases hancestor
    · rename_i ancestor hlevel
      split at hvisit
      · rename_i hold _
        obtain rfl := Option.some.inj hvisit
        apply hinv.update hlevel
        rintro ptr rfl
        refine ⟨⟨snode, hlevel, haccessed⟩, fun snode' hmem hlevel' member hmember => ?_⟩
        rcases mem_append.mp hmem with hmem | hmem
        · obtain ⟨ptr', hptr', hstarts⟩ :=
            (Option.any_eq_true _ _).mp (hinv.absent ancestor hold snode' hmem hlevel' _ hmember)
          exact ⟨ptr', hptr', Or.inl hstarts⟩
        · obtain rfl := mem_singleton.mp hmem
          obtain rfl := Option.some.inj (haccessed.symm.trans hmember)
          refine ⟨ptr, rfl, Or.inr fun entry hentry => ?_⟩
          obtain ⟨axis, haxis⟩ := mem_iff_getElem?.mp hentry
          obtain ⟨hfst, hsnd⟩ := List.getElem?_zip_eq_some.mp haxis
          rw [Option.some.inj (hfst.symm.trans hsnd)]
          exact sameValue_refl _
      · obtain rfl := Option.some.inj hvisit
        exact hinv.update hlevel none nofun
      · cases hvisit
      · rename_i ptr2 ptr hold _
        split at hvisit
        · rename_i hall
          obtain rfl := Option.some.inj hvisit
          have hsame := all_eq_true.mp hall
          obtain ⟨hfrom, hmembers⟩ := hinv.recorded ancestor ptr2 hold
          have hentry := hinv.update hlevel (some ptr2) (by
            rintro _ ⟨⟩
            refine ⟨hfrom, fun snode' hmem hlevel' member hmember => ?_⟩
            rcases mem_append.mp hmem with hmem | hmem
            · exact hmembers snode' hmem hlevel' member hmember
            · obtain rfl := mem_singleton.mp hmem
              obtain rfl := Option.some.inj (haccessed.symm.trans hmember)
              exact ⟨ptr, rfl, Or.inr hsame⟩)
          rwa [← hold, update_eq_self] at hentry
        · obtain rfl := Option.some.inj hvisit
          exact hinv.update hlevel none nofun

theorem foldlM (hinv : BitInv bitLevel accessed processed result) (order : List ℕ)
    {result' : ℕ → Option (Option Ptr)} (hfold : order.foldlM (fun result snode =>
      match accessed snode with
      | some ptr => visitBitStruct bitLevel result snode ptr
      | none => some result) result = some result') :
    BitInv bitLevel accessed (processed ++ order) result' := by
  induction order generalizing processed result with
  | nil =>
    obtain rfl := Option.some.inj hfold
    rwa [append_nil]
  | cons snode order ih =>
    rw [append_cons]
    rw [foldlM_cons] at hfold
    obtain ⟨next, hnext, hrest⟩ := bind_eq_some_iff.mp hfold
    refine ih ?_ hrest
    split at hnext
    · rename_i ptr haccessed
      exact hinv.visit haccessed hnext
    · rename_i haccessed
      obtain rfl := Option.some.inj hnext
      apply hinv.skip
      intro _ _ ptr hptr
      rw [haccessed] at hptr
      cases hptr

end BitInv

theorem bitInv_gather {order : List ℕ} {result : ℕ → Option (Option Ptr)}
    (h : gatherUniquelyAccessedBitStructs bitLevel accessed order = some result) :
    BitInv bitLevel accessed order result := by
  have hinit : BitInv bitLevel accessed [] fun _ => none :=
    ⟨fun _ _ _ hmem => absurd hmem not_mem_nil, nofun⟩
  exact hinit.foldlM order h

end BitStruct

section Zip

variable {base mid indices indices' : List Val}

theorem mem_zip_of_mem_zip_zip {entry : Val × Val × Val}
    (h : entry ∈ base.zip (indices.zip indices')) :
    (entry.1, entry.2.1) ∈ base.zip indices ∧ (entry.1, entry.2.2) ∈ base.zip indices' := by
  obtain ⟨axis, haxis⟩ := mem_iff_getElem?.mp h
  rw [List.getElem?_zip_eq_some, List.getElem?_zip_eq_some] at haxis
  obtain ⟨hbase, hfst, hsnd⟩ := haxis
  exact ⟨mem_of_getElem? (List.getElem?_zip_eq_some.mpr ⟨hbase, hfst⟩),
    mem_of_getElem? (List.getElem?_zip_eq_some.mpr ⟨hbase, hsnd⟩)⟩

theorem exists_between (hlength : base.length = mid.length) {entry : Val × Val}
    (h : entry ∈ base.zip indices) :
    ∃ val, (entry.1, val) ∈ base.zip mid ∧ (val, entry.2) ∈ mid.zip indices := by
  obtain ⟨axis, haxis⟩ := mem_iff_getElem?.mp h
  obtain ⟨hbase, hindex⟩ := List.getElem?_zip_eq_some.mp haxis
  obtain ⟨hlt, -⟩ := List.getElem?_eq_some_iff.mp hbase
  have hmid : mid[axis]? = some mid[axis] := List.getElem?_eq_getElem (hlength ▸ hlt)
  exact ⟨mid[axis], mem_of_getElem? (List.getElem?_zip_eq_some.mpr ⟨hbase, hmid⟩),
    mem_of_getElem? (List.getElem?_zip_eq_some.mpr ⟨hmid, hindex⟩)⟩

theorem mem_zip_swap {entry : Val × Val} (h : entry ∈ base.zip indices) :
    entry.swap ∈ indices.zip base := by
  obtain ⟨axis, haxis⟩ := mem_iff_getElem?.mp h
  obtain ⟨hfst, hsnd⟩ := List.getElem?_zip_eq_some.mp haxis
  exact mem_of_getElem? (List.getElem?_zip_eq_some.mpr ⟨hsnd, hfst⟩)

end Zip

section Sound

variable {task : OffloadedTask} {bitLevel : BitLevel} {order : List ℕ} {target : Target}

/-- Members of one bit struct are accessed at as many indices, as the gatherer asserts. -/
def OffloadedTask.MembersAgree (task : OffloadedTask) (bitLevel : BitLevel) : Prop :=
  ∀ id id' snode snode' ancestor indices indices',
    bitLevel snode = some ancestor → bitLevel snode' = some ancestor →
    .pointer (.globalPtr id snode indices) ∈ task.body →
    .pointer (.globalPtr id' snode' indices') ∈ task.body → indices.length = indices'.length

variable {id snode : ℕ} {indices indices' : List Val}

theorem covered_of_base (hmesh : task.taskType ≠ .meshFor) {base : List Val}
    (hlength : base.length = indices.length) (hlength' : base.length = indices'.length)
    (hunique : task.ownUnique.isPtrIndicesLoopUnique base = true)
    (hequal : ∀ entry ∈ base.zip indices, (task.ownUnique.loopUnique entry.1).isSome = true →
      EqualIndex entry.1 entry.2)
    (hequal' : ∀ entry ∈ base.zip indices', (task.ownUnique.loopUnique entry.1).isSome = true →
      EqualIndex entry.1 entry.2) :
    task.Covered indices indices' := by
  apply covered_of_uniqueIndices hmesh hlength hlength' hunique
  intro entry hentry hsome
  obtain ⟨hfst, hsnd⟩ := mem_zip_of_mem_zip_zip hentry
  exact ⟨hequal _ hfst hsome, hequal' _ hsnd hsome⟩

theorem exists_representative (hwf : task.WellFormed) (hmesh : task.taskType ≠ .meshFor) {ptr : Ptr}
    (h : task.gatherUniquelyAccessedPointers.accessedPointer snode = some (some ptr)) :
    ∃ id base, ptr = .globalPtr id snode base ∧ .pointer (.globalPtr id snode base) ∈ task.body ∧
      (task.searchUnique task.body).isPtrIndicesLoopUnique base = true ∧
      ∀ id' indices, .pointer (.globalPtr id' snode indices) ∈ task.body →
        ∀ entry ∈ base.zip indices, EqualIndex entry.1 entry.2 := by
  obtain ⟨id, base, hptr, hmem, hunique, hall⟩ := (snodeInv_gather hmesh).recorded snode ptr h
  refine ⟨id, base, hptr, hmem, hunique, fun id' indices hmem' entry hentry => ?_⟩
  obtain ⟨-, hzip⟩ := forall₂_iff_zip.mp (hall id' indices hmem')
  have hmems := of_mem_zip hentry
  exact .rel _ _ ⟨hwf.indices_wellTyped _ hmem _ hmems.1, hwf.indices_wellTyped _ hmem' _ hmems.2,
    Or.inl (hzip hentry)⟩

theorem equalIndex_of_sameValue (hwf : task.WellFormed) {ptr ptr' : Ptr}
    (hmem : .pointer ptr ∈ task.body) (hmem' : .pointer ptr' ∈ task.body) {entry : Val × Val}
    (hentry : entry ∈ ptr.indices.zip ptr'.indices) (h : sameValue entry.1 entry.2 = true) :
    EqualIndex entry.1 entry.2 := by
  have hmems := of_mem_zip hentry
  exact .rel _ _ ⟨hwf.indices_wellTyped _ hmem _ hmems.1, hwf.indices_wellTyped _ hmem' _ hmems.2,
    Or.inr h⟩

theorem covered_snode (hwf : task.WellFormed) (hmesh : task.taskType ≠ .meshFor)
    (hown : ∀ stmt ∈ task.body, stmt.isInnerDecoration ≠ true)
    (hverdict : task.verdict bitLevel order (.snode snode) ≠ none) {id' : ℕ}
    (hmem : .pointer (.globalPtr id snode indices) ∈ task.body)
    (hmem' : .pointer (.globalPtr id' snode indices') ∈ task.body) :
    task.Covered indices indices' := by
  obtain ⟨ptr, hptr⟩ := ne_none_iff_exists'.mp hverdict
  have haccessed : task.gatherUniquelyAccessedPointers.accessedPointer snode = some (some ptr) :=
    join_eq_some_iff.mp hptr
  obtain ⟨id0, base, -, hbase, hunique, hall⟩ := exists_representative hwf hmesh haccessed
  rw [← ownUnique_eq hown] at hunique
  exact covered_of_base hmesh (hwf.globalPtr_length _ _ _ _ _ hbase hmem)
    (hwf.globalPtr_length _ _ _ _ _ hbase hmem') hunique
    (fun entry hentry _ => hall id indices hmem entry hentry)
    fun entry hentry _ => hall id' indices' hmem' entry hentry

theorem covered_first (hwf : task.WellFormed) (hmesh : task.taskType ≠ .meshFor)
    (hown : ∀ stmt ∈ task.body, stmt.isInnerDecoration ≠ true) {argId : List ℕ}
    (hverdict : task.verdict bitLevel order (.array argId) ≠ none) {basePtr : ArgLoad}
    {isGrad : Bool} (harg : basePtr.argId = argId)
    (hmem : .pointer (.externalPtr id basePtr indices isGrad) ∈ task.body) {first : Ptr}
    (hfirst : task.firstExternalPtr argId = some first) :
    task.Covered indices first.indices ∧ task.Covered first.indices indices := by
  obtain ⟨ptr, hptr⟩ := ne_none_iff_exists'.mp hverdict
  have haccessed : task.gatherUniquelyAccessedPointers.accessedArrPointer argId =
      some (some ptr) := join_eq_some_iff.mp hptr
  obtain ⟨hfirst', hall⟩ := (arrInv_gather task).recorded argId ptr haccessed
  obtain rfl : first = ptr := Option.some.inj (hfirst.symm.trans hfirst')
  obtain ⟨hunique, hsame⟩ := hall id basePtr indices isGrad harg hmem
  obtain ⟨stmt, hstmt, hof⟩ := List.exists_of_findSome?_eq_some hfirst
  obtain ⟨id0, basePtr0, indices0, isGrad0, harg0, rfl, rfl⟩ := BodyStmt.externalPtrOf_eq_some hof
  have hlength : indices.length = indices0.length :=
    hwf.externalPtr_length _ _ _ _ _ _ _ _ (harg.trans harg0.symm) hmem hstmt
  have hequal : ∀ entry ∈ indices.zip indices0,
      (task.ownUnique.loopUnique entry.1).isSome = true → EqualIndex entry.1 entry.2 := by
    intro entry hentry hsome
    rw [ownUnique_eq hown] at hsome
    exact @equalIndex_of_sameValue task hwf _ _ hmem hstmt entry hentry
      (sameValue_of_sameUniqueIndices hsame hentry hsome)
  have hself : ∀ entry ∈ indices.zip indices,
      (task.ownUnique.loopUnique entry.1).isSome = true → EqualIndex entry.1 entry.2 := by
    intro entry hentry _
    obtain ⟨axis, haxis⟩ := mem_iff_getElem?.mp hentry
    obtain ⟨hfst, hsnd⟩ := List.getElem?_zip_eq_some.mp haxis
    rw [Option.some.inj (hfst.symm.trans hsnd)]
    exact .refl _
  rw [← ownUnique_eq hown] at hunique
  exact ⟨covered_of_base hmesh rfl hlength hunique hself hequal,
    covered_of_base hmesh hlength rfl hunique hequal hself⟩

theorem covered_bitStruct (hwf : task.WellFormed) (hmembers : task.MembersAgree bitLevel)
    (horder : ∀ snode, task.gatherUniquelyAccessedPointers.accessedPointer snode ≠ none →
      snode ∈ order)
    (hmesh : task.taskType ≠ .meshFor)
    (hown : ∀ stmt ∈ task.body, stmt.isInnerDecoration ≠ true)
    (hstarts : ∀ ptr, .pointer ptr ∈ task.body → ptr.startsWithMeshIndex ≠ true) {ancestor : ℕ}
    (hverdict : task.verdict bitLevel order (.bitStruct ancestor) ≠ none)
    {id' snode' : ℕ}
    (hlevel : bitLevel snode = some ancestor) (hlevel' : bitLevel snode' = some ancestor)
    (hmem : .pointer (.globalPtr id snode indices) ∈ task.body)
    (hmem' : .pointer (.globalPtr id' snode' indices') ∈ task.body) :
    task.Covered indices indices' := by
  obtain ⟨ptr, hptr⟩ := ne_none_iff_exists'.mp hverdict
  obtain ⟨result, hresult, hjoin⟩ := bind_eq_some_iff.mp hptr
  obtain ⟨⟨snode0, hlevel0, haccessed0⟩, hall⟩ :=
    (bitInv_gather hresult).recorded ancestor ptr (join_eq_some_iff.mp hjoin)
  obtain ⟨id0, base, rfl, hbase, hunique, -⟩ := exists_representative hwf hmesh haccessed0
  have hequal : ∀ id snode indices, bitLevel snode = some ancestor →
      .pointer (.globalPtr id snode indices) ∈ task.body →
      ∀ entry ∈ base.zip indices, EqualIndex entry.1 entry.2 := by
    intro id snode indices hlevel hmem entry hentry
    have hsome : task.gatherUniquelyAccessedPointers.accessedPointer snode ≠ none :=
      fun h => (snodeInv_gather hmesh).absent snode h id indices hmem
    obtain ⟨member, hmember⟩ := ne_none_iff_exists'.mp hsome
    obtain ⟨ptr', rfl, hsame⟩ := hall snode (horder snode hsome) hlevel member hmember
    obtain ⟨id1, mid, rfl, hmid, -, hrep⟩ := exists_representative hwf hmesh hmember
    obtain ⟨val, hleft, hright⟩ := exists_between
      (hmembers _ _ _ _ _ _ _ hlevel0 hlevel hbase hmid) hentry
    rcases hsame with hmeshIndex | hsame
    · exact absurd hmeshIndex (hstarts _ hmid)
    · have hval : EqualIndex val entry.1 :=
        equalIndex_of_sameValue hwf hmid hbase (mem_zip_swap hleft) (hsame _ (mem_zip_swap hleft))
      exact .trans _ _ _ (.symm _ _ hval) (hrep id indices hmem _ hright)
  rw [← ownUnique_eq hown] at hunique
  exact covered_of_base hmesh (hmembers _ _ _ _ _ _ _ hlevel0 hlevel hbase hmem)
    (hmembers _ _ _ _ _ _ _ hlevel0 hlevel' hbase hmem') hunique
    (fun entry hentry _ => hequal id snode indices hlevel hmem entry hentry)
    fun entry hentry _ => hequal id' snode' indices' hlevel' hmem' entry hentry

theorem accessOf_indices {ptr : Ptr} {isGrad : Bool}
    (h : ptr.accessOf bitLevel target = some (isGrad, indices)) : ptr.indices = indices := by
  unfold Ptr.accessOf at h
  grind [Ptr.indices]

theorem globalPtr_of_accessOf_snode {ptr : Ptr} (h : ptr.accessOf bitLevel (.snode snode) ≠ none) :
    ∃ id indices, ptr = .globalPtr id snode indices := by
  unfold Ptr.accessOf at h
  split at h
  · rename_i id snode' indices
    rcases eq_or_ne snode' snode with rfl | hne
    · exact ⟨id, indices, rfl⟩
    · simp [hne] at h
  · exact absurd rfl h
  · exact absurd rfl h

theorem externalPtr_of_accessOf_array {argId : List ℕ} {ptr : Ptr}
    (h : ptr.accessOf bitLevel (.array argId) ≠ none) :
    ∃ id basePtr indices isGrad, ptr = .externalPtr id basePtr indices isGrad ∧
      basePtr.argId = argId := by
  unfold Ptr.accessOf at h
  split at h
  · exact absurd rfl h
  · rename_i id basePtr indices isGrad
    rcases eq_or_ne basePtr.argId argId with harg | hne
    · exact ⟨id, basePtr, indices, isGrad, rfl, harg⟩
    · simp [hne] at h
  · exact absurd rfl h

theorem globalPtr_of_accessOf_bitStruct {ancestor : ℕ} {ptr : Ptr}
    (h : ptr.accessOf bitLevel (.bitStruct ancestor) ≠ none) :
    ∃ id snode indices, ptr = .globalPtr id snode indices ∧ bitLevel snode = some ancestor := by
  unfold Ptr.accessOf at h
  split at h
  · rename_i id snode indices
    rcases eq_or_ne (bitLevel snode) (some ancestor) with hlevel | hne
    · exact ⟨id, snode, indices, rfl, hlevel⟩
    · simp [hne] at h
  · exact absurd rfl h
  · exact absurd rfl h

theorem covered_of_verdict (hwf : task.WellFormed) (hmembers : task.MembersAgree bitLevel)
    (horder : ∀ snode, task.gatherUniquelyAccessedPointers.accessedPointer snode ≠ none →
      snode ∈ order)
    (hverdict : task.verdict bitLevel order target ≠ none) {ptr ptr' : Ptr}
    (hmem : .pointer ptr ∈ task.body) (hmem' : .pointer ptr' ∈ task.body)
    (haccess : ptr.accessOf bitLevel target ≠ none)
    (haccess' : ptr'.accessOf bitLevel target ≠ none)
    (hexposed : ¬task.Exposed target ptr ptr') : task.Covered ptr.indices ptr'.indices := by
  apply Classical.byContradiction
  intro hcovered
  have hkinds := fun hkind => hexposed ⟨hcovered, hkind⟩
  have hown : ∀ stmt ∈ task.body, stmt.isInnerDecoration ≠ true :=
    fun stmt hstmt h => hkinds (Or.inl ⟨stmt, hstmt, h⟩)
  have hmesh : task.taskType ≠ .meshFor := fun h => hkinds (Or.inr (Or.inl h))
  cases target with
  | snode snode =>
    obtain ⟨id, indices, rfl⟩ := globalPtr_of_accessOf_snode haccess
    obtain ⟨id', indices', rfl⟩ := globalPtr_of_accessOf_snode haccess'
    exact hcovered (covered_snode hwf hmesh hown hverdict hmem hmem')
  | array argId =>
    obtain ⟨id, basePtr, indices, isGrad, rfl, harg⟩ := externalPtr_of_accessOf_array haccess
    obtain ⟨id', basePtr', indices', isGrad', rfl, harg'⟩ :=
      externalPtr_of_accessOf_array haccess'
    rcases Classical.em (task.firstExternalPtr argId =
        some (.externalPtr id basePtr indices isGrad)) with hfirst | hfirst
    · exact hcovered (covered_first hwf hmesh hown hverdict harg' hmem' hfirst).2
    · rcases Classical.em (task.firstExternalPtr argId =
          some (.externalPtr id' basePtr' indices' isGrad')) with hfirst' | hfirst'
      · exact hcovered (covered_first hwf hmesh hown hverdict harg hmem hfirst').1
      · exact hkinds (Or.inr (Or.inr (Or.inl ⟨argId, rfl, hfirst, hfirst'⟩)))
  | bitStruct ancestor =>
    obtain ⟨id, snode, indices, rfl, hlevel⟩ := globalPtr_of_accessOf_bitStruct haccess
    obtain ⟨id', snode', indices', rfl, hlevel'⟩ := globalPtr_of_accessOf_bitStruct haccess'
    have hstarts : ∀ ptr, .pointer ptr ∈ task.body → ptr.startsWithMeshIndex ≠ true :=
      fun ptr hptr h =>
        hkinds (Or.inr (Or.inr (Or.inr ⟨ancestor, ptr, rfl, hptr, h⟩)))
    exact hcovered (covered_bitStruct hwf hmembers horder hmesh hown hstarts hverdict hlevel
      hlevel' hmem hmem')

/-- Where the analysis returns a pointer, the iterations share no cell just in case neither the
pairs of pointers it leaves exposed nor the accesses it does not look at meet across
iterations. -/
theorem uniqueAccessSound_iff (hwf : task.WellFormed) (hmembers : task.MembersAgree bitLevel)
    (horder : ∀ snode, task.gatherUniquelyAccessedPointers.accessedPointer snode ≠ none →
      snode ∈ order)
    (runs : TaskRun task → Prop) (hverdict : task.verdict bitLevel order target ≠ none) :
    UniqueAccessSound task runs bitLevel order target ↔
      ∀ r, runs r → r.OthersNeverMeet bitLevel target ∧
        ∀ ptr ptr', .pointer ptr ∈ task.body → .pointer ptr' ∈ task.body →
          task.Exposed target ptr ptr' → r.NeverMeet bitLevel target ptr ptr' := by
  constructor
  · intro hsound r hr
    have hsharing := hsound hverdict r hr
    refine ⟨fun s t cell hother htouches => ?_, fun ptr ptr' _ _ _ s t cell hptr hptr' => ?_⟩
    · exact hsharing s t cell (Or.inr hother) htouches
    · exact hsharing s t cell (Or.inl ⟨ptr, hptr⟩) (Or.inl ⟨ptr', hptr'⟩)
  · intro hmeet _ r hr s t cell hs ht
    obtain ⟨hothers, hexposed⟩ := hmeet r hr
    rcases hs with ⟨ptr, hptr⟩ | hs
    · rcases ht with ⟨ptr', hptr'⟩ | ht
      · obtain ⟨σ, isGrad, indices, hexec, haccess, hcell⟩ := id hptr
        obtain ⟨τ, isGrad', indices', hexec', haccess', hcell'⟩ := id hptr'
        obtain ⟨hσ, hmem⟩ := r.executes_state s ptr σ hexec
        obtain ⟨hτ, hmem'⟩ := r.executes_state t ptr' τ hexec'
        rcases Classical.em (task.Exposed target ptr ptr') with h | h
        · exact hexposed ptr ptr' hmem hmem' h s t cell hptr hptr'
        · have hcovered := covered_of_verdict hwf hmembers horder hverdict hmem hmem'
            (by rw [haccess]; nofun) (by rw [haccess']; nofun) h
          rw [accessOf_indices haccess, accessOf_indices haccess'] at hcovered
          exact hcovered.eq_of_value_eq hwf r hσ hτ
            (Prod.mk.inj (hcell.symm.trans hcell')).2
      · exact (hothers t s cell ht (Or.inl ⟨ptr, hptr⟩)).symm
    · exact hothers s t cell hs ht

end Sound

def loopVariable : Val := .loopIndex 1 .offloaded 0

def cellPtr (id : ℕ) (row column : Val) : Ptr := .externalPtr id ⟨0, [0]⟩ [row, column] false

def eightTask (pointers : List Ptr) : OffloadedTask where
  taskType := .rangeFor
  body := [.value loopVariable, .value (.const 2 .i32 5), .value (.const 3 .i32 7)] ++
    pointers.map .pointer

def eightState (t : Fin 8) : Valuation := Valuation.ofInput (fun _ _ => (t : ℕ)) fun _ => 0

theorem eightState_loopIndex (t : Fin 8) (id : ℕ) (loop : Loop) (index : ℕ) :
    (eightState t).value (.loopIndex id loop index) = (t : ℕ) := by
  have hwrap : int32 ((t : ℕ) : ℤ) = (t : ℕ) := by
    unfold int32
    rw [Int.bmod_eq_of_le] <;> omega
  simp only [eightState, Valuation.ofInput, Val.evalWith, hwrap]

def eightRun (pointers : List Ptr) : TaskRun (eightTask pointers) where
  Iteration := Fin 8
  coordinate _ t := (t : ℕ)
  state t σ := σ = eightState t
  executes t ptr σ := σ = eightState t ∧ .pointer ptr ∈ (eightTask pointers).body
  otherAccess _ _ _ := False
  executes_state _ _ _ h := h
  coordinates_inj _ s t h := by
    have h0 : ((s : ℕ) : ℤ) = (t : ℕ) := h 0 (by
      simp [OffloadedTask.axes, OffloadedTask.decoratedAxes, eightTask, BodyStmt.ownAxis])
    exact Fin.ext (Int.ofNat.inj h0)
  loopIndex_inj _ s t σ τ hσ hτ id index _ h := by
    rw [hσ, hτ, eightState_loopIndex, eightState_loopIndex] at h
    exact h
  decoration_inj s t σ τ _ _ operand axis hmem _ := by simp [eightTask] at hmem
  loopUnique_inj s t σ τ _ _ id dt input covers hmem _ := by
    simp [eightTask, loopVariable] at hmem
  shape_const s t σ τ hσ hτ id axis argId := by
    rw [hσ, hτ]
    rfl
  operators_const s t σ τ hσ hτ := by
    rw [hσ, hτ]
    exact ⟨rfl, rfl⟩
  fromEnd_inj s t σ τ _ _ val h _ := by
    have hmesh : (eightTask pointers).taskType ≠ .meshFor := nofun
    rw [UniquelyAccessedSNodeSearcher.isFromEnd_eq_false hmesh] at h
    cases h

def crossPointers : List Ptr :=
  [cellPtr 10 loopVariable loopVariable, cellPtr 11 loopVariable (.const 2 .i32 5),
    cellPtr 12 (.const 3 .i32 7) loopVariable]

/-- The analysis calls the array uniquely accessed, and iterations 5 and 7 both access
`a[7, 5]`. -/
theorem crossPointers_not_sound :
    (eightTask crossPointers).verdict (fun _ => none) [] (.array [0]) ≠ none ∧
      ¬UniqueAccessSound (eightTask crossPointers) (· = eightRun crossPointers) (fun _ => none) []
        (.array [0]) := by
  have hverdict : (eightTask crossPointers).verdict (fun _ => none) [] (.array [0]) ≠ none := by
    decide
  refine ⟨hverdict, fun hsound => ?_⟩
  have hshared := hsound hverdict (eightRun crossPointers) rfl (5 : Fin 8) (7 : Fin 8)
    (false, [7, 5])
  have hfive : (eightRun crossPointers).touches (fun _ => none) (.array [0]) (5 : Fin 8)
      (false, [7, 5]) := by
    refine Or.inl ⟨cellPtr 12 (.const 3 .i32 7) loopVariable, eightState 5, false, _, ⟨rfl, ?_⟩,
      rfl, by decide⟩
    decide
  have hseven : (eightRun crossPointers).touches (fun _ => none) (.array [0]) (7 : Fin 8)
      (false, [7, 5]) := by
    refine Or.inl ⟨cellPtr 11 loopVariable (.const 2 .i32 5), eightState 7, false, _, ⟨rfl, ?_⟩,
      rfl, by decide⟩
    decide
  exact absurd (hshared hfive hseven) (show (5 : Fin 8) ≠ 7 by decide)

def columnPointers : List Ptr :=
  [cellPtr 10 loopVariable (.const 2 .i32 5), cellPtr 11 loopVariable (.const 3 .i32 7)]

theorem columnPointers_wellFormed : (eightTask columnPointers).WellFormed where
  wellTyped val h := by
    simp [eightTask, columnPointers] at h
    rcases h with rfl | rfl | rfl <;> simp [loopVariable, Val.WellTyped, DataType.wrap, DataType.i32]
  indices_wellTyped ptr h index hindex := by
    simp [eightTask, columnPointers] at h
    rcases h with rfl | rfl <;> simp [cellPtr, Ptr.indices] at hindex <;>
      rcases hindex with rfl | rfl <;>
      simp [loopVariable, Val.WellTyped, DataType.wrap, DataType.i32]
  loopIndex_mem id index h := by
    simp [eightTask, columnPointers, loopVariable] at h
    simp [h, OffloadedTask.axes, OffloadedTask.decoratedAxes, eightTask, columnPointers,
      BodyStmt.ownAxis]
  activeIndices_nodup _ h := by cases h
  decoration_binary _ _ _ h := by simp [eightTask, columnPointers] at h
  decoration_axis _ _ _ _ _ h := by simp [eightTask, columnPointers] at h
  decoration_complete _ _ h := by simp [eightTask, columnPointers] at h
  globalPtr_length _ _ _ _ _ h := by simp [eightTask, columnPointers, cellPtr] at h
  externalPtr_length id id' base base' indices indices' isGrad isGrad' _ h h' := by
    simp [eightTask, columnPointers, cellPtr] at h h'
    grind

theorem row_of_accesses {t : Fin 8} {ptr : Ptr} {cell : Bool × List ℤ}
    (h : (eightRun columnPointers).accesses (fun _ => none) (.array [0]) t ptr cell) :
    cell.2.head? = some ((t : ℕ) : ℤ) := by
  obtain ⟨σ, isGrad, indices, ⟨rfl, hmem⟩, haccess, rfl⟩ := h
  simp [eightTask, columnPointers] at hmem
  have hindices := accessOf_indices haccess
  rcases hmem with rfl | rfl <;>
    simp [← hindices, cellPtr, Ptr.indices, loopVariable, eightState_loopIndex]

theorem columnPointers_sound :
    (eightTask columnPointers).verdict (fun _ => none) [] (.array [0]) ≠ none ∧
      UniqueAccessSound (eightTask columnPointers) (· = eightRun columnPointers) (fun _ => none) []
        (.array [0]) := by
  have hverdict : (eightTask columnPointers).verdict (fun _ => none) [] (.array [0]) ≠ none := by
    decide
  refine ⟨hverdict, (uniqueAccessSound_iff columnPointers_wellFormed nofun (fun snode h => ?_) _
    hverdict).mpr ?_⟩
  · exact absurd rfl h
  · rintro r rfl
    refine ⟨fun _ _ _ h => h.elim, fun ptr ptr' _ _ _ s t cell hptr hptr' => ?_⟩
    have hrow := Option.some.inj ((row_of_accesses hptr).symm.trans (row_of_accesses hptr'))
    exact Fin.ext (Int.ofNat.inj hrow)

end Quadrants.Analysis
