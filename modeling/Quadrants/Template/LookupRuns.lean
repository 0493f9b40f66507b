import Quadrants.Template.LookupAgrees

namespace Quadrants.Template

open List

variable {raiseOnTemplatedFloats : Bool} {argMetas : List ArgMetadata}

section Carry

variable {w w' : World} {entry : Entry}

theorem isAbsent_eq_face (h : Heap) (argMeta : ArgMetadata) (arg : ObjId) : isAbsent h argMeta arg =
      match argMeta.annot, h.face arg with
      | .ndarray _, some ⟨_, .primitive _ none⟩ => argMeta.optional
      | _, _ => false := by
  unfold isAbsent Heap.get Heap.face
  cases argMeta.annot with
  | ndarray needsGrad =>
    cases h.cell arg with
    | none => rfl
    | some cell =>
      obtain ⟨serial, obj⟩ := cell
      cases obj with
      | primitive isFloat value => cases value <;> rfl
      | _ => rfl
  | _ => rfl

theorem live_iff_face {h : Heap} {arg : ObjId} : h.Live arg ↔ (h.face arg).isSome := by
  unfold Heap.Live Heap.face
  rw [Option.isSome_map]

structure SlotKept (w w' : World) (slot : ArgMetadata × ObjId) : Prop where
  face : slot.1.annot.inertKey = none → w'.heap.face slot.2 = w.heap.face slot.2
  agrees : slot.1.annot.Agrees w.heap w'.heap slot.2
  paths : ∀ chains, w.caches.ndPaths.lookup slot.2 = some chains →
    w'.caches.ndPaths.lookup slot.2 = some chains

/-- What a step must leave alone for a member: it does not come to life again, and stays what it
is as long as it lives. -/
def MemberKept (w w' : World) (id : ObjId) : Prop :=
  w'.heap.Live id → w.heap.Live id ∧ memberInfo w'.heap id = memberInfo w.heap id

theorem ArgServed.carry {argMeta : ArgMetadata} {arg : ObjId} {ids : List ObjId} {part : KeyPart}
    (hserved : ArgServed raiseOnTemplatedFloats w entry argMeta arg ids part)
    (hslot : arg ∈ entry.tracked ++ entry.pinned → w.heap.Live arg → SlotKept w w' (argMeta, arg))
    (hids : ∀ id ∈ ids, MemberKept w w' id) :
    ArgServed raiseOnTemplatedFloats w' entry argMeta arg ids part := by
  cases hserved with
  | inert hinert => exact .inert hinert
  | absent hlive hheld habsent =>
    obtain ⟨⟨needsGrad, hannot⟩, -⟩ := isAbsent_cases habsent
    have hinert : argMeta.annot.inertKey = none := by rw [hannot]; rfl
    have hface := (hslot hheld hlive).face hinert
    refine .absent ?_ hheld ?_
    · rw [live_iff_face, hface, ← live_iff_face]
      exact hlive
    · rw [isAbsent_eq_face, hface, ← isAbsent_eq_face]
      exact habsent
  | plain hinert hlive hheld habsent hsettled =>
    have hkept := hslot hheld hlive
    have hface := hkept.face hinert
    refine .plain hinert ?_ hheld ?_ (hsettled.congr hkept.agrees)
    · rw [live_iff_face, hface, ← live_iff_face]
      exact hlive
    · rw [isAbsent_eq_face, hface, ← isAbsent_eq_face]
      exact habsent
  | @walked serial cls attrs chains ids infos part hcell hheld hpart hchains hlength hinfos =>
    have hlive : w.heap.Live arg := by
      unfold Heap.Live
      rw [hcell]
      rfl
    have hkept := hslot hheld hlive
    have hinert : argMeta.annot.inertKey = none := by
      unfold AnnotationType.walkedKey at hpart
      split at hpart
      · rename_i hannot
        rw [hannot]
        rfl
      · rename_i hannot
        rw [hannot]
        rfl
      · cases hpart
    have hface := hkept.face hinert
    unfold Heap.face at hface
    rw [hcell] at hface
    obtain ⟨cell', hcell', heq⟩ := Option.map_eq_some_iff.mp hface
    obtain ⟨serial', obj'⟩ := cell'
    cases obj' with
    | dataOriented cls' stableMembers' attrs' =>
      obtain ⟨rfl, hobj⟩ := Cell.mk.inj heq
      obtain ⟨rfl, rfl, -⟩ := PyObj.dataOriented.inj hobj
      refine .walked hcell' hheld hpart (hkept.paths chains hchains) hlength ?_
      refine List.Forall₂.imp (R := fun id info => id ∈ ids ∧
        (w.heap.Live id → memberInfo w.heap id = info)) ?_ ?_
      · rintro id info ⟨hid, hinfo⟩ hlive'
        obtain ⟨hlive, heq⟩ := hids id hid hlive'
        rw [heq]
        exact hinfo hlive
      · exact (forall₂_and_left _ _).mpr ⟨fun id hid => hid, hinfos⟩
    | _ => cases heq

theorem ArgsServed.carry {argMetas : List ArgMetadata} {args ids : List ObjId} {key : Key}
    (hserved : ArgsServed raiseOnTemplatedFloats w entry argMetas args ids key)
    (hslots : ∀ slot ∈ argMetas.zip args, slot.2 ∈ entry.tracked ++ entry.pinned →
      w.heap.Live slot.2 → SlotKept w w' slot)
    (hids : ∀ id ∈ ids, MemberKept w w' id) :
    ArgsServed raiseOnTemplatedFloats w' entry argMetas args ids key := by
  induction hserved with
  | nil => exact .nil
  | cons harg _ ih =>
    refine .cons (harg.carry (hslots _ mem_cons_self)
      fun id hid => hids id (mem_append_left _ hid)) ?_
    exact ih (fun slot hslot => hslots slot (mem_cons_of_mem _ hslot))
      fun id hid => hids id (mem_append_right _ hid)

theorem EntryServed.carry (hserved : EntryServed raiseOnTemplatedFloats argMetas w entry)
    (hslots : ∀ slot ∈ argMetas.zip entry.argsHash, slot.2 ∈ entry.tracked ++ entry.pinned →
      w.heap.Live slot.2 → SlotKept w w' slot)
    (hids : ∀ id ∈ entry.memberIds argMetas.length, MemberKept w w' id)
    (hmapping : w.mapper.mapping <+: w'.mapper.mapping) :
    EntryServed raiseOnTemplatedFloats argMetas w' entry := by
  obtain ⟨args, ids, hhash, hlength, hargs⟩ := hserved.args
  refine ⟨⟨args, ids, hhash, hlength, hargs.carry (fun slot hslot => hslots slot ?_)
    fun id hid => hids id ?_⟩, ?_⟩
  · rw [hhash]
    rw [← append_nil argMetas, zip_append hlength.symm]
    exact mem_append_left _ hslot
  · unfold Entry.memberIds
    rw [hhash, ← hlength, drop_left]
    exact hid
  · obtain ⟨rest, hrest⟩ := hmapping
    rw [← hrest, idxOf_append_of_mem hserved.number.1]
    exact ⟨mem_append_left _ hserved.number.1, hserved.number.2⟩

end Carry

section Steps

variable {w : World}

theorem World.Served.alloc (hserved : w.Served raiseOnTemplatedFloats argMetas) {id : ObjId}
    {obj : PyObj} (hallowed : (Event.alloc id obj).Allowed w)
    (hnoticed : (Event.alloc id obj).Noticed argMetas w) :
    (w.step raiseOnTemplatedFloats argMetas (.alloc id obj)).Served raiseOnTemplatedFloats
      argMetas := by
  obtain ⟨hfree, hlive, hflat⟩ := hallowed
  have hkeeps := hserved.sound.keeps_alloc ⟨w.nextSerial, obj⟩ hfree
  refine ⟨hserved.sound.alloc hfree hlive ?_, fun entry hentry => ?_, fun entry hentry => ?_,
    hserved.nodup⟩
  · rintro impl rfl
    exact hflat
  · exact (hserved.specKeys entry hentry).keep hkeeps fun h => h
  · refine (hserved.entries entry hentry).carry (fun slot _ _ hslot => ?_) (fun id' hid' => ?_)
      (prefix_refl _)
    · exact ⟨fun _ => hkeeps.face hslot, hkeeps.agrees hslot, fun _ hchains => hchains⟩
    · have hne : id' ≠ id := by
        rintro rfl
        exact hnoticed entry hentry hid'
      intro hlive'
      have hlive' : w.heap.Live id' := by
        change (Heap.cell ((id, ⟨w.nextSerial, obj⟩) :: w.heap) id').isSome at hlive'
        rw [Heap.Sound.cell_alloc, if_neg hne] at hlive'
        exact hlive'
      exact ⟨hlive', hkeeps.memberInfo hlive'⟩

theorem World.Served.free (hserved : w.Served raiseOnTemplatedFloats argMetas) {ids : List ObjId}
    (hallowed : (Event.free ids).Allowed w) :
    (w.step raiseOnTemplatedFloats argMetas (.free ids)).Served raiseOnTemplatedFloats
      argMetas := by
  obtain ⟨hrefs, hpinned⟩ := hallowed
  have hids : ∀ {id cell}, w.heap.cell id = some cell → id ∉ ids →
      ∀ ref ∈ cell.obj.references, ref ∉ ids := by
    intro id cell hcell hid ref href
    obtain ⟨before, after, heq, -⟩ := lookup_eq_some_iff.mp hcell
    refine hrefs (id, cell) ?_ hid ref href
    rw [heq]
    exact mem_append_right _ mem_cons_self
  have hkeeps := hserved.sound.keeps_free hids
  refine ⟨hserved.sound.free hids, fun entry hentry => ?_, fun entry hentry => ?_, hserved.nodup⟩
  · obtain ⟨hentry, hdead⟩ := mem_filter.mp hentry
    exact (hserved.specKeys entry hentry).keep hkeeps fun hlive =>
      ⟨hlive, of_decide_eq_true hdead⟩
  · obtain ⟨hentry, htracked⟩ := mem_filter.mp hentry
    have hheld : ∀ id ∈ entry.tracked ++ entry.pinned, id ∉ ids := by
      intro id hid
      rcases mem_append.mp hid with hid | hid
      · exact of_decide_eq_true (all_eq_true.mp htracked id hid)
      · exact hpinned entry hentry id hid
    refine (hserved.entries entry hentry).carry (fun slot _ hslot hlive => ?_)
      (fun id _ hlive => ?_) (prefix_refl _)
    · have hkept := And.intro hlive (hheld slot.2 hslot)
      refine ⟨fun _ => hkeeps.face hkept, hkeeps.agrees hkept, fun chains hchains => ?_⟩
      change (w.caches.ndPaths.filter fun entry => entry.1 ∉ ids).lookup slot.2 = _
      rw [lookup_filter, if_neg hkept.2]
      exact hchains
    · change (Heap.cell (w.heap.filter fun entry => entry.1 ∉ ids) id).isSome at hlive
      rw [Heap.Sound.cell_free] at hlive
      split at hlive
      · cases hlive
      · rename_i hid
        exact ⟨hlive, hkeeps.memberInfo ⟨hlive, hid⟩⟩

theorem live_of_memberInfo {h : Heap} {id : ObjId} (hinfo : (memberInfo h id).isSome) :
    h.Live id := by
  unfold memberInfo at hinfo
  split at hinfo
  · rename_i hget
    exact live_of_cell_unwrap (isSome_cell_of_get hget)
  · cases hinfo

theorem World.Served.setattr (hserved : w.Served raiseOnTemplatedFloats argMetas)
    {id value : ObjId} {attr : Attr} (hallowed : (Event.setattr id attr value).Allowed w)
    (hnoticed : (Event.setattr id attr value).Noticed argMetas w) :
    (w.step raiseOnTemplatedFloats argMetas (.setattr id attr value)).Served raiseOnTemplatedFloats
      argMetas := by
  refine ⟨hserved.sound.setattr (live_of_memberInfo hallowed.2), fun entry hentry => ?_,
    fun entry hentry => ?_, hserved.nodup⟩
  · exact (hserved.specKeys entry hentry).congr (agrees_setattr (hnoticed.2 entry hentry))
  · refine (hserved.entries entry hentry).carry (fun slot hslot _ _ => ?_) (fun id' _ hlive => ?_)
      (prefix_refl _)
    · exact ⟨fun _ => Heap.face_update PyObj.face_setattr _,
        agrees_setattr (hnoticed.1 entry hentry slot hslot), fun _ hchains => hchains⟩
    · exact ⟨Heap.live_update.mp hlive, memberInfo_setattr id'⟩

theorem mem_reads_of_wrapper {h : Heap} {annot : AnnotationType} {arg : ObjId}
    (harg : h.unwrap arg ≠ arg) (hinert : annot.inertKey = none) : arg ∈ annot.reads h arg := by
  have hleaf : arg ∈ leafReads h arg := by
    unfold leafReads
    rw [if_neg harg]
    exact mem_singleton_self _
  cases annot with
  | scalar => cases hinert
  | dataclass cls hashable fields =>
    exact mem_cons_self
  | _ => exact hleaf

theorem World.Served.setImpl (hserved : w.Served raiseOnTemplatedFloats argMetas)
    {id impl : ObjId} (hallowed : (Event.setImpl id impl).Allowed w)
    (hnoticed : (Event.setImpl id impl).Noticed argMetas w) :
    (w.step raiseOnTemplatedFloats argMetas (.setImpl id impl)).Served raiseOnTemplatedFloats
      argMetas := by
  obtain ⟨hid, hlive, hflat⟩ := hallowed
  obtain ⟨hunread, hinfo⟩ := hnoticed
  have hne := unwrap_ne_wrapper hserved.sound hid
  refine ⟨hserved.sound.setImpl hid hlive hflat, fun entry hentry => ?_, fun entry hentry => ?_,
    hserved.nodup⟩
  · exact (hserved.specKeys entry hentry).congr
      (agrees_setImpl hserved.sound hid (hunread.2 entry hentry))
  · refine (hserved.entries entry hentry).carry (fun slot hslot _ _ => ?_)
      (fun id' hid' hlive' => ?_) (prefix_refl _)
    · have hreads := hunread.1 entry hentry slot hslot
      refine ⟨fun hinert => ?_, agrees_setImpl hserved.sound hid hreads, fun _ hchains => hchains⟩
      have hslot : slot.2 ≠ id := by
        intro heq
        rw [heq] at hreads
        exact hreads (mem_reads_of_wrapper (hne id) hinert)
      change Heap.face (w.heap.update id (PyObj.setImpl impl)) slot.2 = _
      unfold Heap.face
      rw [Heap.cell_update, if_neg hslot]
    · refine ⟨Heap.live_update.mp hlive', ?_⟩
      by_cases heq : id' = id
      · subst heq
        have hself : w.heap.unwrap impl = impl := by
          rcases @Heap.unwrap_eq_or w.heap impl with hself | hget
          · exact hself
          · rw [not_isFlat_of_tensor hget] at hflat
            cases hflat
        have hget : (w.heap.update id' (PyObj.setImpl impl)).get impl = w.heap.get impl := by
          rw [get_setImpl hid, if_neg]
          rintro rfl
          exact hne impl hself
        rw [← hinfo ⟨entry, hentry, hid'⟩]
        change memberInfo (w.heap.update id' (PyObj.setImpl impl)) id' = _
        unfold memberInfo
        have hunwrap : (w.heap.update id' (PyObj.setImpl impl)).unwrap id' = impl := by
          unfold Heap.unwrap
          rw [get_setImpl hid, if_pos rfl]
        rw [hunwrap, hget, hself]
      · exact memberInfo_setImpl hserved.sound hid heq

end Steps

section Lookups

variable {h : Heap} {paths : ObjId → List (List Attr)}

theorem lookup_caches {argMetas : List ArgMetadata} {args : List ObjId} {mapper : Mapper}
    {caches : Caches} (hcaches : CachesFresh h paths raiseOnTemplatedFloats caches)
    (hfits : ∀ slot ∈ argMetas.zip args, Fits h slot.1 slot.2) :
    CachesFresh h paths raiseOnTemplatedFloats
        (lookup h raiseOnTemplatedFloats argMetas args mapper caches).2.2 ∧
      ∀ arg, (caches.ndPaths.lookup arg).isSome →
        ((lookup h raiseOnTemplatedFloats argMetas args mapper caches).2.2.ndPaths.lookup
          arg).isSome := by
  unfold lookup
  split
  · exact ⟨hcaches, fun _ hsome => hsome⟩
  · obtain ⟨-, hcaches', hmono⟩ := serves_memberIds (argMetas.zip args) caches hcaches
    split
    · rename_i failure caches' hrun
      rw [hrun] at hcaches' hmono
      exact ⟨hcaches', hmono⟩
    · rename_i ids caches' hrun
      rw [hrun] at hcaches' hmono
      dsimp only
      split
      · exact ⟨hcaches', hmono⟩
      · obtain ⟨-, hcaches'', hmono'⟩ := serves_extract hfits caches' hcaches'
        split
        · rename_i failure caches'' hrun'
          rw [hrun'] at hcaches'' hmono'
          exact ⟨hcaches'', fun arg hsome => hmono' arg (hmono arg hsome)⟩
        · rename_i key caches'' hrun'
          rw [hrun'] at hcaches'' hmono'
          exact ⟨hcaches'', fun arg hsome => hmono' arg (hmono arg hsome)⟩

theorem lookup_ndPaths {caches caches' : Caches} (hpaths : pathsOf h caches' = pathsOf h caches)
    (hmono : ∀ arg, (caches.ndPaths.lookup arg).isSome → (caches'.ndPaths.lookup arg).isSome)
    {arg : ObjId} {chains : List (List Attr)} (hchains : caches.ndPaths.lookup arg = some chains) :
    caches'.ndPaths.lookup arg = some chains := by
  obtain ⟨chains', hchains'⟩ := Option.isSome_iff_exists.mp (hmono arg (by rw [hchains]; rfl))
  have heq := congrFun hpaths arg
  unfold pathsOf at heq
  rw [hchains, hchains'] at heq
  rw [hchains']
  exact congrArg some heq

end Lookups

section Calls

variable {w : World}

theorem EntryServed.lookup {entry : Entry} {mapper : Mapper} {caches : Caches}
    (hserved : EntryServed raiseOnTemplatedFloats argMetas w entry)
    (hpaths : pathsOf w.heap caches = pathsOf w.heap w.caches)
    (hmono : ∀ arg, (w.caches.ndPaths.lookup arg).isSome → (caches.ndPaths.lookup arg).isSome)
    (hmapping : w.mapper.mapping <+: mapper.mapping) :
    EntryServed raiseOnTemplatedFloats argMetas { w with mapper, caches } entry :=
  hserved.carry (fun _ _ _ _ => ⟨fun _ => rfl, .refl _ _ _,
    fun _ hchains => lookup_ndPaths hpaths hmono hchains⟩) (fun _ _ hlive => ⟨hlive, rfl⟩) hmapping

theorem Mapper.number_spec (mapper : Mapper) (key : Key) (hnodup : mapper.mapping.Nodup) :
    (mapper.number key).2.cache = mapper.cache ∧
      mapper.mapping <+: (mapper.number key).2.mapping ∧ (mapper.number key).2.mapping.Nodup ∧
      key ∈ (mapper.number key).2.mapping ∧
      (mapper.number key).2.mapping.idxOf key = (mapper.number key).1 := by
  unfold Mapper.number
  split
  · rename_i hmem
    exact ⟨rfl, prefix_refl _, hnodup, hmem, rfl⟩
  · rename_i hmem
    refine ⟨rfl, prefix_append _ _, ?_, mem_append_right _ mem_cons_self, ?_⟩
    · exact nodup_append.mpr ⟨hnodup, nodup_singleton _, fun a ha b hb heq =>
        hmem (mem_singleton.mp hb ▸ heq ▸ ha)⟩
    · rw [idxOf_append_of_notMem hmem, idxOf_cons_self, Nat.add_zero]

theorem Mapper.store_mapping (mapper : Mapper) (h : Heap) (args argsHash : List ObjId) (count : ℕ)
    (key : Key) : (mapper.store h argMetas args argsHash count key).mapping = mapper.mapping := by
  unfold Mapper.store
  split
  · rfl
  · rfl

theorem EntryServed.new (hsound : w.heap.Sound) {args ids : List ObjId} {count : ℕ} {key : Key}
    (hlength : args.length = argMetas.length) (hself : ∀ arg ∈ args, w.heap.unwrap arg = arg)
    (hlive : ∀ arg ∈ args, w.heap.Live arg)
    (hfits : ∀ slot ∈ argMetas.zip args, Fits w.heap slot.1 slot.2)
    (hcached : ∀ slot ∈ argMetas.zip args,
      (slot.1.isTemplateSlot && w.heap.isPerInstance slot.2) = true →
      (w.caches.ndPaths.lookup slot.2).isSome)
    (hids : freshMemberIds w.heap (pathsOf w.heap w.caches) (argMetas.zip args) = .ok ids)
    (hkey : freshKey w.heap (pathsOf w.heap w.caches) raiseOnTemplatedFloats argMetas args =
      .ok key)
    (hnumber : key ∈ w.mapper.mapping ∧ w.mapper.mapping.idxOf key = count) :
    EntryServed raiseOnTemplatedFloats argMetas w
      ⟨args ++ ids, count, key, trackedArgs w.heap args, pinnedArgs w.heap argMetas args⟩ := by
  refine ⟨⟨args, ids, rfl, hlength, argsServed_of_fresh hsound hlength hself hlive hfits
    (fun arg harg hprimitive => ?_) (fun slot hslot hslot' hprimitive => ?_) hcached hids hkey⟩,
    hnumber⟩
  · refine mem_filter.mpr ⟨harg, ?_⟩
    rw [hprimitive]
    rfl
  · refine mem_map.mpr ⟨slot, mem_filter.mpr ⟨hslot, ?_⟩, rfl⟩
    dsimp only
    rw [hslot', hprimitive]
    rfl

structure CallSpec (raiseOnTemplatedFloats : Bool) (argMetas : List ArgMetadata) (w : World)
    (args : List ObjId) (answer : Except Failure (ℕ × Key)) (w' : World) : Prop where
  served : w'.Served raiseOnTemplatedFloats argMetas
  mapping : w.mapper.mapping <+: w'.mapper.mapping
  fresh : ∀ {count key}, answer = .ok (count, key) →
    freshKey w.heap (pathsOf w.heap w.caches) raiseOnTemplatedFloats argMetas args = .ok key
  number : ∀ {count key}, answer = .ok (count, key) →
    key ∈ w'.mapper.mapping ∧ w'.mapper.mapping.idxOf key = count

theorem CallSpec.failed {args : List ObjId} {failure : Failure} {w' : World}
    (hserved : w'.Served raiseOnTemplatedFloats argMetas)
    (hmapping : w.mapper.mapping <+: w'.mapper.mapping) :
    CallSpec raiseOnTemplatedFloats argMetas w args (.error failure) w' :=
  ⟨hserved, hmapping, fun hok => (nomatch hok), fun hok => (nomatch hok)⟩

theorem CallSpec.answered {args : List ObjId} {w' : World} {count : ℕ} {key : Key}
    (hserved : w'.Served raiseOnTemplatedFloats argMetas)
    (hmapping : w.mapper.mapping <+: w'.mapper.mapping)
    (hfresh : freshKey w.heap (pathsOf w.heap w.caches) raiseOnTemplatedFloats argMetas args =
      .ok key)
    (hnumber : key ∈ w'.mapper.mapping ∧ w'.mapper.mapping.idxOf key = count) :
    CallSpec raiseOnTemplatedFloats argMetas w args (.ok (count, key)) w' := by
  refine ⟨hserved, hmapping, fun hok => ?_, fun hok => ?_⟩
  · obtain ⟨-, rfl⟩ := Prod.mk.inj (Except.ok.inj hok)
    exact hfresh
  · obtain ⟨rfl, rfl⟩ := Prod.mk.inj (Except.ok.inj hok)
    exact hnumber

theorem call_spec (hserved : w.Served raiseOnTemplatedFloats argMetas) {args : List ObjId}
    (hself : ∀ arg ∈ args, w.heap.unwrap arg = arg) (hlive : ∀ arg ∈ args, w.heap.Live arg)
    (hfits : ∀ slot ∈ argMetas.zip args, Fits w.heap slot.1 slot.2) :
    CallSpec raiseOnTemplatedFloats argMetas w args
      (lookup w.heap raiseOnTemplatedFloats argMetas args w.mapper w.caches).1
      { w with
        mapper := (lookup w.heap raiseOnTemplatedFloats argMetas args w.mapper w.caches).2.1
        caches := (lookup w.heap raiseOnTemplatedFloats argMetas args w.mapper w.caches).2.2 } := by
  have hcaches : CachesFresh w.heap (pathsOf w.heap w.caches) raiseOnTemplatedFloats w.caches :=
    ⟨rfl, hserved.specKeys⟩
  -- every outcome but a stored entry keeps the mapper
  have hkept : ∀ caches,
      CachesFresh w.heap (pathsOf w.heap w.caches) raiseOnTemplatedFloats caches →
      (∀ arg, (w.caches.ndPaths.lookup arg).isSome → (caches.ndPaths.lookup arg).isSome) →
      ({ w with caches := caches } : World).Served raiseOnTemplatedFloats argMetas := by
    intro caches hfresh hmono
    exact ⟨hserved.sound, hfresh.specKeys, fun entry hentry =>
      (hserved.entries entry hentry).lookup hfresh.paths hmono (prefix_refl _), hserved.nodup⟩
  unfold lookup
  split
  · exact .failed hserved (prefix_refl _)
  · rename_i hlength
    have hlength : args.length = argMetas.length := not_not.mp hlength
    obtain ⟨hids, hcaches', hmono⟩ := serves_memberIds (argMetas.zip args) w.caches hcaches
    split
    · rename_i failure caches' hrun
      rw [hrun] at hcaches' hmono
      exact .failed (hkept caches' hcaches' hmono) (prefix_refl _)
    · rename_i ids caches' hrun
      rw [hrun] at hids hcaches' hmono
      dsimp only at hids hcaches' hmono ⊢
      split
      · rename_i entry hhit
        have hfind : w.mapper.cache.find? (fun entry => entry.argsHash = args ++ ids) =
            some entry := by
          split at hhit
          · cases hhit
          · exact hhit
        have hentry := List.mem_of_find?_eq_some hfind
        have hsat := List.find?_some hfind
        have hhash : entry.argsHash = args ++ ids := of_decide_eq_true hsat
        obtain ⟨args', ids', hhash', hlength', hargs⟩ := (hserved.entries entry hentry).args
        obtain ⟨rfl, rfl⟩ := append_inj (hhash.symm.trans hhash')
          (hlength.trans hlength'.symm)
        exact .answered (hkept caches' hcaches' hmono) (prefix_refl _)
          (hargs.freshKey hserved.sound hids.symm) (hserved.entries entry hentry).number
      · obtain ⟨hkey, hcaches'', hmono'⟩ := serves_extract hfits caches' hcaches'
        have hmono'' := fun arg hsome => hmono' arg (hmono arg hsome)
        split
        · rename_i failure caches'' hrun'
          rw [hrun'] at hcaches'' hmono''
          exact .failed (hkept caches'' hcaches'' hmono'') (prefix_refl _)
        · rename_i key caches'' hrun'
          rw [hrun'] at hkey hcaches'' hmono' hmono''
          obtain ⟨hcache, hprefix, hnodup, hnumber⟩ := w.mapper.number_spec key hserved.nodup
          set mapper := (w.mapper.number key).2
          set count := (w.mapper.number key).1
          rw [← mapper.store_mapping w.heap args (args ++ ids) count key] at hprefix hnodup hnumber
          refine .answered ⟨hserved.sound, hcaches''.specKeys, fun entry hentry => ?_, hnodup⟩
            hprefix hkey.symm hnumber
          have hcases : entry = ⟨args ++ ids, count, key, trackedArgs w.heap args,
              pinnedArgs w.heap argMetas args⟩ ∨ entry ∈ w.mapper.cache := by
            unfold Mapper.store at hentry
            split at hentry
            · rw [← hcache]
              exact mem_cons.mp hentry
            · rw [← hcache]
              exact Or.inr hentry
          rcases hcases with rfl | hentry
          · refine @EntryServed.new _ _ { w with mapper := mapper.store .., caches := caches'' }
              hserved.sound args ids count key hlength hself hlive hfits
              (fun slot hslot hwalk => ?_) ?_ ?_ hnumber
            · exact hmono' slot.2 (memberIds_cached hcaches hrun slot hslot hwalk)
            · rw [hcaches''.paths]
              exact hids.symm
            · rw [hcaches''.paths]
              exact hkey.symm
          · exact (hserved.entries entry hentry).lookup hcaches''.paths hmono'' hprefix

theorem unwrapped_args (hsound : w.heap.Sound) {args : List ObjId}
    (hlive : ∀ arg ∈ args, w.heap.Live arg) :
    (∀ arg ∈ args.map w.heap.unwrap, w.heap.unwrap arg = arg) ∧
      ∀ arg ∈ args.map w.heap.unwrap, w.heap.Live arg := by
  constructor
  · intro arg harg
    obtain ⟨raw, -, rfl⟩ := mem_map.mp harg
    exact unwrap_unwrap hsound raw
  · intro arg harg
    obtain ⟨raw, hraw, rfl⟩ := mem_map.mp harg
    exact Heap.live_unwrap hsound (hlive raw hraw)

theorem World.Served.call (hserved : w.Served raiseOnTemplatedFloats argMetas) {args : List ObjId}
    (hallowed : (Event.call args).Allowed w) (hnoticed : (Event.call args).Noticed argMetas w) :
    CallSpec raiseOnTemplatedFloats argMetas w (args.map w.heap.unwrap)
      (w.call raiseOnTemplatedFloats argMetas args).1
      (w.call raiseOnTemplatedFloats argMetas args).2 := by
  obtain ⟨hself, hlive⟩ := unwrapped_args hserved.sound hallowed
  exact call_spec hserved hself hlive hnoticed

theorem World.Served.lookupElsewhere (hserved : w.Served raiseOnTemplatedFloats argMetas)
    {mapper : Mapper} {otherMetas : List ArgMetadata} {args : List ObjId}
    (hnoticed : (Event.lookupElsewhere mapper otherMetas args).Noticed argMetas w) :
    (w.lookupElsewhere raiseOnTemplatedFloats mapper otherMetas args).Served raiseOnTemplatedFloats
      argMetas := by
  have hcaches : CachesFresh w.heap (pathsOf w.heap w.caches) raiseOnTemplatedFloats w.caches :=
    ⟨rfl, hserved.specKeys⟩
  obtain ⟨hfresh, hmono⟩ := @lookup_caches _ _ _ _ _ mapper _ hcaches hnoticed
  exact ⟨hserved.sound, hfresh.specKeys, fun entry hentry =>
    (hserved.entries entry hentry).lookup hfresh.paths hmono (prefix_refl _), hserved.nodup⟩

theorem World.Served.step (hserved : w.Served raiseOnTemplatedFloats argMetas) {event : Event}
    (hallowed : event.Allowed w) (hnoticed : event.Noticed argMetas w) :
    (w.step raiseOnTemplatedFloats argMetas event).Served raiseOnTemplatedFloats argMetas ∧
      w.mapper.mapping <+: (w.step raiseOnTemplatedFloats argMetas event).mapper.mapping := by
  cases event with
  | alloc id obj => exact ⟨hserved.alloc hallowed hnoticed, prefix_refl _⟩
  | free ids => exact ⟨hserved.free hallowed, prefix_refl _⟩
  | setattr id attr value => exact ⟨hserved.setattr hallowed hnoticed, prefix_refl _⟩
  | setImpl id impl => exact ⟨hserved.setImpl hallowed hnoticed, prefix_refl _⟩
  | reset =>
    exact ⟨⟨hserved.sound, hserved.specKeys, fun _ hentry => (nomatch hentry), hserved.nodup⟩,
      prefix_refl _⟩
  | lookupElsewhere mapper otherMetas args =>
    exact ⟨hserved.lookupElsewhere hnoticed, prefix_refl _⟩
  | call args =>
    have hspec := hserved.call hallowed hnoticed
    exact ⟨hspec.served, hspec.mapping⟩

end Calls

section Runs

variable {w : World}

/-- What holds of every answer of a run, relative to a mapping that all keys end up in. -/
def Answer.Agrees (raiseOnTemplatedFloats : Bool) (argMetas : List ArgMetadata)
    (mapping : List Key) (answer : Answer) : Prop :=
  ((extract answer.world.heap raiseOnTemplatedFloats argMetas answer.args).run.run
      answer.world.caches).1 = .ok answer.key ∧
    answer.key ∈ mapping ∧ mapping.idxOf answer.key = answer.count

theorem World.Served.answers (hserved : w.Served raiseOnTemplatedFloats argMetas) {event : Event}
    (hallowed : event.Allowed w) (hnoticed : event.Noticed argMetas w) :
    ∀ answer ∈ w.answers raiseOnTemplatedFloats argMetas event,
      answer.Agrees raiseOnTemplatedFloats argMetas
        (w.step raiseOnTemplatedFloats argMetas event).mapper.mapping := by
  cases event with
  | call args =>
    have hspec := hserved.call hallowed hnoticed
    intro answer hanswer
    rw [World.answers] at hanswer
    cases hok : (w.call raiseOnTemplatedFloats argMetas args).1 with
    | error failure =>
      rw [hok] at hanswer
      cases hanswer
    | ok result =>
      rw [hok] at hanswer
      obtain rfl := mem_singleton.mp hanswer
      refine ⟨?_, hspec.number hok⟩
      have hserves := (serves_extract hnoticed w.caches ⟨rfl, hserved.specKeys⟩).1
      exact hserves.trans (hspec.fresh hok)
  | _ => exact fun answer hanswer => nomatch hanswer

theorem World.Served.run {events : List Event} (hserved : w.Served raiseOnTemplatedFloats argMetas)
    (hallowed : w.Along raiseOnTemplatedFloats argMetas (fun w event => event.Allowed w) events)
    (hnoticed : w.Along raiseOnTemplatedFloats argMetas
      (fun w event => event.Noticed argMetas w) events) :
    ∃ mapping, w.mapper.mapping <+: mapping ∧
      ∀ answer ∈ w.run raiseOnTemplatedFloats argMetas events,
        answer.Agrees raiseOnTemplatedFloats argMetas mapping := by
  induction events generalizing w with
  | nil => exact ⟨w.mapper.mapping, prefix_refl _, fun _ hanswer => nomatch hanswer⟩
  | cons event events ih =>
    obtain ⟨hserved', hprefix⟩ := hserved.step hallowed.1 hnoticed.1
    obtain ⟨mapping, hmapping, hanswers⟩ := ih hserved' hallowed.2 hnoticed.2
    refine ⟨mapping, hprefix.trans hmapping, fun answer hanswer => ?_⟩
    rcases mem_append.mp hanswer with hanswer | hanswer
    · obtain ⟨hfresh, hmem, hnumber⟩ :=
        hserved.answers hallowed.1 hnoticed.1 answer hanswer
      obtain ⟨rest, hrest⟩ := hmapping
      refine ⟨hfresh, ?_⟩
      rw [← hrest, idxOf_append_of_mem hmem]
      exact ⟨mem_append_left _ hmem, hnumber⟩
    · exact hanswers answer hanswer

/-- The mapper agrees with fresh extraction in every run whose steps the cache notices. -/
theorem lookup_agrees (raiseOnTemplatedFloats : Bool) (argMetas : List ArgMetadata)
    (events : List Event) (hallowed : World.start.Along raiseOnTemplatedFloats argMetas
      (fun w event => event.Allowed w) events)
    (hnoticed : World.start.Along raiseOnTemplatedFloats argMetas
      (fun w event => event.Noticed argMetas w) events) :
    AnswersAgree raiseOnTemplatedFloats argMetas
      (World.start.run raiseOnTemplatedFloats argMetas events) := by
  obtain ⟨mapping, -, hanswers⟩ := served_start.run hallowed hnoticed
  refine ⟨fun answer hanswer => (hanswers answer hanswer).1, fun answer hanswer other hother => ?_⟩
  obtain ⟨-, hmem, hnumber⟩ := hanswers answer hanswer
  obtain ⟨-, -, hnumber'⟩ := hanswers other hother
  rw [← hnumber, ← hnumber']
  exact (idxOf_inj hmem).symm

def memberReplaced : List Event :=
  [.alloc 10 (.ndarray ⟨32, some [4], false, none⟩),
    .alloc 1 (.dataOriented 7 false [("x", 10)]), .call [1],
    .alloc 11 (.ndarray ⟨64, some [2, 2], false, none⟩), .setattr 1 "x" 11, .free [10], .call [1]]

def templateArg : List ArgMetadata := [⟨.template, "state", false⟩]

theorem memberReplaced_agrees :
    (World.start.run false templateArg memberReplaced).map Answer.count = [0, 1] ∧
      AnswersAgree false templateArg (World.start.run false templateArg memberReplaced) :=
  ⟨by decide, lookup_agrees false templateArg memberReplaced (by decide) (by decide)⟩

def addressReused : List Event :=
  memberReplaced ++ [.alloc 10 (.ndarray ⟨16, some [2, 2, 2], false, none⟩), .setattr 1 "x" 10,
    .call [1]]

/-- The last call is answered from the entry of the first one. -/
theorem addressReused_stale :
    World.start.Along false templateArg (fun w event => event.Allowed w) addressReused ∧
      ¬ AnswersAgree false templateArg (World.start.run false templateArg addressReused) := by
  refine ⟨by decide, fun hagree => ?_⟩
  have hfresh : ∀ answer ∈ World.start.run false templateArg addressReused,
      ((extract answer.world.heap false templateArg answer.args).run.run
        answer.world.caches).1.toOption = some answer.key := by
    intro answer hanswer
    rw [hagree.key_fresh answer hanswer]
    rfl
  exact absurd hfresh (by decide)

end Runs

end Quadrants.Template
