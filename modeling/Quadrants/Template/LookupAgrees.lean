import Quadrants.Template.Lifetimes

namespace Quadrants.Template

open List

def Entry.memberIds (entry : Entry) (numArgs : ℕ) : List ObjId := entry.argsHash.drop numArgs

instance (h : Heap) (id : ObjId) : Decidable (h.Live id) :=
  inferInstanceAs (Decidable ((h.cell id).isSome = true))

def PyObj.wrapsFlat (h : Heap) : PyObj → Bool
  | .tensor impl => h.isFlat impl
  | _ => true

/-- What a Python program can do: new objects get free addresses, only objects that nothing refers
to die, and members are reassigned from ndarrays to ndarrays. -/
def Event.Allowed (w : World) : Event → Prop
  | .alloc id obj => w.heap.cell id = none ∧ (∀ ref ∈ obj.references, w.heap.Live ref) ∧
      obj.wrapsFlat w.heap = true
  | .free ids =>
    (∀ entry ∈ w.heap, entry.1 ∉ ids → ∀ ref ∈ entry.2.obj.references, ref ∉ ids) ∧
      ∀ entry ∈ w.mapper.cache, ∀ id ∈ entry.pinned, id ∉ ids
  | .setattr id attr value =>
    (w.heap.getattr id attr).any (fun old => (memberInfo w.heap old).isSome) = true ∧
      (memberInfo w.heap value).isSome = true
  | .setImpl id impl => w.heap.get id = some (.tensor (w.heap.unwrap id)) ∧
      w.heap.Live impl ∧ w.heap.isFlat impl = true
  | .reset => True
  | .lookupElsewhere _ _ args => ∀ arg ∈ args, w.heap.Live arg
  | .call args => ∀ arg ∈ args, w.heap.Live arg

instance (w : World) : ∀ event : Event, Decidable (event.Allowed w)
  | .alloc _ _ => inferInstanceAs (Decidable (_ ∧ _ ∧ _))
  | .free _ => inferInstanceAs (Decidable (_ ∧ _))
  | .setattr _ _ _ => inferInstanceAs (Decidable (_ ∧ _))
  | .setImpl _ _ => inferInstanceAs (Decidable (_ ∧ _ ∧ _))
  | .reset => inferInstanceAs (Decidable True)
  | .lookupElsewhere _ _ args => inferInstanceAs (Decidable (∀ arg ∈ args, _))
  | .call args => inferInstanceAs (Decidable (∀ arg ∈ args, _))

section Agreement

variable (raiseOnTemplatedFloats : Bool) (argMetas : List ArgMetadata)

/-- No key that is cached on an instance or for a call was read from this object. -/
def World.Unread (w : World) (id : ObjId) : Prop :=
  (∀ entry ∈ w.mapper.cache, ∀ slot ∈ argMetas.zip entry.argsHash,
    id ∉ slot.1.annot.reads w.heap slot.2) ∧
    ∀ entry ∈ w.caches.specKeys, id ∉ entry.1.2.reads w.heap entry.1.1

/-- The steps that the cache notices. A new object does not get the address of a dead member of a
cached call; a wrapper keeps the features of its ndarray while it is a member of a cached call; and
no reassigned object is also read through an argument that is declared as a dataclass. -/
def Event.Noticed (w : World) : Event → Prop
  | .alloc id _ => ∀ entry ∈ w.mapper.cache, id ∉ entry.memberIds argMetas.length
  | .setattr id _ _ => w.Unread argMetas id
  | .setImpl id impl => w.Unread argMetas id ∧
      ((∃ entry ∈ w.mapper.cache, id ∈ entry.memberIds argMetas.length) →
        memberInfo w.heap impl = memberInfo w.heap id)
  | .lookupElsewhere _ argMetas args =>
    ∀ slot ∈ argMetas.zip (args.map w.heap.unwrap), Fits w.heap slot.1 slot.2
  | .call args => ∀ slot ∈ argMetas.zip (args.map w.heap.unwrap), Fits w.heap slot.1 slot.2
  | _ => True

instance (w : World) (id : ObjId) : Decidable (w.Unread argMetas id) :=
  inferInstanceAs (Decidable (_ ∧ _))

instance (w : World) : ∀ event : Event, Decidable (event.Noticed argMetas w)
  | .alloc _ _ => inferInstanceAs (Decidable (∀ entry ∈ w.mapper.cache, _))
  | .free _ => inferInstanceAs (Decidable True)
  | .setattr _ _ _ => inferInstanceAs (Decidable (w.Unread argMetas _))
  | .setImpl _ _ => inferInstanceAs (Decidable (_ ∧ (_ → _)))
  | .reset => inferInstanceAs (Decidable True)
  | .lookupElsewhere _ _ _ => inferInstanceAs (Decidable (∀ slot ∈ _, _))
  | .call _ => inferInstanceAs (Decidable (∀ slot ∈ _, _))

def World.Along (condition : World → Event → Prop) (w : World) : List Event → Prop
  | [] => True
  | event :: events => condition w event ∧
      World.Along condition (w.step raiseOnTemplatedFloats argMetas event) events

instance instDecidableAlong (condition : World → Event → Prop)
    [∀ w event, Decidable (condition w event)] :
    ∀ (w : World) (events : List Event),
      Decidable (w.Along raiseOnTemplatedFloats argMetas condition events)
  | _, [] => .isTrue trivial
  | w, event :: events =>
    have := instDecidableAlong condition (w.step raiseOnTemplatedFloats argMetas event) events
    inferInstanceAs (Decidable (_ ∧ _))

/-- Every key is what `extract` gives on the arguments as they are at the call, and two keys have
the same number only if they are equal. -/
structure AnswersAgree (answers : List Answer) : Prop where
  key_fresh : ∀ answer ∈ answers,
    ((extract answer.world.heap raiseOnTemplatedFloats argMetas answer.args).run.run
      answer.world.caches).1 = .ok answer.key
  numbered : ∀ answer ∈ answers, ∀ other ∈ answers,
    answer.key = other.key ↔ answer.count = other.count

end Agreement

def AnnotationType.inertKey : AnnotationType → Option KeyPart
  | .scalar => some .placeholder
  | .dataclass _ _ .nil => some .tupleNil
  | _ => none

variable {annot : AnnotationType} {whole : KeyPart}

theorem settled_of_inertKey {h : Heap} {raiseOnTemplatedFloats : Bool}
    {arg : ObjId} {part : KeyPart} (hinert : annot.inertKey = some part) :
    Settled h raiseOnTemplatedFloats annot arg part := by
  unfold AnnotationType.inertKey at hinert
  split at hinert
  · obtain rfl := Option.some.inj hinert
    exact ⟨trivial, fun _ _ => by rw [freshArg]⟩
  · obtain rfl := Option.some.inj hinert
    exact ⟨trivial, fun _ _ => by rw [freshArg, freshFields]⟩
  · cases hinert

section Live

variable {h : Heap} {paths : ObjId → List (List Attr)} {raiseOnTemplatedFloats : Bool}

variable {arg : ObjId} {argName : String} {part : KeyPart}

theorem live_of_cell_unwrap (hcell : (h.cell (h.unwrap arg)).isSome) : h.Live arg := by
  rcases @Heap.unwrap_eq_or h arg with heq | hget
  · rw [heq] at hcell
    exact hcell
  · obtain ⟨serial, hcell⟩ := Heap.get_eq_some.mp hget
    unfold Heap.Live
    rw [hcell]
    rfl

theorem cell_of_freshTemplate
    (hpart : freshTemplate h paths raiseOnTemplatedFloats arg = .ok part) :
    (h.cell arg).isSome := by
  unfold freshTemplate at hpart
  cases hcell : h.cell arg with
  | none =>
    rw [hcell] at hpart
    cases hpart
  | some cell => rfl

theorem get_of_extractNdarray {needsGrad : Option Bool}
    (hpart : extractNdarray h needsGrad argName arg = .ok part) :
    ∃ info, h.get arg = some (.ndarray info) ∨ h.get arg = some (.external info) := by
  unfold extractNdarray at hpart
  split at hpart
  · rename_i info hget
    exact ⟨info, Or.inl hget⟩
  · rename_i info hget
    exact ⟨info, Or.inr hget⟩
  · cases hpart

theorem isSome_cell_of_get {obj : PyObj} (hget : h.get arg = some obj) : (h.cell arg).isSome := by
  obtain ⟨serial, hcell⟩ := Heap.get_eq_some.mp hget
  rw [hcell]
  rfl

theorem container_of_freshFields {fields : FieldAnnotations} (hfields : fields ≠ .nil)
    (hpart : freshFields h paths raiseOnTemplatedFloats fields argName arg = .ok part) :
    h.isContainer arg = true := by
  have hfield : ∀ {name : Attr} {value : ObjId}, getField h arg name = .ok value →
      h.isContainer arg = true := by
    intro name value hvalue
    unfold getField at hvalue
    split at hvalue
    · rename_i hattr
      exact Heap.isContainer_of_getattr hattr
    · cases hvalue
  cases fields with
  | nil => exact absurd rfl hfields
  | final name rest =>
    obtain ⟨value, hvalue, -⟩ := bind_eq_ok.mp hpart
    exact hfield hvalue
  | cons name annot rest =>
    obtain ⟨value, hvalue, -⟩ := bind_eq_ok.mp hpart
    exact hfield hvalue

variable {annot : AnnotationType}

theorem live_of_freshArg (hinert : annot.inertKey = none)
    (hpart : freshArg h paths raiseOnTemplatedFloats annot argName arg = .ok part) :
    h.Live arg ∧ (h.isPrimitive arg = true → annot = .template ∨ annot = .tensor) := by
  cases annot with
  | template =>
    exact ⟨live_of_cell_unwrap (cell_of_freshTemplate hpart), fun _ => Or.inl rfl⟩
  | tensor =>
    refine ⟨?_, fun _ => Or.inr rfl⟩
    rw [freshArg] at hpart
    unfold freshTensor at hpart
    split at hpart
    · rename_i hget
      exact live_of_cell_unwrap (isSome_cell_of_get hget)
    · rename_i hget
      exact live_of_cell_unwrap (isSome_cell_of_get hget)
    · obtain ⟨inner, hinner, -⟩ := bind_eq_ok.mp hpart
      exact live_of_cell_unwrap (cell_of_freshTemplate hinner)
  | ndarray needsGrad =>
    obtain ⟨info, hinfo⟩ := get_of_extractNdarray hpart
    have hsome : (h.cell (h.unwrap arg)).isSome := by
      rcases hinfo with hget | hget
      · exact isSome_cell_of_get hget
      · exact isSome_cell_of_get hget
    refine ⟨live_of_cell_unwrap hsome, fun hprimitive => ?_⟩
    unfold Heap.isPrimitive at hprimitive
    split at hprimitive
    · rename_i hget
      have hself : h.unwrap arg = arg := by
        unfold Heap.unwrap
        rw [hget]
      rw [hself, hget] at hinfo
      simp at hinfo
    · cases hprimitive
  | scalar => cases hinert
  | dataclass cls hashable fields =>
    have hfields : fields ≠ .nil := by
      rintro rfl
      cases hinert
    have hcontainer := container_of_freshFields hfields hpart
    unfold Heap.isContainer at hcontainer
    split at hcontainer
    · rename_i hget
      refine ⟨isSome_cell_of_get hget, fun hprimitive => ?_⟩
      simp [Heap.isPrimitive, hget] at hprimitive
    · rename_i hget
      refine ⟨isSome_cell_of_get hget, fun hprimitive => ?_⟩
      simp [Heap.isPrimitive, hget] at hprimitive
    · cases hcontainer

theorem Settled.keep {h' : Heap} {kept : ObjId → Prop} (hkeeps : h.Keeps h' kept)
    (hsettled : Settled h raiseOnTemplatedFloats annot arg part)
    (hkept : h.Live arg → kept arg) : Settled h' raiseOnTemplatedFloats annot arg part := by
  cases hinert : annot.inertKey with
  | none =>
    have hlive := (live_of_freshArg hinert (hsettled.2 (fun _ => []) "")).1
    exact hsettled.congr (hkeeps.agrees (hkept hlive))
  | some inert =>
    have hsame : Settled h raiseOnTemplatedFloats annot arg inert :=
      settled_of_inertKey hinert
    have hsame := hsame.2 (fun _ => []) ""
    rw [hsettled.2] at hsame
    obtain rfl := Except.ok.inj hsame
    exact settled_of_inertKey hinert

end Live

def AnnotationType.walkedKey (part : KeyPart) : AnnotationType → Option KeyPart
  | .template => some part
  | .tensor => some (.marked false part)
  | _ => none

/-- How an entry of the cache stands for an argument. An argument that is looked at stays alive as
long as the entry does; the members of a data-oriented one may die, and those that live still are
what they were. -/
inductive ArgServed (raiseOnTemplatedFloats : Bool) (w : World) (entry : Entry)
    (argMeta : ArgMetadata) (arg : ObjId) : List ObjId → KeyPart → Prop
  | inert {part : KeyPart} : argMeta.annot.inertKey = some part →
      ArgServed raiseOnTemplatedFloats w entry argMeta arg [] part
  | absent : w.heap.Live arg → arg ∈ entry.tracked ++ entry.pinned →
      isAbsent w.heap argMeta arg = true →
      ArgServed raiseOnTemplatedFloats w entry argMeta arg [] .optionalAbsent
  | plain {part : KeyPart} : argMeta.annot.inertKey = none → w.heap.Live arg →
      arg ∈ entry.tracked ++ entry.pinned → isAbsent w.heap argMeta arg = false →
      Settled w.heap raiseOnTemplatedFloats argMeta.annot arg part →
      ArgServed raiseOnTemplatedFloats w entry argMeta arg [] part
  | walked {serial cls : ℕ} {attrs : List (Attr × ObjId)} {chains : List (List Attr)}
      {ids : List ObjId} {infos : List (Option NdarrayInfo)} {part : KeyPart} :
      w.heap.cell arg = some ⟨serial, .dataOriented cls false attrs⟩ →
      arg ∈ entry.tracked ++ entry.pinned →
      argMeta.annot.walkedKey (structKey cls (descriptors chains infos) serial) = some part →
      w.caches.ndPaths.lookup arg = some chains → ids.length = chains.length →
      List.Forall₂ (fun id info => w.heap.Live id → memberInfo w.heap id = info) ids infos →
      ArgServed raiseOnTemplatedFloats w entry argMeta arg ids part

inductive ArgsServed (raiseOnTemplatedFloats : Bool) (w : World) (entry : Entry) :
    List ArgMetadata → List ObjId → List ObjId → Key → Prop
  | nil : ArgsServed raiseOnTemplatedFloats w entry [] [] [] []
  | cons {argMeta : ArgMetadata} {argMetas : List ArgMetadata} {arg : ObjId}
      {args ids others : List ObjId} {part : KeyPart} {key : Key} :
      ArgServed raiseOnTemplatedFloats w entry argMeta arg ids part →
      ArgsServed raiseOnTemplatedFloats w entry argMetas args others key →
      ArgsServed raiseOnTemplatedFloats w entry (argMeta :: argMetas) (arg :: args)
        (ids ++ others) (part :: key)

theorem isTemplateSlot_of_walkedKey {argMeta : ArgMetadata}
    (hwalked : (argMeta.annot.walkedKey whole).isSome) : argMeta.isTemplateSlot = true := by
  unfold AnnotationType.walkedKey at hwalked
  unfold ArgMetadata.isTemplateSlot
  split at hwalked
  · rename_i hannot
    rw [hannot]
  · rename_i hannot
    rw [hannot]
  · cases hwalked

theorem exists_walkedKey (hwalked : (annot.walkedKey whole).isSome) (whole' : KeyPart) :
    ∃ part, annot.walkedKey whole' = some part := by
  unfold AnnotationType.walkedKey at hwalked ⊢
  split at hwalked
  · exact ⟨_, rfl⟩
  · exact ⟨_, rfl⟩
  · cases hwalked

section Invariant

variable (raiseOnTemplatedFloats : Bool) (argMetas : List ArgMetadata)

structure EntryServed (w : World) (entry : Entry) : Prop where
  args : ∃ args ids, entry.argsHash = args ++ ids ∧ args.length = argMetas.length ∧
    ArgsServed raiseOnTemplatedFloats w entry argMetas args ids entry.key
  number : entry.key ∈ w.mapper.mapping ∧ w.mapper.mapping.idxOf entry.key = entry.count

structure World.Served (w : World) : Prop where
  sound : w.heap.Sound
  specKeys : SpecKeysFresh w.heap raiseOnTemplatedFloats w.caches
  entries : ∀ entry ∈ w.mapper.cache, EntryServed raiseOnTemplatedFloats argMetas w entry
  nodup : w.mapper.mapping.Nodup

end Invariant

variable {raiseOnTemplatedFloats : Bool} {argMetas : List ArgMetadata}

theorem served_start : World.start.Served raiseOnTemplatedFloats argMetas := by
  refine ⟨⟨fun hcell => ?_, fun hget => ?_⟩, fun entry hentry => ?_, fun entry hentry => ?_, ?_⟩
  · cases hcell
  · cases hget
  · cases hentry
  · cases hentry
  · exact nodup_nil

section Hit

variable {w : World} {entry : Entry}

variable {arg : ObjId} {h : Heap} {ids : List ObjId}

theorem isPerInstance_of_leafPlain (hplain : LeafPlain h arg) : h.isPerInstance arg = false := by
  rcases @Heap.unwrap_eq_or h arg with heq | hget
  · unfold LeafPlain at hplain
    rw [heq] at hplain
    exact hplain
  · unfold Heap.isPerInstance
    rw [hget]

variable {argMeta : ArgMetadata}

theorem not_walked_of_plain (hplain : argMeta.annot.Plain h arg) :
    (argMeta.isTemplateSlot && h.isPerInstance arg) = false := by
  unfold ArgMetadata.isTemplateSlot
  cases hannot : argMeta.annot with
  | scalar => rfl
  | dataclass cls hashable fields => rfl
  | template =>
    rw [hannot] at hplain
    rw [isPerInstance_of_leafPlain hplain, Bool.and_false]
  | tensor =>
    rw [hannot] at hplain
    rw [isPerInstance_of_leafPlain hplain, Bool.and_false]
  | ndarray needsGrad =>
    rw [hannot] at hplain
    rw [isPerInstance_of_leafPlain hplain, Bool.and_false]

theorem isAbsent_cases (habsent : isAbsent h argMeta arg = true) :
    (∃ needsGrad, argMeta.annot = .ndarray needsGrad) ∧ argMeta.isTemplateSlot = true ∧
      ∃ isFloat, h.get arg = some (.primitive isFloat none) := by
  unfold isAbsent at habsent
  split at habsent
  · rename_i needsGrad isFloat hannot hget
    refine ⟨⟨needsGrad, hannot⟩, ?_, isFloat, hget⟩
    unfold ArgMetadata.isTemplateSlot
    rw [hannot]
    exact habsent
  · cases habsent

theorem infos_of_live {infos : List (Option NdarrayInfo)}
    (hinfos : List.Forall₂ (fun id info => h.Live id → memberInfo h id = info) ids infos)
    (hlive : ∀ id ∈ ids, h.Live id) : ids.map (memberInfo h) = infos := by
  induction hinfos with
  | nil => rfl
  | cons hinfo _ ih =>
    rw [map_cons, hinfo (hlive _ mem_cons_self), ih fun id hid => hlive id (mem_cons_of_mem _ hid)]

theorem length_of_mapM {α β : Type} {f : α → Option β} {xs : List α} {ys : List β}
    (hmap : xs.mapM f = some ys) : ys.length = xs.length ∧ ∀ y ∈ ys, ∃ x ∈ xs, f x = some y := by
  induction xs generalizing ys with
  | nil =>
    obtain rfl := Option.some.inj hmap
    exact ⟨rfl, fun y hy => nomatch hy⟩
  | cons x xs ih =>
    rw [mapM_cons] at hmap
    obtain ⟨y, hy, hmap⟩ := Option.bind_eq_some_iff.mp hmap
    obtain ⟨rest, hrest, hmap⟩ := Option.bind_eq_some_iff.mp hmap
    obtain rfl := Option.some.inj hmap
    obtain ⟨hlength, hmem⟩ := ih hrest
    refine ⟨by rw [length_cons, length_cons, hlength], fun z hz => ?_⟩
    rcases mem_cons.mp hz with rfl | hz
    · exact ⟨x, mem_cons_self, hy⟩
    · obtain ⟨x', hx', hfx'⟩ := hmem z hz
      exact ⟨x', mem_cons_of_mem _ hx', hfx'⟩

theorem followChains_ok (hsound : h.Sound) {chains : List (List Attr)} (harg : h.Live arg)
    (hids : followChains h arg chains = .ok ids) :
    ids.length = chains.length ∧ ∀ id ∈ ids, h.Live id := by
  unfold followChains at hids
  split at hids
  · rename_i ids' hmap
    obtain rfl := Except.ok.inj hids
    obtain ⟨hlength, hmem⟩ := length_of_mapM hmap
    refine ⟨hlength, fun id hid => ?_⟩
    obtain ⟨chain, -, hchain⟩ := hmem id hid
    exact Heap.followChain_live hsound harg hchain
  · cases hids

theorem freshArg_walked {paths : ObjId → List (List Attr)} {annot : AnnotationType}
    {argName : String} {serial cls : ℕ} {attrs : List (Attr × ObjId)} {part : KeyPart}
    (hcell : h.cell arg = some ⟨serial, .dataOriented cls false attrs⟩)
    (hids : followChains h arg (paths arg) = .ok ids) (hpart : annot.walkedKey
      (structKey cls (descriptors (paths arg) (ids.map (memberInfo h))) serial) = some part) :
    freshArg h paths raiseOnTemplatedFloats annot argName arg = .ok part := by
  have hget := Heap.get_eq_some.mpr ⟨serial, hcell⟩
  have hself : h.unwrap arg = arg := by
    unfold Heap.unwrap
    rw [hget]
  have htemplate : freshTemplate h paths raiseOnTemplatedFloats arg =
      .ok (structKey cls (descriptors (paths arg) (ids.map (memberInfo h))) serial) := by
    unfold freshTemplate collectStructNdDescriptors
    rw [hcell, hids]
    rfl
  unfold AnnotationType.walkedKey at hpart
  split at hpart
  · obtain rfl := Option.some.inj hpart
    rw [freshArg, hself]
    exact htemplate
  · obtain rfl := Option.some.inj hpart
    rw [freshArg, hself, freshTensor, hget]
    exact bind_eq_ok.mpr ⟨_, htemplate, rfl⟩
  · cases hpart

theorem ArgsServed.freshKey (hsound : w.heap.Sound) {argMetas : List ArgMetadata}
    {args : List ObjId} {key : Key}
    (hserved : ArgsServed raiseOnTemplatedFloats w entry argMetas args ids key)
    (hids : freshMemberIds w.heap (pathsOf w.heap w.caches) (argMetas.zip args) = .ok ids) :
    freshKey w.heap (pathsOf w.heap w.caches) raiseOnTemplatedFloats argMetas args = .ok key := by
  induction hserved with
  | nil => rfl
  | @cons argMeta argMetas arg args ids others part key harg hrest ih =>
    rw [zip_cons_cons, freshMemberIds] at hids
    rw [Template.freshKey]
    cases harg with
    | inert hinert =>
      have hplain := (settled_of_inertKey (h := w.heap) hinert :
        Settled w.heap raiseOnTemplatedFloats argMeta.annot arg part)
      have habsent : isAbsent w.heap argMeta arg = false := by
        by_contra hne
        obtain ⟨⟨needsGrad, hannot⟩, -⟩ :=
          isAbsent_cases (Bool.eq_true_of_not_eq_false hne)
        rw [hannot] at hinert
        cases hinert
      rw [not_walked_of_plain hplain.1] at hids
      rw [habsent]
      exact bind_eq_ok.mpr ⟨part, hplain.2 _ _, bind_eq_ok.mpr ⟨key, ih hids, rfl⟩⟩
    | absent hlive hheld habsent =>
      obtain ⟨-, -, isFloat, hget⟩ := isAbsent_cases habsent
      have hskip : (argMeta.isTemplateSlot && w.heap.isPerInstance arg) = false := by
        unfold Heap.isPerInstance
        rw [hget, Bool.and_false]
      rw [hskip] at hids
      rw [habsent]
      exact bind_eq_ok.mpr ⟨_, rfl, bind_eq_ok.mpr ⟨key, ih hids, rfl⟩⟩
    | plain hinert hlive hheld habsent hsettled =>
      rw [not_walked_of_plain hsettled.1] at hids
      rw [habsent]
      exact bind_eq_ok.mpr ⟨part, hsettled.2 _ _, bind_eq_ok.mpr ⟨key, ih hids, rfl⟩⟩
    | @walked serial cls attrs chains ids infos part hcell hheld hpart hchains hlength hinfos =>
      have hget := Heap.get_eq_some.mpr ⟨serial, hcell⟩
      have hslot := isTemplateSlot_of_walkedKey (Option.isSome_of_eq_some hpart)
      have hwalk : (argMeta.isTemplateSlot && w.heap.isPerInstance arg) = true := by
        unfold Heap.isPerInstance
        rw [hslot, hget]
        rfl
      have habsent : isAbsent w.heap argMeta arg = false := by
        by_contra hne
        obtain ⟨-, -, isFloat, hprimitive⟩ :=
          isAbsent_cases (Bool.eq_true_of_not_eq_false hne)
        rw [hget] at hprimitive
        cases hprimitive
      have hpaths : pathsOf w.heap w.caches arg = chains := by
        unfold pathsOf
        rw [hchains]
        rfl
      rw [hwalk, if_pos rfl] at hids
      obtain ⟨ids', hids', hids⟩ := bind_eq_ok.mp hids
      obtain ⟨others', hothers', hids⟩ := bind_eq_ok.mp hids
      have hlive : w.heap.Live arg := by
        unfold Heap.Live
        rw [hcell]
        rfl
      obtain ⟨hlength', hlives⟩ := followChains_ok hsound hlive hids'
      -- both member lists have one id for each chain, so the hash splits the same way
      obtain ⟨rfl, rfl⟩ := append_inj (Except.ok.inj hids)
        (by rw [hlength', hlength, hpaths])
      rw [habsent]
      refine bind_eq_ok.mpr ⟨part, ?_, bind_eq_ok.mpr ⟨key, ih hothers', rfl⟩⟩
      refine freshArg_walked hcell hids' ?_
      rw [infos_of_live hinfos hlives, hpaths]
      exact hpart

end Hit

section Miss

variable {w : World} {entry : Entry}

variable {arg : ObjId} {h : Heap}

theorem unwrap_unwrap (hsound : h.Sound) (arg : ObjId) :
    h.unwrap (h.unwrap arg) = h.unwrap arg := by
  rcases @Heap.unwrap_eq_or h (h.unwrap arg) with heq | hget
  · exact heq
  · exact absurd rfl (unwrap_ne_wrapper hsound hget arg)

theorem cell_of_isPerInstance (hper : h.isPerInstance arg = true) :
    ∃ serial cls attrs, h.cell arg = some ⟨serial, .dataOriented cls false attrs⟩ := by
  unfold Heap.isPerInstance at hper
  split at hper
  · rename_i cls stableMembers attrs hget
    obtain ⟨serial, hcell⟩ := Heap.get_eq_some.mp hget
    have hstable : stableMembers = false := by simpa using hper
    rw [hstable] at hcell
    exact ⟨serial, cls, attrs, hcell⟩
  · cases hper

theorem isPerInstance_of_not_leafPlain (hself : h.unwrap arg = arg)
    (hplain : ¬ LeafPlain h arg) : h.isPerInstance arg = true := by
  unfold LeafPlain at hplain
  rw [hself] at hplain
  exact Bool.eq_true_of_not_eq_false hplain

variable {argMeta : ArgMetadata} {ids : List ObjId} {part : KeyPart}

theorem isPerInstance_of_not_plain {paths : ObjId → List (List Attr)} (hself : h.unwrap arg = arg)
    (hfits : Fits h argMeta arg) (hplain : ¬ argMeta.annot.Plain h arg)
    (hpart : freshArg h paths raiseOnTemplatedFloats argMeta.annot argMeta.name arg = .ok part) :
    h.isPerInstance arg = true ∧ (argMeta.annot.walkedKey part).isSome := by
  unfold Fits at hfits
  cases hannot : argMeta.annot with
  | dataclass cls hashable fields =>
    rw [hannot] at hfits hplain
    exact absurd hfits hplain
  | scalar =>
    rw [hannot] at hplain
    exact absurd trivial hplain
  | template =>
    rw [hannot] at hplain
    exact ⟨isPerInstance_of_not_leafPlain hself hplain, rfl⟩
  | tensor =>
    rw [hannot] at hplain
    exact ⟨isPerInstance_of_not_leafPlain hself hplain, rfl⟩
  | ndarray needsGrad =>
    rw [hannot, freshArg, hself] at hpart
    rw [hannot] at hplain
    have hper := isPerInstance_of_not_leafPlain hself hplain
    unfold Heap.isPerInstance at hper
    obtain ⟨info, hget | hget⟩ := get_of_extractNdarray hpart
    · rw [hget] at hper
      cases hper
    · rw [hget] at hper
      cases hper

theorem argServed_of_fresh (hsound : w.heap.Sound) (hself : w.heap.unwrap arg = arg)
    (hlive : w.heap.Live arg) (hfits : Fits w.heap argMeta arg)
    (htracked : w.heap.isPrimitive arg = false → arg ∈ entry.tracked)
    (hpinned : argMeta.isTemplateSlot = true → w.heap.isPrimitive arg = true → arg ∈ entry.pinned)
    (hcached : (argMeta.isTemplateSlot && w.heap.isPerInstance arg) = true →
      (w.caches.ndPaths.lookup arg).isSome)
    (hids : (if argMeta.isTemplateSlot && w.heap.isPerInstance arg then
      followChains w.heap arg (pathsOf w.heap w.caches arg) else .ok []) = .ok ids)
    (hpart : (if isAbsent w.heap argMeta arg then .ok KeyPart.optionalAbsent
      else freshArg w.heap (pathsOf w.heap w.caches) raiseOnTemplatedFloats argMeta.annot
        argMeta.name arg) = .ok part) :
    ArgServed raiseOnTemplatedFloats w entry argMeta arg ids part := by
  have hheld : (w.heap.isPrimitive arg = true → argMeta.isTemplateSlot = true) →
      arg ∈ entry.tracked ++ entry.pinned := by
    intro hslot
    cases hprimitive : w.heap.isPrimitive arg with
    | false => exact mem_append_left _ (htracked hprimitive)
    | true => exact mem_append_right _ (hpinned (hslot hprimitive) hprimitive)
  cases habsent : isAbsent w.heap argMeta arg with
  | true =>
    obtain ⟨-, hslot, isFloat, hget⟩ := isAbsent_cases habsent
    rw [habsent] at hpart
    obtain rfl := Except.ok.inj hpart
    have hskip : (argMeta.isTemplateSlot && w.heap.isPerInstance arg) = false := by
      unfold Heap.isPerInstance
      rw [hget, Bool.and_false]
    rw [hskip] at hids
    obtain rfl := Except.ok.inj hids
    exact .absent hlive (hheld fun _ => hslot) habsent
  | false =>
    rw [habsent] at hpart
    change freshArg _ _ _ _ _ _ = _ at hpart
    by_cases hplain : argMeta.annot.Plain w.heap arg
    · rw [not_walked_of_plain hplain] at hids
      obtain rfl := Except.ok.inj hids
      have hsettled := settled_of_fresh hplain hpart
      cases hinert : argMeta.annot.inertKey with
      | some inert =>
        have hsame : Settled w.heap raiseOnTemplatedFloats argMeta.annot arg inert :=
          settled_of_inertKey hinert
        have hsame := hsame.2 (pathsOf w.heap w.caches) argMeta.name
        rw [hpart] at hsame
        obtain rfl := Except.ok.inj hsame
        exact .inert hinert
      | none =>
        refine .plain hinert hlive (hheld fun hprimitive => ?_) habsent hsettled
        unfold ArgMetadata.isTemplateSlot
        rcases (live_of_freshArg hinert hpart).2 hprimitive with heq | heq
        · rw [heq]
        · rw [heq]
    · obtain ⟨hper, hwalked⟩ := isPerInstance_of_not_plain hself hfits hplain hpart
      have hslot := isTemplateSlot_of_walkedKey hwalked
      rw [hslot, hper] at hids hcached
      obtain ⟨serial, cls, attrs, hcell⟩ := cell_of_isPerInstance hper
      obtain ⟨chains, hchains⟩ := Option.isSome_iff_exists.mp (hcached rfl)
      have hpaths : pathsOf w.heap w.caches arg = chains := by
        unfold pathsOf
        rw [hchains]
        rfl
      obtain ⟨part', hpart'⟩ := exists_walkedKey hwalked (structKey cls
        (descriptors (pathsOf w.heap w.caches arg) (ids.map (memberInfo w.heap))) serial)
      have hsame : freshArg w.heap (pathsOf w.heap w.caches) raiseOnTemplatedFloats
          argMeta.annot argMeta.name arg = .ok part' := freshArg_walked hcell hids hpart'
      rw [hpart] at hsame
      obtain rfl := Except.ok.inj hsame
      rw [hpaths] at hpart' hids
      refine .walked hcell (hheld fun _ => hslot) hpart' hchains
        (followChains_ok hsound hlive hids).1 ?_
      rw [forall₂_map_right_iff]
      exact forall₂_same.mpr fun id _ _ => rfl

theorem argsServed_of_fresh (hsound : w.heap.Sound) {argMetas : List ArgMetadata}
    {args : List ObjId} {key : Key} (hlength : args.length = argMetas.length)
    (hself : ∀ arg ∈ args, w.heap.unwrap arg = arg) (hlive : ∀ arg ∈ args, w.heap.Live arg)
    (hfits : ∀ slot ∈ argMetas.zip args, Fits w.heap slot.1 slot.2)
    (htracked : ∀ arg ∈ args, w.heap.isPrimitive arg = false → arg ∈ entry.tracked)
    (hpinned : ∀ slot ∈ argMetas.zip args, slot.1.isTemplateSlot = true →
      w.heap.isPrimitive slot.2 = true → slot.2 ∈ entry.pinned)
    (hcached : ∀ slot ∈ argMetas.zip args,
      (slot.1.isTemplateSlot && w.heap.isPerInstance slot.2) = true →
      (w.caches.ndPaths.lookup slot.2).isSome)
    (hids : freshMemberIds w.heap (pathsOf w.heap w.caches) (argMetas.zip args) = .ok ids)
    (hkey : freshKey w.heap (pathsOf w.heap w.caches) raiseOnTemplatedFloats argMetas args =
      .ok key) :
    ArgsServed raiseOnTemplatedFloats w entry argMetas args ids key := by
  induction argMetas generalizing args ids key with
  | nil =>
    obtain rfl := length_eq_zero_iff.mp hlength
    obtain rfl := Except.ok.inj hids
    obtain rfl := Except.ok.inj hkey
    exact .nil
  | cons argMeta argMetas ih =>
    cases args with
    | nil => cases hlength
    | cons arg args =>
      rw [zip_cons_cons] at hfits hpinned hcached hids
      have hsplit : ∃ first others,
          (if argMeta.isTemplateSlot && w.heap.isPerInstance arg then
            followChains w.heap arg (pathsOf w.heap w.caches arg) else .ok []) = .ok first ∧
          freshMemberIds w.heap (pathsOf w.heap w.caches) (argMetas.zip args) = .ok others ∧
          ids = first ++ others := by
        rw [freshMemberIds] at hids
        cases hwalk : argMeta.isTemplateSlot && w.heap.isPerInstance arg with
        | true =>
          rw [hwalk] at hids
          obtain ⟨first, hfirst, hids⟩ := bind_eq_ok.mp hids
          obtain ⟨others, hothers, hids⟩ := bind_eq_ok.mp hids
          exact ⟨first, others, hfirst, hothers, (Except.ok.inj hids).symm⟩
        | false =>
          rw [hwalk] at hids
          exact ⟨[], ids, rfl, hids, rfl⟩
      obtain ⟨first, others, hfirst, hothers, rfl⟩ := hsplit
      obtain ⟨part, rest, hpart, hrest, rfl⟩ : ∃ part rest,
          (if isAbsent w.heap argMeta arg then .ok KeyPart.optionalAbsent
            else freshArg w.heap (pathsOf w.heap w.caches) raiseOnTemplatedFloats
              argMeta.annot argMeta.name arg) = .ok part ∧
          freshKey w.heap (pathsOf w.heap w.caches) raiseOnTemplatedFloats argMetas args =
            .ok rest ∧ key = part :: rest := by
        rw [Template.freshKey] at hkey
        cases habsent : isAbsent w.heap argMeta arg with
        | true =>
          rw [habsent] at hkey
          obtain ⟨part, hpart, hkey⟩ := bind_eq_ok.mp hkey
          obtain ⟨rest, hrest, hkey⟩ := bind_eq_ok.mp hkey
          exact ⟨part, rest, hpart, hrest, (Except.ok.inj hkey).symm⟩
        | false =>
          rw [habsent] at hkey
          obtain ⟨part, hpart, hkey⟩ := bind_eq_ok.mp hkey
          obtain ⟨rest, hrest, hkey⟩ := bind_eq_ok.mp hkey
          exact ⟨part, rest, hpart, hrest, (Except.ok.inj hkey).symm⟩
      have hmem : (argMeta, arg) ∈ (argMeta, arg) :: argMetas.zip args := mem_cons_self
      refine .cons (argServed_of_fresh hsound (hself arg mem_cons_self)
        (hlive arg mem_cons_self) (hfits _ hmem) (htracked arg mem_cons_self)
        (hpinned _ hmem) (hcached _ hmem) hfirst hpart) ?_
      exact ih (Nat.succ.inj hlength) (fun a ha => hself a (mem_cons_of_mem _ ha))
        (fun a ha => hlive a (mem_cons_of_mem _ ha))
        (fun slot hslot => hfits slot (mem_cons_of_mem _ hslot))
        (fun a ha => htracked a (mem_cons_of_mem _ ha))
        (fun slot hslot => hpinned slot (mem_cons_of_mem _ hslot))
        (fun slot hslot => hcached slot (mem_cons_of_mem _ hslot)) hothers hrest

end Miss

end Quadrants.Template
