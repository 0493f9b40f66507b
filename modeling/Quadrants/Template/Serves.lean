import Quadrants.Template.Views

/-!
Extraction through the caches on the instances gives the fresh key as long as the cached keys are
fresh.
-/

namespace Quadrants.Template

open List

def pathsOf (h : Heap) (caches : Caches) (arg : ObjId) : List (List Attr) :=
  (caches.ndPaths.lookup arg).getD (h.structNdPaths arg)

section NameFree

variable {h : Heap} {paths : ObjId → List (List Attr)} {raiseOnTemplatedFloats : Bool}

theorem bind_eq_ok {α β : Type} {x : Except Failure α} {f : α → Except Failure β} {result : β} :
    (x >>= f) = .ok result ↔ ∃ a, x = .ok a ∧ f a = .ok result := by
  cases x with
  | error failure => simp [Bind.bind, Except.bind]
  | ok a => simp [Bind.bind, Except.bind]

variable {arg : ObjId} {argName argName' : String} {part : KeyPart}

theorem extractNdarray_name {needsGrad : Option Bool}
    (hpart : extractNdarray h needsGrad argName arg = .ok part) :
    extractNdarray h needsGrad argName' arg = .ok part := by
  unfold extractNdarray at hpart ⊢
  split at hpart
  · exact hpart
  · exact hpart
  · cases hpart

theorem freshTensor_name
    (hpart : freshTensor h paths raiseOnTemplatedFloats argName arg = .ok part) :
    freshTensor h paths raiseOnTemplatedFloats argName' arg = .ok part := by
  unfold freshTensor at hpart ⊢
  split at hpart
  · obtain ⟨features, hfeatures, hmarked⟩ := bind_eq_ok.mp hpart
    exact bind_eq_ok.mpr ⟨features, extractNdarray_name hfeatures, hmarked⟩
  · obtain ⟨features, hfeatures, hmarked⟩ := bind_eq_ok.mp hpart
    exact bind_eq_ok.mpr ⟨features, extractNdarray_name hfeatures, hmarked⟩
  · exact hpart

mutual

theorem freshArg_name : ∀ {annot : AnnotationType} {argName argName' : String} {arg : ObjId}
    {part : KeyPart},
    freshArg h paths raiseOnTemplatedFloats annot argName arg = .ok part →
      freshArg h paths raiseOnTemplatedFloats annot argName' arg = .ok part
  | .template, _, _, _, _, hpart => by
    exact hpart
  | .tensor, _, _, _, _, hpart => by
    exact freshTensor_name hpart
  | .ndarray _, _, _, _, _, hpart => by
    exact extractNdarray_name hpart
  | .scalar, _, _, _, _, hpart => by
    exact hpart
  | .dataclass _ _ _, _, _, _, _, hpart => by
    exact freshFields_name hpart

theorem freshFields_name : ∀ {fields : FieldAnnotations} {argName argName' : String} {arg : ObjId}
    {part : KeyPart},
    freshFields h paths raiseOnTemplatedFloats fields argName arg = .ok part →
      freshFields h paths raiseOnTemplatedFloats fields argName' arg = .ok part
  | .nil, _, _, _, _, hpart => by
    exact hpart
  | .final _ _, _, _, _, _, hpart => by
    obtain ⟨value, hvalue, hpart⟩ := bind_eq_ok.mp hpart
    obtain ⟨head, hhead, hpart⟩ := bind_eq_ok.mp hpart
    obtain ⟨parts, hparts, htuple⟩ := bind_eq_ok.mp hpart
    exact bind_eq_ok.mpr ⟨value, hvalue, bind_eq_ok.mpr
      ⟨head, hhead, bind_eq_ok.mpr ⟨parts, freshFields_name hparts, htuple⟩⟩⟩
  | .cons _ _ _, _, _, _, _, hpart => by
    obtain ⟨value, hvalue, hpart⟩ := bind_eq_ok.mp hpart
    obtain ⟨head, hhead, hpart⟩ := bind_eq_ok.mp hpart
    obtain ⟨parts, hparts, htuple⟩ := bind_eq_ok.mp hpart
    exact bind_eq_ok.mpr ⟨value, hvalue, bind_eq_ok.mpr
      ⟨head, freshArg_name hhead, bind_eq_ok.mpr ⟨parts, freshFields_name hparts, htuple⟩⟩⟩

end

end NameFree

def Settled (h : Heap) (raiseOnTemplatedFloats : Bool) (annot : AnnotationType) (arg : ObjId)
    (part : KeyPart) : Prop :=
  annot.Plain h arg ∧ ∀ paths argName,
    freshArg h paths raiseOnTemplatedFloats annot argName arg = .ok part

variable {annot : AnnotationType} {arg : ObjId} {h : Heap} {part : KeyPart}
variable {raiseOnTemplatedFloats : Bool}

theorem Settled.congr {h' : Heap} (hsettled : Settled h raiseOnTemplatedFloats annot arg part)
    (hagrees : annot.Agrees h h' arg) : Settled h' raiseOnTemplatedFloats annot arg part := by
  refine ⟨hagrees.plain hsettled.1, fun paths argName => ?_⟩
  rw [freshArg_congr paths paths raiseOnTemplatedFloats argName hagrees hsettled.1]
  exact hsettled.2 paths argName

theorem LeafAgrees.refl (h : Heap) (arg : ObjId) : LeafAgrees h h arg := ⟨rfl, rfl⟩

mutual

theorem AnnotationType.Agrees.refl (h : Heap) : ∀ (annot : AnnotationType) (arg : ObjId),
    annot.Agrees h h arg
  | .template, arg => LeafAgrees.refl h arg
  | .tensor, arg => LeafAgrees.refl h arg
  | .ndarray _, arg => LeafAgrees.refl h arg
  | .scalar, _ => trivial
  | .dataclass _ _ fields, arg => FieldAnnotations.Agrees.refl h fields arg

theorem FieldAnnotations.Agrees.refl (h : Heap) : ∀ (fields : FieldAnnotations) (arg : ObjId),
    fields.Agrees h h arg
  | .nil, _ => trivial
  | .final _ rest, arg => ⟨rfl, fun _ _ _ => rfl, FieldAnnotations.Agrees.refl h rest arg⟩
  | .cons _ annot rest, arg =>
    ⟨rfl, fun value _ => AnnotationType.Agrees.refl h annot value,
      FieldAnnotations.Agrees.refl h rest arg⟩

end

theorem settled_of_fresh {paths : ObjId → List (List Attr)} {argName : String}
    (hplain : annot.Plain h arg)
    (hpart : freshArg h paths raiseOnTemplatedFloats annot argName arg = .ok part) :
    Settled h raiseOnTemplatedFloats annot arg part := by
  refine ⟨hplain, fun paths' argName' => ?_⟩
  rw [freshArg_congr paths paths' raiseOnTemplatedFloats argName' (.refl h annot arg) hplain]
  exact freshArg_name hpart

/-- Every key cached on an instance is the fresh one. In strict mode none of them is read. -/
def SpecKeysFresh (h : Heap) (raiseOnTemplatedFloats : Bool) (caches : Caches) : Prop :=
  ∀ entry ∈ caches.specKeys, Settled h raiseOnTemplatedFloats entry.1.2 entry.1.1 entry.2

section Serves

variable (h : Heap) (paths : ObjId → List (List Attr)) (raiseOnTemplatedFloats : Bool)

structure CachesFresh (caches : Caches) : Prop where
  paths : pathsOf h caches = paths
  specKeys : SpecKeysFresh h raiseOnTemplatedFloats caches

/-- The computation gives the value from all fresh caches, and leaves the caches fresh and no
instance without its chains. -/
def Serves {α : Type} (m : KeyM α) (value : Except Failure α) : Prop :=
  ∀ caches, CachesFresh h paths raiseOnTemplatedFloats caches →
    (m.run.run caches).1 = value ∧
      CachesFresh h paths raiseOnTemplatedFloats (m.run.run caches).2 ∧
      ∀ arg, (caches.ndPaths.lookup arg).isSome →
        ((m.run.run caches).2.ndPaths.lookup arg).isSome

variable {h paths raiseOnTemplatedFloats} {α β : Type}

theorem Serves.pure (a : α) : Serves h paths raiseOnTemplatedFloats (pure a) (.ok a) :=
  fun _ hcaches => ⟨rfl, hcaches, fun _ hsome => hsome⟩

theorem Serves.throw (failure : Failure) :
    Serves h paths raiseOnTemplatedFloats (throw failure : KeyM α) (.error failure) :=
  fun _ hcaches => ⟨rfl, hcaches, fun _ hsome => hsome⟩

theorem Serves.lift (value : Except Failure α) :
    Serves h paths raiseOnTemplatedFloats (liftM value) value :=
  fun _ hcaches => ⟨rfl, hcaches, fun _ hsome => hsome⟩

theorem run_bind (m : KeyM α) (f : α → KeyM β) (caches : Caches) : (m >>= f).run.run caches =
      match m.run.run caches with
      | (.ok a, caches') => (f a).run.run caches'
      | (.error failure, caches') => (.error failure, caches') := by
  rw [ExceptT.run_bind, StateT.run_bind]
  rcases m.run.run caches with ⟨result, caches'⟩
  cases result <;> rfl

theorem Serves.bind {m : KeyM α} {value : Except Failure α} {f : α → KeyM β}
    {g : α → Except Failure β} (hm : Serves h paths raiseOnTemplatedFloats m value)
    (hf : ∀ a, value = .ok a → Serves h paths raiseOnTemplatedFloats (f a) (g a)) :
    Serves h paths raiseOnTemplatedFloats (m >>= f) (value >>= g) := by
  intro caches hcaches
  obtain ⟨hvalue, hcaches', hsome⟩ := hm caches hcaches
  rw [run_bind]
  rcases hm' : m.run.run caches with ⟨result, caches'⟩
  rw [hm'] at hvalue hcaches' hsome
  subst hvalue
  cases result with
  | error failure => exact ⟨rfl, hcaches', hsome⟩
  | ok a =>
    obtain ⟨hvalue, hcaches'', hsome'⟩ := hf a rfl caches' hcaches'
    exact ⟨hvalue, hcaches'', fun arg harg => hsome' arg (hsome arg harg)⟩

variable {arg : ObjId} {caches : Caches}

theorem pathsOf_insert :
    pathsOf h { caches with ndPaths := (arg, pathsOf h caches arg) :: caches.ndPaths } =
      pathsOf h caches := by
  funext arg'
  unfold pathsOf
  by_cases heq : arg' = arg
  · subst heq
    simp
  · simp [lookup_cons, beq_false_of_ne heq]

theorem run_get_bind (f : Caches → KeyM α) (caches : Caches) :
    (get >>= f : KeyM α).run.run caches = (f caches).run.run caches := rfl

theorem structNdPathsFor_run (arg : ObjId) (caches : Caches) :
    (structNdPathsFor h arg).run.run caches = (.ok (pathsOf h caches arg),
      if (caches.ndPaths.lookup arg).isSome then caches
      else { caches with ndPaths := (arg, pathsOf h caches arg) :: caches.ndPaths }) := by
  unfold structNdPathsFor pathsOf
  rw [run_get_bind]
  cases caches.ndPaths.lookup arg with
  | none => rfl
  | some chains => rfl

theorem serves_structNdPathsFor (arg : ObjId) :
    Serves h paths raiseOnTemplatedFloats (structNdPathsFor h arg) (.ok (paths arg)) := by
  intro caches hcaches
  rw [structNdPathsFor_run]
  refine ⟨by rw [hcaches.paths], ?_, ?_⟩
  · split
    · exact hcaches
    · refine ⟨?_, hcaches.specKeys⟩
      rw [pathsOf_insert]
      exact hcaches.paths
  · intro arg' hsome
    split
    · exact hsome
    · rw [lookup_cons]
      split
      · rfl
      · exact hsome

theorem serves_extractTemplate (arg : ObjId) :
    Serves h paths raiseOnTemplatedFloats (extractTemplate h raiseOnTemplatedFloats arg)
      (freshTemplate h paths raiseOnTemplatedFloats arg) := by
  unfold extractTemplate freshTemplate
  cases h.cell arg with
  | none => exact Serves.throw _
  | some cell =>
    obtain ⟨serial, obj⟩ := cell
    cases obj with
    | ndarray info => exact Serves.throw _
    | external info => exact Serves.pure _
    | tensor impl => exact Serves.pure _
    | dataclass cls fields => exact Serves.pure _
    | other weakrefable => exact Serves.pure _
    | primitive isFloat value =>
      dsimp only
      split
      · exact Serves.throw _
      · exact Serves.pure _
    | dataOriented cls stableMembers attrs =>
      dsimp only
      split
      · exact Serves.pure _
      · have hpaths := @serves_structNdPathsFor h paths raiseOnTemplatedFloats arg
        refine Serves.bind (g := fun chains => do
          let nds ← collectStructNdDescriptors h arg chains
          .ok (structKey cls nds serial)) hpaths fun chains _ => ?_
        exact (Serves.lift _).bind fun nds _ => Serves.pure _

theorem serves_extractTensor (argName : String) (arg : ObjId) :
    Serves h paths raiseOnTemplatedFloats (extractTensor h raiseOnTemplatedFloats argName arg)
      (freshTensor h paths raiseOnTemplatedFloats argName arg) := by
  have hndarray : Serves h paths raiseOnTemplatedFloats
      (liftM (extractNdarray h none argName arg) >>=
        fun part => Pure.pure (KeyPart.marked true part))
      (extractNdarray h none argName arg >>= fun part => .ok (KeyPart.marked true part)) :=
    (Serves.lift _).bind fun part _ => Serves.pure _
  have htemplate := (@serves_extractTemplate h paths raiseOnTemplatedFloats arg).bind
    fun part _ => Serves.pure (KeyPart.marked false part)
  unfold extractTensor freshTensor
  cases h.get arg with
  | none => exact htemplate
  | some obj =>
    cases obj with
    | ndarray info => exact hndarray
    | external info => exact hndarray
    | _ => exact htemplate

theorem serves_remember {annot : AnnotationType} {key : KeyPart}
    (hkey : Settled h raiseOnTemplatedFloats annot arg key) (store : Bool) :
    Serves h paths raiseOnTemplatedFloats
      (do
        if store then
          modify fun caches => { caches with
            specKeys := ((arg, annot), key) :: caches.specKeys }
        Pure.pure key) (.ok key) := by
  intro caches hcaches
  cases store with
  | false => exact ⟨rfl, hcaches, fun _ hsome => hsome⟩
  | true =>
    refine ⟨rfl, ⟨hcaches.paths, fun entry hentry => ?_⟩, fun _ hsome => hsome⟩
    rcases mem_cons.mp hentry with rfl | hentry
    · exact hkey
    · exact hcaches.specKeys entry hentry

mutual

theorem serves_extractArg : ∀ {annot : AnnotationType} (argName : String) {arg : ObjId},
    annot.Plain h arg →
    Serves h paths raiseOnTemplatedFloats
      (extractArg h raiseOnTemplatedFloats annot argName arg)
      (freshArg h paths raiseOnTemplatedFloats annot argName arg)
  | .template, _, arg, _ => by
    exact serves_extractTemplate _
  | .tensor, argName, arg, _ => by
    exact serves_extractTensor argName _
  | .ndarray _, _, arg, _ => by
    exact Serves.lift _
  | .scalar, _, _, _ => by
    exact Serves.pure _
  | .dataclass cls hashable fields, argName, arg, hplain => by
    intro caches hcaches
    rw [extractArg, run_get_bind]
    dsimp only
    split
    · rename_i key hhit
      have hlookup : caches.specKeys.lookup (arg, .dataclass cls hashable fields) = some key := by
        split at hhit
        · exact hhit
        · cases hhit
      obtain ⟨before, after, heq, -⟩ := lookup_eq_some_iff.mp hlookup
      have hmem : ((arg, AnnotationType.dataclass cls hashable fields), key) ∈
          caches.specKeys := by
        rw [heq]
        exact mem_append_right _ mem_cons_self
      refine ⟨((hcaches.specKeys _ hmem).2 paths argName).symm, hcaches, fun _ hsome => hsome⟩
    · have hsettled : ∀ key,
          freshFields h paths raiseOnTemplatedFloats fields argName arg = .ok key →
          Settled h raiseOnTemplatedFloats (.dataclass cls hashable fields) arg key := by
        intro key hkey
        exact settled_of_fresh hplain hkey
      have hfields := (serves_extractFields argName hplain).bind
        (g := Except.ok) fun key hkey =>
          serves_remember (hsettled key hkey) (hashable && !fields.hasFinal)
      have hok : (freshFields h paths raiseOnTemplatedFloats fields argName arg >>= Except.ok) =
          freshFields h paths raiseOnTemplatedFloats fields argName arg := by
        cases freshFields h paths raiseOnTemplatedFloats fields argName arg <;> rfl
      rw [hok] at hfields
      exact hfields caches hcaches

theorem serves_extractFields : ∀ {fields : FieldAnnotations} (argName : String) {arg : ObjId},
    fields.Plain h arg →
    Serves h paths raiseOnTemplatedFloats
      (extractFields h raiseOnTemplatedFloats fields argName arg)
      (freshFields h paths raiseOnTemplatedFloats fields argName arg)
  | .nil, _, _, _ => by
    rw [extractFields, freshFields]
    exact Serves.pure _
  | .final name rest, argName, arg, hplain => by
    rw [extractFields, freshFields]
    refine (Serves.lift _).bind fun value _ => (Serves.lift _).bind fun part _ => ?_
    have hrest := @serves_extractFields rest argName arg hplain
    exact hrest.bind fun parts _ => Serves.pure _
  | .cons name annot rest, argName, arg, hplain => by
    rw [extractFields, freshFields]
    refine (Serves.lift _).bind fun value hvalue => ?_
    have hattr : h.getattr arg name = some value := by
      unfold getField at hvalue
      split at hvalue
      · rename_i hattr
        rw [hattr, Except.ok.inj hvalue]
      · cases hvalue
    refine (serves_extractArg _ (hplain.1 value hattr)).bind fun part _ => ?_
    exact (serves_extractFields argName hplain.2).bind fun parts _ => Serves.pure _

end

/-- The arguments fit: a data-oriented object whose members may be reassigned is an argument of
its own, never a part of a dataclass. -/
def Fits (h : Heap) (argMeta : ArgMetadata) (arg : ObjId) : Prop :=
  match argMeta.annot with
  | .dataclass cls hashable fields => AnnotationType.Plain h (.dataclass cls hashable fields) arg
  | _ => True

mutual

def decidablePlain (h : Heap) : (annot : AnnotationType) → (arg : ObjId) →
    Decidable (annot.Plain h arg)
  | .template, arg => inferInstanceAs (Decidable (h.isPerInstance (h.unwrap arg) = false))
  | .tensor, arg => inferInstanceAs (Decidable (h.isPerInstance (h.unwrap arg) = false))
  | .ndarray _, arg => inferInstanceAs (Decidable (h.isPerInstance (h.unwrap arg) = false))
  | .scalar, _ => .isTrue trivial
  | .dataclass _ _ fields, arg => decidableFieldsPlain h fields arg

def decidableFieldsPlain (h : Heap) : (fields : FieldAnnotations) → (arg : ObjId) →
    Decidable (fields.Plain h arg)
  | .nil, _ => .isTrue trivial
  | .final _ rest, arg => decidableFieldsPlain h rest arg
  | .cons name annot rest, arg =>
    match hvalue : h.getattr arg name with
    | none =>
      @decidable_of_iff _ (rest.Plain h arg)
        ⟨fun hrest => ⟨fun _ heq => (nomatch hvalue.symm.trans heq), hrest⟩, fun hcons => hcons.2⟩
        (decidableFieldsPlain h rest arg)
    | some value =>
      @decidable_of_iff _ (annot.Plain h value ∧ rest.Plain h arg)
        ⟨fun hboth => ⟨fun _ heq => Option.some.inj (hvalue.symm.trans heq) ▸ hboth.1, hboth.2⟩,
          fun hcons => ⟨hcons.1 value hvalue, hcons.2⟩⟩
        (@instDecidableAnd _ _ (decidablePlain h annot value) (decidableFieldsPlain h rest arg))

end

instance (h : Heap) (argMeta : ArgMetadata) (arg : ObjId) : Decidable (Fits h argMeta arg) :=
  match hannot : argMeta.annot with
  | .dataclass cls hashable fields =>
    @decidable_of_iff _ _ (by rw [Fits, hannot])
      (decidablePlain h (.dataclass cls hashable fields) arg)
  | .template | .tensor | .ndarray _ | .scalar => .isTrue (by rw [Fits, hannot]; trivial)

theorem serves_extractArg_of_fits {argMeta : ArgMetadata}
    (hfits : Fits h argMeta arg) (argName : String) : Serves h paths raiseOnTemplatedFloats
      (extractArg h raiseOnTemplatedFloats argMeta.annot argName arg)
      (freshArg h paths raiseOnTemplatedFloats argMeta.annot argName arg) := by
  unfold Fits at hfits
  cases hannot : argMeta.annot with
  | template =>
    exact serves_extractTemplate _
  | tensor =>
    exact serves_extractTensor argName _
  | ndarray needsGrad =>
    exact Serves.lift _
  | scalar =>
    exact Serves.pure _
  | dataclass cls hashable fields =>
    rw [hannot] at hfits
    exact serves_extractArg argName hfits

theorem serves_extract : ∀ {argMetas : List ArgMetadata} {args : List ObjId},
    (∀ slot ∈ argMetas.zip args, Fits h slot.1 slot.2) →
    Serves h paths raiseOnTemplatedFloats (extract h raiseOnTemplatedFloats argMetas args)
      (freshKey h paths raiseOnTemplatedFloats argMetas args) := by
  intro argMetas
  induction argMetas with
  | nil =>
    intro args _
    exact Serves.pure _
  | cons argMeta argMetas ih =>
    intro args hfits
    cases args with
    | nil => exact Serves.pure _
    | cons arg args =>
      have hhead : Fits h argMeta arg := hfits (argMeta, arg) mem_cons_self
      have hrest := ih fun slot hslot => hfits slot (mem_cons_of_mem _ hslot)
      have hcons := fun part => hrest.bind fun key _ => Serves.pure (part :: key)
      rw [extract, freshKey]
      cases isAbsent h argMeta arg with
      | true => exact (Serves.pure _).bind fun part _ => hcons part
      | false => exact (serves_extractArg_of_fits hhead _).bind fun part _ => hcons part

def freshMemberIds (h : Heap) (paths : ObjId → List (List Attr)) :
    List (ArgMetadata × ObjId) → Except Failure (List ObjId)
  | [] => .ok []
  | (argMeta, arg) :: rest =>
    if argMeta.isTemplateSlot && h.isPerInstance arg then do
      let ids ← followChains h arg (paths arg)
      let others ← freshMemberIds h paths rest
      .ok (ids ++ others)
    else freshMemberIds h paths rest

theorem serves_memberIds (slots : List (ArgMetadata × ObjId)) :
    Serves h paths raiseOnTemplatedFloats (memberIds h slots) (freshMemberIds h paths slots) := by
  induction slots with
  | nil => exact Serves.pure _
  | cons slot slots ih =>
    obtain ⟨argMeta, arg⟩ := slot
    rw [memberIds, freshMemberIds]
    split
    · have hpaths := @serves_structNdPathsFor h paths raiseOnTemplatedFloats arg
      refine Serves.bind (g := fun chains => do
        let ids ← followChains h arg chains
        let others ← freshMemberIds h paths slots
        .ok (ids ++ others)) hpaths fun chains _ => ?_
      exact (Serves.lift _).bind fun ids _ => ih.bind fun others _ => Serves.pure _
    · exact ih

theorem memberIds_cached {slots : List (ArgMetadata × ObjId)} {caches' : Caches}
    {ids : List ObjId} (hcaches : CachesFresh h paths raiseOnTemplatedFloats caches)
    (hrun : (memberIds h slots).run.run caches = (.ok ids, caches')) :
    ∀ slot ∈ slots, slot.1.isTemplateSlot && h.isPerInstance slot.2 →
      (caches'.ndPaths.lookup slot.2).isSome := by
  induction slots generalizing caches ids with
  | nil => exact fun slot hslot => nomatch hslot
  | cons first slots ih =>
    obtain ⟨argMeta, arg⟩ := first
    rw [memberIds] at hrun
    split at hrun
    · rw [run_bind, structNdPathsFor_run] at hrun
      dsimp only at hrun
      set stored := if (caches.ndPaths.lookup arg).isSome then caches
        else { caches with ndPaths := (arg, pathsOf h caches arg) :: caches.ndPaths } with hstored
      have hfresh : CachesFresh h paths raiseOnTemplatedFloats stored := by
        have hserves := (serves_structNdPathsFor arg caches hcaches).2.1
        rw [structNdPathsFor_run] at hserves
        exact hserves
      have harg : (stored.ndPaths.lookup arg).isSome := by
        rw [hstored]
        split
        · assumption
        · simp
      cases hfollow : followChains h arg (pathsOf h caches arg) with
      | error failure =>
        rw [hfollow] at hrun
        cases hrun
      | ok first =>
        rw [hfollow] at hrun
        change (memberIds h slots >>=
          fun others => Pure.pure (first ++ others)).run.run stored = _ at hrun
        rw [run_bind] at hrun
        rcases hrest : (memberIds h slots).run.run stored with ⟨result, caches''⟩
        rw [hrest] at hrun
        cases result with
        | error failure => cases hrun
        | ok others =>
          obtain ⟨-, rfl⟩ := Prod.mk.inj hrun
          intro slot hslot hwalk
          rcases mem_cons.mp hslot with rfl | hslot
          · have hmono := (serves_memberIds slots stored hfresh).2.2 arg harg
            rw [hrest] at hmono
            exact hmono
          · exact ih hfresh hrest slot hslot hwalk
    · rename_i hskip
      intro slot hslot hwalk
      rcases mem_cons.mp hslot with rfl | hslot
      · exact absurd hwalk hskip
      · exact ih hcaches hrun slot hslot hwalk

end Serves

end Quadrants.Template
