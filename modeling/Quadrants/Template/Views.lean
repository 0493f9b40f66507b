import Quadrants.Template.Mapper

namespace Quadrants.Template

/-- An entry of `_mapping_cache`, with the arguments its tracker holds weak references to and the
primitive objects that its key keeps alive. -/
structure Entry where
  argsHash : List ObjId
  count : ℕ
  key : Key
  tracked : List ObjId
  pinned : List ObjId
  deriving DecidableEq

/-- The state of a `TemplateMapper`. The number of a key is its place in `mapping`. -/
structure Mapper where
  mapping : List Key
  cache : List Entry
  deriving DecidableEq

namespace Heap

variable (h : Heap)

def isPerInstance (arg : ObjId) : Bool :=
  match h.get arg with
  | some (.dataOriented _ stableMembers _) => !stableMembers
  | _ => false

def isPrimitive (arg : ObjId) : Bool :=
  match h.get arg with
  | some (.primitive _ _) => true
  | _ => false

def isWeakrefable (arg : ObjId) : Bool :=
  match h.get arg with
  | some (.primitive _ _) => false
  | some (.other weakrefable) => weakrefable
  | some _ => true
  | none => false

end Heap

section Lookup

variable (h : Heap) (raiseOnTemplatedFloats : Bool) (argMetas : List ArgMetadata)

def memberIds : List (ArgMetadata × ObjId) → KeyM (List ObjId)
  | [] => pure []
  | (argMeta, arg) :: rest =>
    if argMeta.isTemplateSlot && h.isPerInstance arg then do
      let chains ← structNdPathsFor h arg
      let ids ← followChains h arg chains
      let others ← memberIds rest
      pure (ids ++ others)
    else memberIds rest

def mappingCacheDisabled : Bool := argMetas.any fun argMeta => argMeta.annot.hasFinal

def trackedArgs (args : List ObjId) : List ObjId := args.filter fun arg => !h.isPrimitive arg

def pinnedArgs (args : List ObjId) : List ObjId :=
  ((argMetas.zip args).filter fun (argMeta, arg) =>
    argMeta.isTemplateSlot && h.isPrimitive arg).map Prod.snd

def Mapper.number (mapper : Mapper) (key : Key) : ℕ × Mapper :=
  if key ∈ mapper.mapping then (mapper.mapping.idxOf key, mapper)
  else (mapper.mapping.length, { mapper with mapping := mapper.mapping ++ [key] })

def Mapper.store (mapper : Mapper) (args argsHash : List ObjId) (count : ℕ) (key : Key) : Mapper :=
  if !mappingCacheDisabled argMetas && (trackedArgs h args).all h.isWeakrefable then
    { mapper with
      cache := ⟨argsHash, count, key, trackedArgs h args, pinnedArgs h argMetas args⟩ ::
        mapper.cache }
  else mapper

def lookup (args : List ObjId) (mapper : Mapper) (caches : Caches) :
    Except Failure (ℕ × Key) × Mapper × Caches :=
  if args.length ≠ argMetas.length then
    (.error (.argumentCount argMetas.length args.length), mapper, caches)
  else
    match (memberIds h (argMetas.zip args)).run.run caches with
    | (.error failure, caches) => (.error failure, mapper, caches)
    | (.ok ids, caches) =>
      let argsHash := args ++ ids
      let hit := if mappingCacheDisabled argMetas then none
        else mapper.cache.find? fun entry => entry.argsHash = argsHash
      match hit with
      | some entry => (.ok (entry.count, entry.key), mapper, caches)
      | none =>
        match (extract h raiseOnTemplatedFloats argMetas args).run.run caches with
        | (.error failure, caches) => (.error failure, mapper, caches)
        | (.ok key, caches) =>
          let (count, mapper) := mapper.number key
          (.ok (count, key), mapper.store h argMetas args argsHash count key, caches)

end Lookup

def PyObj.references : PyObj → List ObjId
  | .tensor impl => [impl]
  | .dataOriented _ _ attrs => attrs.map Prod.snd
  | .dataclass _ fields => fields.map Prod.snd
  | _ => []

def PyObj.setattr (attr : Attr) (value : ObjId) : PyObj → PyObj
  | .dataOriented cls stableMembers attrs =>
    .dataOriented cls stableMembers
      (attrs.map fun member => if member.1 = attr then (attr, value) else member)
  | .dataclass cls fields =>
    .dataclass cls (fields.map fun member => if member.1 = attr then (attr, value) else member)
  | obj => obj

def PyObj.setImpl (impl : ObjId) : PyObj → PyObj
  | .tensor _ => .tensor impl
  | obj => obj

def Heap.update (h : Heap) (id : ObjId) (change : PyObj → PyObj) : Heap :=
  h.map fun entry =>
    if entry.1 = id then (id, { entry.2 with obj := change entry.2.obj }) else entry

structure World where
  heap : Heap
  nextSerial : ℕ
  caches : Caches
  mapper : Mapper
  deriving DecidableEq

def World.start : World := ⟨[], 0, ⟨[], []⟩, ⟨[], []⟩⟩

inductive Event where
  | alloc (id : ObjId) (obj : PyObj)
  /-- Objects that die together, such as a cycle. -/
  | free (ids : List ObjId)
  | setattr (id : ObjId) (attr : Attr) (value : ObjId)
  | setImpl (id impl : ObjId)
  /-- The runtime is destroyed. -/
  | reset
  /-- A lookup of another kernel, which uses the caches on the same instances. -/
  | lookupElsewhere (mapper : Mapper) (argMetas : List ArgMetadata) (args : List ObjId)
  | call (args : List ObjId)

structure Answer where
  world : World
  args : List ObjId
  count : ℕ
  key : Key
  deriving DecidableEq

section Run

variable (raiseOnTemplatedFloats : Bool) (argMetas : List ArgMetadata)

def World.free (w : World) (ids : List ObjId) : World :=
  { w with
    heap := w.heap.filter fun entry => entry.1 ∉ ids
    caches := ⟨w.caches.ndPaths.filter fun entry => entry.1 ∉ ids,
      w.caches.specKeys.filter fun entry => entry.1.1 ∉ ids⟩
    mapper := { w.mapper with
      cache := w.mapper.cache.filter fun entry => entry.tracked.all (· ∉ ids) } }

def World.call (w : World) (args : List ObjId) : Except Failure (ℕ × Key) × World :=
  let args := args.map w.heap.unwrap
  let (answer, mapper, caches) :=
    lookup w.heap raiseOnTemplatedFloats argMetas args w.mapper w.caches
  (answer, { w with mapper, caches })

def World.lookupElsewhere (w : World) (mapper : Mapper) (argMetas : List ArgMetadata)
    (args : List ObjId) : World :=
  let args := args.map w.heap.unwrap
  { w with caches := (lookup w.heap raiseOnTemplatedFloats argMetas args mapper w.caches).2.2 }

def World.step (w : World) : Event → World
  | .alloc id obj =>
    { w with heap := (id, ⟨w.nextSerial, obj⟩) :: w.heap, nextSerial := w.nextSerial + 1 }
  | .free ids => w.free ids
  | .setattr id attr value => { w with heap := w.heap.update id (PyObj.setattr attr value) }
  | .setImpl id impl => { w with heap := w.heap.update id (PyObj.setImpl impl) }
  | .reset => { w with mapper := { w.mapper with cache := [] } }
  | .lookupElsewhere mapper argMetas args =>
    w.lookupElsewhere raiseOnTemplatedFloats mapper argMetas args
  | .call args => (w.call raiseOnTemplatedFloats argMetas args).2

def World.answers (w : World) : Event → List Answer
  | .call args =>
    match (w.call raiseOnTemplatedFloats argMetas args).1 with
    | .ok (count, key) => [⟨w, args.map w.heap.unwrap, count, key⟩]
    | .error _ => []
  | _ => []

def World.run (w : World) : List Event → List Answer
  | [] => []
  | event :: events =>
    w.answers raiseOnTemplatedFloats argMetas event ++
      World.run (w.step raiseOnTemplatedFloats argMetas event) events

end Run

end Quadrants.Template

/-!
What the key of an argument depends on. The keys cached on dataclass instances are set aside here,
and the chains to the ndarrays of a data-oriented object are given as a function.
-/

namespace Quadrants.Template

section Fresh

variable (h : Heap) (paths : ObjId → List (List Attr)) (raiseOnTemplatedFloats : Bool)

def freshTemplate (arg : ObjId) : Except Failure KeyPart :=
  match h.cell arg with
  | none => .error .missingAttribute
  | some ⟨serial, obj⟩ =>
    match obj with
    | .ndarray _ => .error .ndarrayAsTemplate
    | .dataOriented cls stableMembers _ =>
      if stableMembers then .ok (.weakref serial)
      else do
        let nds ← collectStructNdDescriptors h arg (paths arg)
        .ok (structKey cls nds serial)
    | .primitive isFloat value =>
      if raiseOnTemplatedFloats && isFloat then .error .floatAsTemplate
      else .ok (.value value)
    | _ => .ok (.object serial)

def freshTensor (argName : String) (arg : ObjId) : Except Failure KeyPart :=
  match h.get arg with
  | some (.ndarray _) | some (.external _) => do
      let part ← extractNdarray h none argName arg
      .ok (.marked true part)
  | _ => do
      let part ← freshTemplate h paths raiseOnTemplatedFloats arg
      .ok (.marked false part)

mutual

def freshArg : AnnotationType → String → ObjId → Except Failure KeyPart
  | .template, _, arg => freshTemplate h paths raiseOnTemplatedFloats (h.unwrap arg)
  | .tensor, argName, arg => freshTensor h paths raiseOnTemplatedFloats argName (h.unwrap arg)
  | .ndarray needsGrad, argName, arg => extractNdarray h needsGrad argName (h.unwrap arg)
  | .scalar, _, _ => .ok .placeholder
  | .dataclass _ _ fields, argName, arg => freshFields fields argName arg

def freshFields : FieldAnnotations → String → ObjId → Except Failure KeyPart
  | .nil, _, _ => .ok .tupleNil
  | .final name rest, argName, arg => do
      let value ← getField h arg name
      let part ← finalScalarKey h raiseOnTemplatedFloats value
      let parts ← freshFields rest argName arg
      .ok (.tupleCons part parts)
  | .cons name annot rest, argName, arg => do
      let value ← getField h arg name
      let part ← freshArg annot (createFlatName argName name) value
      let parts ← freshFields rest argName arg
      .ok (.tupleCons part parts)

end

def freshKey : List ArgMetadata → List ObjId → Except Failure Key
  | argMeta :: argMetas, arg :: args => do
      let part ←
        if isAbsent h argMeta arg then .ok KeyPart.optionalAbsent
        else freshArg h paths raiseOnTemplatedFloats argMeta.annot argMeta.name arg
      let key ← freshKey argMetas args
      .ok (part :: key)
  | _, _ => .ok []

end Fresh

section Reads

variable (h : Heap)

def leafReads (arg : ObjId) : List ObjId := if h.unwrap arg = arg then [] else [arg]

mutual

def AnnotationType.reads : AnnotationType → ObjId → List ObjId
  | .template, arg => leafReads h arg
  | .tensor, arg => leafReads h arg
  | .ndarray _, arg => leafReads h arg
  | .scalar, _ => []
  | .dataclass _ _ fields, arg => arg :: fields.reads arg

def FieldAnnotations.reads : FieldAnnotations → ObjId → List ObjId
  | .nil, _ => []
  | .final _ rest, arg => rest.reads arg
  | .cons name annot rest, arg =>
    (h.getattr arg name).toList.flatMap annot.reads ++ rest.reads arg

end

def LeafPlain (arg : ObjId) : Prop := h.isPerInstance (h.unwrap arg) = false

mutual

/-- No data-oriented object whose members may be reassigned takes part in the key. -/
def AnnotationType.Plain : AnnotationType → ObjId → Prop
  | .template, arg => LeafPlain h arg
  | .tensor, arg => LeafPlain h arg
  | .ndarray _, arg => LeafPlain h arg
  | .scalar, _ => True
  | .dataclass _ _ fields, arg => fields.Plain arg

def FieldAnnotations.Plain : FieldAnnotations → ObjId → Prop
  | .nil, _ => True
  | .final _ rest, arg => rest.Plain arg
  | .cons name annot rest, arg =>
    (∀ value, h.getattr arg name = some value → annot.Plain value) ∧ rest.Plain arg

end

end Reads

def PyObj.face : PyObj → PyObj
  | .dataOriented cls stableMembers _ => .dataOriented cls stableMembers []
  | .dataclass cls _ => .dataclass cls []
  | obj => obj

def Cell.face (cell : Cell) : Cell := { cell with obj := cell.obj.face }

def Heap.face (h : Heap) (id : ObjId) : Option Cell := (h.cell id).map Cell.face

section Leaf

variable {h : Heap} {arg : ObjId}

theorem isPerInstance_eq_face : h.isPerInstance arg =
    match h.face arg with
    | some ⟨_, .dataOriented _ stableMembers _⟩ => !stableMembers
    | _ => false := by
  unfold Heap.isPerInstance Heap.get Heap.face
  cases h.cell arg with
  | none => rfl
  | some cell => cases cell with | mk serial obj => cases obj <;> rfl

theorem extractNdarray_eq_face (needsGrad : Option Bool) (argName : String) :
    extractNdarray h needsGrad argName arg =
      match h.face arg with
      | some ⟨_, .ndarray info⟩ => ndarrayFeatures needsGrad info info.layout
      | some ⟨_, .external info⟩ => ndarrayFeatures needsGrad info none
      | _ => .error (.invalidArray argName) := by
  unfold extractNdarray Heap.get Heap.face
  cases h.cell arg with
  | none => rfl
  | some cell => cases cell with | mk serial obj => cases obj <;> rfl

theorem finalScalarKey_eq_face (raiseOnTemplatedFloats : Bool) :
    finalScalarKey h raiseOnTemplatedFloats arg =
      match h.face arg with
      | some ⟨_, .primitive isFloat value⟩ =>
        if raiseOnTemplatedFloats && isFloat then .error .floatAsFinal
        else .ok (.finalValue isFloat value)
      | _ => .error .invalidFinal := by
  unfold finalScalarKey Heap.get Heap.face
  cases h.cell arg with
  | none => rfl
  | some cell => cases cell with | mk serial obj => cases obj <;> rfl

def templateKeyOf (raiseOnTemplatedFloats : Bool) : Option Cell → Except Failure KeyPart
  | none => .error .missingAttribute
  | some ⟨_, .ndarray _⟩ => .error .ndarrayAsTemplate
  | some ⟨serial, .dataOriented _ _ _⟩ => .ok (.weakref serial)
  | some ⟨_, .primitive isFloat value⟩ =>
    if raiseOnTemplatedFloats && isFloat then .error .floatAsTemplate else .ok (.value value)
  | some ⟨serial, _⟩ => .ok (.object serial)

theorem freshTemplate_eq_face (paths : ObjId → List (List Attr)) (raiseOnTemplatedFloats : Bool)
    (hplain : h.isPerInstance arg = false) : freshTemplate h paths raiseOnTemplatedFloats arg =
      templateKeyOf raiseOnTemplatedFloats (h.face arg) := by
  unfold Heap.isPerInstance Heap.get at hplain
  unfold freshTemplate Heap.face
  cases hcell : h.cell arg with
  | none => rfl
  | some cell =>
    rw [hcell] at hplain
    obtain ⟨serial, obj⟩ := cell
    cases obj with
    | dataOriented cls stableMembers attrs =>
      have hstable : stableMembers = true := by simpa using hplain
      simp [hstable, templateKeyOf, Cell.face, PyObj.face]
    | _ => rfl

def tensorKeyOf (raiseOnTemplatedFloats : Bool) : Option Cell → Except Failure KeyPart
  | some ⟨_, .ndarray info⟩ => do
      let part ← ndarrayFeatures none info info.layout
      .ok (.marked true part)
  | some ⟨_, .external info⟩ => do
      let part ← ndarrayFeatures none info none
      .ok (.marked true part)
  | face => do
      let part ← templateKeyOf raiseOnTemplatedFloats face
      .ok (.marked false part)

theorem freshTensor_eq_face (paths : ObjId → List (List Attr)) (raiseOnTemplatedFloats : Bool)
    (argName : String) (hplain : h.isPerInstance arg = false) :
    freshTensor h paths raiseOnTemplatedFloats argName arg =
      tensorKeyOf raiseOnTemplatedFloats (h.face arg) := by
  unfold freshTensor
  rw [freshTemplate_eq_face paths raiseOnTemplatedFloats hplain, extractNdarray_eq_face]
  unfold Heap.get Heap.face
  cases h.cell arg with
  | none => rfl
  | some cell => cases cell with | mk serial obj => cases obj <;> rfl

end Leaf

section Agrees

variable (h h' : Heap)

def LeafAgrees (arg : ObjId) : Prop :=
  h'.unwrap arg = h.unwrap arg ∧ h'.face (h.unwrap arg) = h.face (h.unwrap arg)

mutual

def AnnotationType.Agrees : AnnotationType → ObjId → Prop
  | .template, arg => LeafAgrees h h' arg
  | .tensor, arg => LeafAgrees h h' arg
  | .ndarray _, arg => LeafAgrees h h' arg
  | .scalar, _ => True
  | .dataclass _ _ fields, arg => fields.Agrees arg

def FieldAnnotations.Agrees : FieldAnnotations → ObjId → Prop
  | .nil, _ => True
  | .final name rest, arg => h'.getattr arg name = h.getattr arg name ∧
      (∀ value, h.getattr arg name = some value → ∀ raiseOnTemplatedFloats,
        finalScalarKey h' raiseOnTemplatedFloats value =
          finalScalarKey h raiseOnTemplatedFloats value) ∧ rest.Agrees arg
  | .cons name annot rest, arg => h'.getattr arg name = h.getattr arg name ∧
      (∀ value, h.getattr arg name = some value → annot.Agrees value) ∧ rest.Agrees arg

end

variable {h h'}

theorem LeafAgrees.plain {arg : ObjId} (hagrees : LeafAgrees h h' arg) :
    LeafPlain h' arg ↔ LeafPlain h arg := by
  unfold LeafPlain
  rw [hagrees.1, isPerInstance_eq_face, isPerInstance_eq_face, hagrees.2]

mutual

theorem AnnotationType.Agrees.plain : ∀ {annot : AnnotationType} {arg : ObjId},
    annot.Agrees h h' arg → annot.Plain h arg → annot.Plain h' arg
  | .template, _, hagrees, hplain => (LeafAgrees.plain hagrees).mpr hplain
  | .tensor, _, hagrees, hplain => (LeafAgrees.plain hagrees).mpr hplain
  | .ndarray _, _, hagrees, hplain => (LeafAgrees.plain hagrees).mpr hplain
  | .scalar, _, _, _ => trivial
  | .dataclass _ _ _, _, hagrees, hplain => FieldAnnotations.Agrees.plain hagrees hplain

theorem FieldAnnotations.Agrees.plain : ∀ {fields : FieldAnnotations} {arg : ObjId},
    fields.Agrees h h' arg → fields.Plain h arg → fields.Plain h' arg
  | .nil, _, _, _ => trivial
  | .final _ rest, arg, hagrees, hplain =>
    @FieldAnnotations.Agrees.plain rest arg hagrees.2.2 hplain
  | .cons _ _ _, _, hagrees, hplain => by
    refine ⟨fun value hvalue => ?_, FieldAnnotations.Agrees.plain hagrees.2.2 hplain.2⟩
    rw [hagrees.1] at hvalue
    exact (hagrees.2.1 value hvalue).plain (hplain.1 value hvalue)

end

theorem getField_bind_congr {arg : ObjId} {name : Attr} {f g : ObjId → Except Failure KeyPart}
    (hattr : h'.getattr arg name = h.getattr arg name)
    (hfg : ∀ value, h.getattr arg name = some value → f value = g value) :
    (getField h' arg name >>= f) = (getField h arg name >>= g) := by
  unfold getField
  rw [hattr]
  cases hvalue : h.getattr arg name with
  | none => rfl
  | some value => exact hfg value hvalue

variable (paths paths' : ObjId → List (List Attr)) (raiseOnTemplatedFloats : Bool)

mutual

theorem freshArg_congr : ∀ {annot : AnnotationType} (argName : String) {arg : ObjId},
    annot.Agrees h h' arg → annot.Plain h arg →
    freshArg h' paths' raiseOnTemplatedFloats annot argName arg =
      freshArg h paths raiseOnTemplatedFloats annot argName arg
  | .template, _, _, hagrees, hplain => by
    have hplain' := (LeafAgrees.plain hagrees).mpr hplain
    unfold LeafPlain at hplain'
    rw [hagrees.1] at hplain'
    rw [freshArg, freshArg, hagrees.1, freshTemplate_eq_face _ _ hplain,
      freshTemplate_eq_face _ _ hplain', hagrees.2]
  | .tensor, _, _, hagrees, hplain => by
    have hplain' := (LeafAgrees.plain hagrees).mpr hplain
    unfold LeafPlain at hplain'
    rw [hagrees.1] at hplain'
    rw [freshArg, freshArg, hagrees.1, freshTensor_eq_face _ _ _ hplain,
      freshTensor_eq_face _ _ _ hplain', hagrees.2]
  | .ndarray _, _, _, hagrees, _ => by
    rw [freshArg, freshArg, hagrees.1, extractNdarray_eq_face, extractNdarray_eq_face, hagrees.2]
  | .scalar, _, _, _, _ => by rw [freshArg, freshArg]
  | .dataclass _ _ _, argName, _, hagrees, hplain => by
    rw [freshArg, freshArg]
    exact freshFields_congr argName hagrees hplain

theorem freshFields_congr : ∀ {fields : FieldAnnotations} (argName : String) {arg : ObjId},
    fields.Agrees h h' arg → fields.Plain h arg →
    freshFields h' paths' raiseOnTemplatedFloats fields argName arg =
      freshFields h paths raiseOnTemplatedFloats fields argName arg
  | .nil, _, _, _, _ => by rw [freshFields, freshFields]
  | .final _ _, argName, _, hagrees, hplain => by
    rw [freshFields, freshFields]
    refine getField_bind_congr hagrees.1 fun value hvalue => ?_
    rw [hagrees.2.1 value hvalue, freshFields_congr argName hagrees.2.2 hplain]
  | .cons name _ _, argName, _, hagrees, hplain => by
    rw [freshFields, freshFields]
    refine getField_bind_congr hagrees.1 fun value hvalue => ?_
    rw [freshArg_congr (createFlatName argName name) (hagrees.2.1 value hvalue)
      (hplain.1 value hvalue), freshFields_congr argName hagrees.2.2 hplain.2]

end

end Agrees

end Quadrants.Template
