import Mathlib.Data.Int.Notation
import Quadrants.Library.LabelledWalk

namespace Quadrants.Template

open Library.LabelledWalk List

/-- What `id` returns: the address of an object, free for another one once the object is dead. -/
abbrev ObjId := ℕ

abbrev Attr := String

structure NdarrayInfo where
  elementType : ℕ
  shape : Option (List ℕ)
  hasGrad : Bool
  layout : Option (List ℕ)
  deriving DecidableEq, Repr

inductive PyObj where
  | ndarray (info : NdarrayInfo)
  /-- A numpy array or a torch tensor. -/
  | external (info : NdarrayInfo)
  /-- The `qd.Tensor` wrapper of an ndarray or a field. -/
  | tensor (impl : ObjId)
  | dataOriented (cls : ℕ) (stableMembers : Bool) (attrs : List (Attr × ObjId))
  | dataclass (cls : ℕ) (fields : List (Attr × ObjId))
  /-- An int, a float, a bool, or None, which has no value. -/
  | primitive (isFloat : Bool) (value : Option ℤ)
  /-- Fields, SNodes and all other objects without ndarray members. -/
  | other (weakrefable : Bool)
  deriving DecidableEq, Repr

/-- A live object. The serial number tells objects apart that lived at one address. -/
structure Cell where
  serial : ℕ
  obj : PyObj
  deriving DecidableEq, Repr

abbrev Heap := List (ObjId × Cell)

namespace Heap

variable (h : Heap)

def cell (id : ObjId) : Option Cell := h.lookup id

def get (id : ObjId) : Option PyObj := (h.cell id).map Cell.obj

def unwrap (id : ObjId) : ObjId :=
  match h.get id with
  | some (.tensor impl) => impl
  | _ => id

def isNdarray (id : ObjId) : Bool :=
  match h.get id with
  | some (.ndarray _) => true
  | _ => false

def isContainer (id : ObjId) : Bool :=
  match h.get id with
  | some (.dataOriented _ _ _) | some (.dataclass _ _) => true
  | _ => false

def members (id : ObjId) : List (Attr × ObjId) :=
  match h.get id with
  | some (.dataOriented _ _ attrs) => attrs
  | some (.dataclass _ fields) => fields
  | _ => []

def getattr (id : ObjId) (attr : Attr) : Option ObjId := (h.members id).lookup attr

def followChain (id : ObjId) (chain : List Attr) : Option ObjId := chain.foldlM h.getattr id

def unwrappedMembers (id : ObjId) : List (Attr × ObjId) :=
  (h.members id).map fun member => (member.1, h.unwrap member.2)

/-- The ndarrays reachable from a container through its members, with the attribute chain of
each, as `_build_struct_nd_paths` and `_predeclare_struct_ndarrays` meet them. -/
def structNdarrays (id : ObjId) : List (ObjId × List Attr) :=
  (walk h.unwrappedMembers h.isNdarray h.isContainer (h.length + 1) id [] ⟨[id], []⟩).found

def structNdPaths (id : ObjId) : List (List Attr) := (h.structNdarrays id).map Prod.snd

structure WellFormed : Prop where
  attrs_nodup : ∀ id, ((h.members id).map Prod.fst).Nodup
  tensor_impl : ∀ id impl, h.get id = some (.tensor impl) → h.isContainer impl = false

variable {h}

variable {attr : Attr} {chain : List Attr} {child id target : ObjId}

theorem unwrap_of_isContainer (hid : h.isContainer id = true) : h.unwrap id = id := by
  unfold isContainer at hid
  unfold unwrap
  split
  · rename_i hget
    simp [hget] at hid
  · rfl

theorem isNdarray_of_isContainer (hid : h.isContainer id = true) : h.isNdarray id = false := by
  unfold isContainer at hid
  unfold isNdarray
  split
  · rename_i hget
    simp [hget] at hid
  · rfl

theorem isContainer_of_getattr
    (hattr : h.getattr id attr = some child) : h.isContainer id = true := by
  unfold getattr members at hattr
  unfold isContainer
  split at hattr
  · simp
  · simp
  · cases hattr

theorem mem_unwrappedMembers
    (hattr : h.getattr id attr = some child) : (attr, h.unwrap child) ∈ h.unwrappedMembers id := by
  obtain ⟨before, after, heq, -⟩ := lookup_eq_some_iff.mp hattr
  refine mem_map.mpr ⟨(attr, child), ?_, rfl⟩
  rw [heq]
  exact mem_append_right _ mem_cons_self

theorem leads_of_followChain (hchain : h.followChain id (attr :: chain) = some target) :
    Leads h.unwrappedMembers h.isNdarray h.isContainer id (attr :: chain) (h.unwrap target) := by
  induction chain generalizing id attr with
  | nil =>
    obtain ⟨child, hchild, hrest⟩ := Option.bind_eq_some_iff.mp hchain
    obtain rfl := Option.some.inj hrest
    exact .edge (mem_unwrappedMembers hchild)
  | cons attr' chain ih =>
    obtain ⟨child, hchild, hrest⟩ := Option.bind_eq_some_iff.mp hchain
    obtain ⟨grandchild, hgrandchild, -⟩ := Option.bind_eq_some_iff.mp hrest
    have hcontainer := isContainer_of_getattr hgrandchild
    have hedge := mem_unwrappedMembers hchild
    rw [unwrap_of_isContainer hcontainer] at hedge
    exact .step hedge (isNdarray_of_isContainer hcontainer) hcontainer (ih hrest)

theorem mem_keys_of_isContainer (hid : h.isContainer id = true) :
    id ∈ (h.map Prod.fst).toFinset := by
  have hsome : ∃ cell, h.cell id = some cell := by
    unfold isContainer get at hid
    cases hcell : h.cell id with
    | none =>
      rw [hcell] at hid
      cases hid
    | some cell => exact ⟨cell, rfl⟩
  obtain ⟨cell, hcell⟩ := hsome
  obtain ⟨before, after, heq, -⟩ := lookup_eq_some_iff.mp hcell
  rw [mem_toFinset, heq, map_append]
  exact mem_append_right _ mem_cons_self

theorem mem_structNdarrays (hchain : h.followChain id (attr :: chain) = some target)
    (hnd : h.isNdarray (h.unwrap target) = true) :
    ∃ chain', (h.unwrap target, chain') ∈ h.structNdarrays id := by
  refine @walk_complete _ _ h.unwrappedMembers h.isNdarray h.isContainer _
    (h.map Prod.fst).toFinset (fun n hn => mem_keys_of_isContainer hn) _ ?_ _ _ _
    (leads_of_followChain hchain) hnd
  have hcard := toFinset_card_le (h.map Prod.fst)
  rw [length_map] at hcard
  omega

end Heap

end Quadrants.Template

namespace Quadrants.Template

mutual

/-- What a parameter of a kernel, or a field of a dataclass, is declared as. Classes are told apart
by their `id`. -/
inductive AnnotationType where
  | template
  | tensor
  | ndarray (needsGrad : Option Bool)
  /-- Scalars, and everything else that takes no part in template instantiation. -/
  | scalar
  | dataclass (cls : ℕ) (hashable : Bool) (fields : FieldAnnotations)
  deriving DecidableEq

inductive FieldAnnotations where
  | nil
  | final (name : Attr) (rest : FieldAnnotations)
  | cons (name : Attr) (annot : AnnotationType) (rest : FieldAnnotations)
  deriving DecidableEq

end

mutual

def AnnotationType.hasFinal : AnnotationType → Bool
  | .dataclass _ _ fields => fields.hasFinal
  | _ => false

def FieldAnnotations.hasFinal : FieldAnnotations → Bool
  | .nil => false
  | .final _ _ => true
  | .cons _ annot rest => annot.hasFinal || rest.hasFinal

end

structure ArgMetadata where
  annot : AnnotationType
  name : String
  optional : Bool
  deriving DecidableEq

def ArgMetadata.isTemplateSlot (argMeta : ArgMetadata) : Bool :=
  match argMeta.annot with
  | .template | .tensor => true
  | .ndarray _ => argMeta.optional
  | _ => false

structure Descriptor where
  chain : List Attr
  elementType : ℕ
  ndim : ℕ
  needsGrad : Bool
  layout : Option (List ℕ)
  deriving DecidableEq, Repr

/-- A part of a key. Objects compare by identity, so by their serial numbers; a weak reference to
a dead object equals no other. -/
inductive KeyPart where
  | placeholder
  | optionalAbsent
  | value (value : Option ℤ)
  | finalValue (isFloat : Bool) (value : Option ℤ)
  | object (serial : ℕ)
  | weakref (serial : ℕ)
  | struct (cls : ℕ) (descriptors : List Descriptor) (serial : ℕ)
  | features (elementType ndim : ℕ) (needsGrad : Bool) (layout : Option (List ℕ))
  | marked (isNdarray : Bool) (part : KeyPart)
  | tupleNil
  | tupleCons (part rest : KeyPart)
  deriving DecidableEq

abbrev Key := List KeyPart

inductive Failure where
  | argumentCount (needed provided : ℕ)
  | ndarrayAsTemplate
  | floatAsTemplate
  | floatAsFinal
  | invalidFinal
  | invalidArray (argName : String)
  | missingAttribute
  | shapeMissing
  deriving DecidableEq

/-- What is cached on the instances: the attribute chains to the ndarrays as `_qd_nd_paths`, and
the keys of dataclasses as `_qd_spec_key`, one for each annotation. -/
structure Caches where
  ndPaths : List (ObjId × List (List Attr))
  specKeys : List ((ObjId × AnnotationType) × KeyPart)
  deriving DecidableEq

abbrev KeyM := ExceptT Failure (StateM Caches)

def createFlatName (basename childName : String) : String :=
  if basename.startsWith "__qd_" then basename ++ "__qd_" ++ childName
  else "__qd_" ++ basename ++ "__qd_" ++ childName

section Extract

variable (h : Heap)

def structNdPathsFor (arg : ObjId) : KeyM (List (List Attr)) := do
  let caches ← get
  match caches.ndPaths.lookup arg with
  | some chains => pure chains
  | none =>
    let chains := h.structNdPaths arg
    set { caches with ndPaths := (arg, chains) :: caches.ndPaths }
    pure chains

def followChains (arg : ObjId) (chains : List (List Attr)) : Except Failure (List ObjId) :=
  match chains.mapM (h.followChain arg) with
  | some ids => .ok ids
  | none => .error .missingAttribute

def memberInfo (id : ObjId) : Option NdarrayInfo :=
  match h.get (h.unwrap id) with
  | some (.ndarray info) => some info
  | _ => none

def describe (chain : List Attr) (info : Option NdarrayInfo) : Option Descriptor := do
  let info ← info
  let shape ← info.shape
  pure ⟨chain, info.elementType, shape.length, info.hasGrad, info.layout⟩

def descriptors (chains : List (List Attr)) (infos : List (Option NdarrayInfo)) :
    List Descriptor :=
  (chains.zip infos).filterMap fun (chain, info) => describe chain info

def collectStructNdDescriptors (arg : ObjId) (chains : List (List Attr)) :
    Except Failure (List Descriptor) := do
  let ids ← followChains h arg chains
  pure (descriptors chains (ids.map (memberInfo h)))

def structKey (cls : ℕ) (nds : List Descriptor) (serial : ℕ) : KeyPart :=
  if nds = [] then .weakref serial else .struct cls nds serial

def extractTemplate (raiseOnTemplatedFloats : Bool) (arg : ObjId) : KeyM KeyPart :=
  match h.cell arg with
  | none => throw .missingAttribute
  | some ⟨serial, obj⟩ =>
    match obj with
    | .ndarray _ => throw .ndarrayAsTemplate
    | .dataOriented cls stableMembers _ =>
      if stableMembers then pure (.weakref serial)
      else do
        let chains ← structNdPathsFor h arg
        let nds ← collectStructNdDescriptors h arg chains
        pure (structKey cls nds serial)
    | .primitive isFloat value =>
      if raiseOnTemplatedFloats && isFloat then throw .floatAsTemplate
      else pure (.value value)
    | _ => pure (.object serial)

def ndarrayFeatures (needsGrad : Option Bool) (info : NdarrayInfo) (layout : Option (List ℕ)) :
    Except Failure KeyPart :=
  match info.shape with
  | none => .error .shapeMissing
  | some shape =>
    .ok (.features info.elementType shape.length (needsGrad.getD info.hasGrad) layout)

def extractNdarray (needsGrad : Option Bool) (argName : String) (arg : ObjId) :
    Except Failure KeyPart :=
  match h.get arg with
  | some (.ndarray info) => ndarrayFeatures needsGrad info info.layout
  | some (.external info) => ndarrayFeatures needsGrad info none
  | _ => .error (.invalidArray argName)

def extractTensor (raiseOnTemplatedFloats : Bool) (argName : String) (arg : ObjId) :
    KeyM KeyPart :=
  match h.get arg with
  | some (.ndarray _) | some (.external _) => do
      let part ← extractNdarray h none argName arg
      pure (.marked true part)
  | _ => do
      let part ← extractTemplate h raiseOnTemplatedFloats arg
      pure (.marked false part)

def finalScalarKey (raiseOnTemplatedFloats : Bool) (arg : ObjId) : Except Failure KeyPart :=
  match h.get arg with
  | some (.primitive isFloat value) =>
    if raiseOnTemplatedFloats && isFloat then .error .floatAsFinal
    else .ok (.finalValue isFloat value)
  | _ => .error .invalidFinal

def getField (arg : ObjId) (name : Attr) : Except Failure ObjId :=
  match h.getattr arg name with
  | some value => .ok value
  | none => .error .missingAttribute

variable (raiseOnTemplatedFloats : Bool)

mutual

def extractArg : AnnotationType → String → ObjId → KeyM KeyPart
  | .template, _, arg => extractTemplate h raiseOnTemplatedFloats (h.unwrap arg)
  | .tensor, argName, arg => extractTensor h raiseOnTemplatedFloats argName (h.unwrap arg)
  | .ndarray needsGrad, argName, arg => extractNdarray h needsGrad argName (h.unwrap arg)
  | .scalar, _, _ => pure .placeholder
  | .dataclass cls hashable fields, argName, arg => do
      let caches ← get
      let hit := if hashable && !raiseOnTemplatedFloats then
        caches.specKeys.lookup (arg, .dataclass cls hashable fields) else none
      match hit with
      | some key => pure key
      | none =>
        let key ← extractFields fields argName arg
        if hashable && !fields.hasFinal then
          modify fun caches => { caches with
            specKeys := ((arg, .dataclass cls hashable fields), key) :: caches.specKeys }
        pure key

def extractFields : FieldAnnotations → String → ObjId → KeyM KeyPart
  | .nil, _, _ => pure .tupleNil
  | .final name rest, argName, arg => do
      let value ← getField h arg name
      let part ← finalScalarKey h raiseOnTemplatedFloats value
      let parts ← extractFields rest argName arg
      pure (.tupleCons part parts)
  | .cons name annot rest, argName, arg => do
      let value ← getField h arg name
      let part ← extractArg annot (createFlatName argName name) value
      let parts ← extractFields rest argName arg
      pure (.tupleCons part parts)

end

def isAbsent (argMeta : ArgMetadata) (arg : ObjId) : Bool :=
  match argMeta.annot, h.get arg with
  | .ndarray _, some (.primitive _ none) => argMeta.optional
  | _, _ => false

def extract : List ArgMetadata → List ObjId → KeyM Key
  | argMeta :: argMetas, arg :: args => do
      let part ←
        if isAbsent h argMeta arg then pure KeyPart.optionalAbsent
        else extractArg h raiseOnTemplatedFloats argMeta.annot argMeta.name arg
      let key ← extract argMetas args
      pure (part :: key)
  | _, _ => pure []

end Extract

end Quadrants.Template
