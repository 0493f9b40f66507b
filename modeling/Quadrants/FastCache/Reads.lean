import Mathlib.Data.List.Basic
import Mathlib.Data.Nat.Basic

namespace Quadrants.FastCache

abbrev Text := List Char

scoped instance : LawfulBEq Text := inferInstance

def isIdentChar (c : Char) : Bool := c.isAlphanum || c == '_' || 128 ≤ c.toNat

structure Name where
  text : Text
  nonempty : text ≠ []
  valid : text.all isIdentChar = true
  deriving DecidableEq

theorem Name.ident (name : Name) : ∀ c ∈ name.text, isIdentChar c = true :=
  List.all_eq_true.mp name.valid

abbrev Path := List Name

def flatDelimiter : Text := "__qd_".toList

def createFlatName (basename childName : Text) : Text :=
  if flatDelimiter.isPrefixOf basename then basename ++ flatDelimiter ++ childName
  else flatDelimiter ++ basename ++ flatDelimiter ++ childName

def flatName : Path → Text
  | [] => []
  | [arg] => arg.text
  | name :: path => createFlatName (flatName path) name.text

/-- The values that have no members. The texts are what `str` shows of a dtype, a layout, a class
(after its opening `<`), a number or the value of an enum member. -/
inductive Leaf where
  | scalarNdarray (dtype : Text) (ndim : ℕ) (layout : Option Text) (grad : Bool)
  | vectorNdarray (n : ℕ) (dtype : Text) (ndim : ℕ) (layout : Option Text) (grad : Bool)
  | matrixNdarray (m n : ℕ) (dtype : Text) (ndim : ℕ) (layout : Option Text) (grad : Bool)
  | torchTensor (dtype : Text) (ndim : ℕ)
  | numpyArray (dtype : Text) (ndim : ℕ)
  | number (cls : Text) (isFloat : Bool) (value : Text)
  | npBool (value : Bool)
  | enumMember (cls : Text) (name value : Text)
  | none
  | field
  | unknown (cls : Text)
  deriving DecidableEq

inductive FieldSlot where
  | plain
  /-- The metadata asks for the value, which is this text. -/
  | valued (value : Text)
  /-- A `Final` field, with its `final_scalar_key`. -/
  | final (key : Text)
  deriving DecidableEq

inductive MemberSlot where
  | plain
  /-- A bound kernel or function. -/
  | callable
  | property
  | cachedProperty
  /-- A property whose getter raises. -/
  | raising
  deriving DecidableEq

/-- The class of a data-oriented object; `template_primitives=False` lifts its primitives to
runtime arguments. -/
structure DataOrientedClass where
  name : Text
  runtimePrimitives : Bool
  deriving DecidableEq

mutual

inductive Obj where
  | leaf (l : Leaf)
  /-- The fields are those of the declared class. -/
  | dataclass (cls : Text) (fields : Fields)
  /-- The entries of `__dict__`, then the cached properties, then the properties in the order of
  their names. -/
  | dataOriented (cls : DataOrientedClass) (members : Members)

inductive Fields where
  | nil
  | cons (slot : FieldSlot) (name : Name) (value : Obj) (rest : Fields)

inductive Members where
  | nil
  | cons (slot : MemberSlot) (name : Name) (value : Obj) (rest : Members)

end

inductive Failure where
  /-- `_FAIL_FASTCACHE`: the call goes on without the cache. -/
  | fastcache
  | valueError (message : String)
  | runtimeError (message : String)
  deriving DecidableEq

def digits (n : ℕ) : Text := (toString n).toList

def layoutTag : Option Text → Text
  | none => []
  | some layout => "-L".toList ++ layout

def gradTag (grad : Bool) : Text := if grad then "-g".toList else []

def arrayText (head : String) (dims : List ℕ) (dtype : Text) (ndim : ℕ) (tags : Text) : Text :=
  head.toList ++ dims.flatMap (fun n => '-' :: digits n) ++ '-' :: dtype ++ '-' :: digits ndim ++
    tags ++ "]".toList

def classText (cls : Text) : Text := '<' :: cls

def boolText (b : Bool) : Text := if b then "True".toList else "False".toList

def Leaf.stringify (raiseOnTemplatedFloats isTemplate : Bool) : Leaf → Except Failure Text
  | .scalarNdarray dtype ndim layout grad =>
    .ok (arrayText "[nd" [] dtype ndim (layoutTag layout ++ gradTag grad))
  | .vectorNdarray n dtype ndim layout grad =>
    .ok (arrayText "[ndv" [n] dtype ndim (layoutTag layout ++ gradTag grad))
  | .matrixNdarray m n dtype ndim layout grad =>
    .ok (arrayText "[ndm" [m, n] dtype ndim (layoutTag layout ++ gradTag grad))
  | .torchTensor dtype ndim => .ok (arrayText "[pt" [] dtype ndim [])
  | .numpyArray dtype ndim => .ok (arrayText "[np" [] dtype ndim [])
  | .number cls isFloat value =>
    if isTemplate then
      if raiseOnTemplatedFloats && isFloat then
        .error (.valueError "Floats should not be used in template parameters.")
      else .ok (classText cls ++ '=' :: value)
    else .ok (classText cls)
  | .npBool value =>
    if isTemplate then .ok ("np.bool_=".toList ++ boolText value) else .ok "np.bool_".toList
  | .enumMember _ name value => .ok ("enum-".toList ++ name ++ '-' :: value)
  | .none => .ok "None".toList
  | .field => .error .fastcache
  | .unknown _ => .error .fastcache

def DataOrientedClass.isTemplate (cls : DataOrientedClass) : MemberSlot → Bool
  | .property => true
  | _ => !cls.runtimePrimitives

def FieldSlot.suffix : FieldSlot → Text
  | .valued value => " = ".toList ++ value
  | _ => []

def visitMember (pruningPaths : List Text) (slot : MemberSlot) (childFlat : Text) :
    Except Failure Bool :=
  match slot with
  | .callable => .ok false
  | .cachedProperty => if childFlat ∈ pruningPaths then .error .fastcache else .ok false
  | .raising => if childFlat ∈ pruningPaths then .error .fastcache else .ok false
  | _ => .ok (decide (childFlat ∈ pruningPaths))

mutual

def stringifyObjType (raiseOnTemplatedFloats : Bool) (pruningPaths : List Text)
    (parentFlat : Text) (isTemplate : Bool) : Obj → Except Failure Text
  | .leaf l => l.stringify raiseOnTemplatedFloats isTemplate
  | .dataclass _ fields => do
      let repr ← dataclassToRepr raiseOnTemplatedFloats pruningPaths parentFlat fields
      pure ("[".toList ++ List.intercalate ",".toList repr ++ "]".toList)
  | .dataOriented cls members => do
      let childRepr ← memberReprs raiseOnTemplatedFloats pruningPaths parentFlat cls members
      pure (List.intercalate ", ".toList ("da".toList :: childRepr))

def dataclassToRepr (raiseOnTemplatedFloats : Bool) (pruningPaths : List Text)
    (parentFlat : Text) : Fields → Except Failure (List Text)
  | .nil => pure []
  | .cons (.final key) name _ rest => do
      let repr ← dataclassToRepr raiseOnTemplatedFloats pruningPaths parentFlat rest
      pure ((name.text ++ ": (final) = ".toList ++ key) :: repr)
  | .cons slot name value rest =>
    if createFlatName parentFlat name.text ∈ pruningPaths then do
      let child ← stringifyObjType raiseOnTemplatedFloats pruningPaths
        (createFlatName parentFlat name.text) false value
      let repr ← dataclassToRepr raiseOnTemplatedFloats pruningPaths parentFlat rest
      pure ((name.text ++ ": (".toList ++ child ++ ")".toList ++ slot.suffix) :: repr)
    else dataclassToRepr raiseOnTemplatedFloats pruningPaths parentFlat rest

def memberReprs (raiseOnTemplatedFloats : Bool) (pruningPaths : List Text) (parentFlat : Text)
    (cls : DataOrientedClass) : Members → Except Failure (List Text)
  | .nil => pure []
  | .cons slot name value rest => do
      let used ← visitMember pruningPaths slot (createFlatName parentFlat name.text)
      if used then do
        let child ← stringifyObjType raiseOnTemplatedFloats pruningPaths
          (createFlatName parentFlat name.text) (cls.isTemplate slot) value
        let repr ← memberReprs raiseOnTemplatedFloats pruningPaths parentFlat cls rest
        pure ((name.text ++ ": ".toList ++ child) :: repr)
      else memberReprs raiseOnTemplatedFloats pruningPaths parentFlat cls rest

end

structure ArgMetadata where
  name : Name
  isTemplate : Bool

def joinStrings (strings : List Text) : Text := strings.flatMap fun s => s ++ "_".toList

def stringifyArgs (raiseOnTemplatedFloats : Bool) (pruningPaths : List Text) :
    List Obj → List ArgMetadata → Except Failure (List Text)
  | arg :: args, argMeta :: argMetas => do
      let hash ← stringifyObjType raiseOnTemplatedFloats pruningPaths argMeta.name.text
        argMeta.isTemplate arg
      let hashes ← stringifyArgs raiseOnTemplatedFloats pruningPaths args argMetas
      pure (hash :: hashes)
  | _, _ => pure []

def hashArgs (sha256 : Text → Text) (raiseOnTemplatedFloats : Bool) (args : List Obj)
    (argMetas : List ArgMetadata) (pruningPaths : List Text) : Except Failure Text := do
  if args.length ≠ argMetas.length then
    .error (.runtimeError (s!"Number of args passed in {args.length} doesnt match number of " ++
      s!"declared args {argMetas.length}"))
  else
    let hashes ← stringifyArgs raiseOnTemplatedFloats pruningPaths args argMetas
    pure (sha256 (joinStrings hashes))

inductive Obs where
  | leaf (l : Leaf)
  | dataclass (cls : Text)
  | dataOriented (cls : DataOrientedClass)
  | valued (value : Text) (obs : Obs)
  | final (key : Text)
  deriving DecidableEq

/-- A number that is not in a template position is a runtime argument, only its type is baked in. -/
def Leaf.baked (isTemplate : Bool) : Leaf → Leaf
  | .number cls isFloat value => .number cls isFloat (if isTemplate then value else [])
  | .npBool value => .npBool (isTemplate && value)
  | l => l

def Obj.observe (isTemplate : Bool) : Obj → Obs
  | .leaf l => .leaf (l.baked isTemplate)
  | .dataclass cls _ => .dataclass cls
  | .dataOriented cls _ => .dataOriented cls

/-- What stands at a path: an object, a field that shows its value, or a `Final` constant. -/
inductive Held where
  | value (isTemplate : Bool) (o : Obj)
  | valued (text : Text) (o : Obj)
  | final (key : Text)

def Held.observe : Held → Obs
  | .value isTemplate o => o.observe isTemplate
  | .valued text o => .valued text (o.observe false)
  | .final key => .final key

def FieldSlot.held (value : Obj) : FieldSlot → Held
  | .plain => .value false value
  | .valued text => .valued text value
  | .final key => .final key

def MemberSlot.isData : MemberSlot → Bool
  | .plain => true
  | .property => true
  | _ => false

def Fields.find (name : Name) : Fields → Option Held
  | .nil => none
  | .cons slot name' value rest => if name' = name then some (slot.held value) else rest.find name

def Members.find (cls : DataOrientedClass) (name : Name) : Members → Option Held
  | .nil => none
  | .cons slot name' value rest =>
    if name' = name ∧ slot.isData then some (.value (cls.isTemplate slot) value)
    else rest.find cls name

def Obj.child (name : Name) : Obj → Option Held
  | .leaf _ => none
  | .dataclass _ fields => fields.find name
  | .dataOriented cls members => members.find cls name

def Held.child (name : Name) : Held → Option Held
  | .value _ o => o.child name
  | .valued _ o => o.child name
  | .final _ => none

structure Signature where
  argMetas : List ArgMetadata
  nodup : (argMetas.map (·.name)).Nodup

def findArg (name : Name) : List Obj → List ArgMetadata → Option Held
  | arg :: args, argMeta :: argMetas =>
    if argMeta.name = name then some (.value argMeta.isTemplate arg)
    else findArg name args argMetas
  | _, _ => none

def lookupPath (args : List Obj) (argMetas : List ArgMetadata) : Path → Option Held
  | [] => none
  | [arg] => findArg arg args argMetas
  | name :: path => (lookupPath args argMetas path).bind (Held.child name)

def observeAt (args : List Obj) (argMetas : List ArgMetadata) (path : Path) : Option Obs :=
  (lookupPath args argMetas path).map Held.observe

/-- The compilation of a kernel: it reads one path after the other and gives an artifact. -/
inductive Compile (α : Type) where
  | done (artifact : α)
  | read (path : Path) (next : Obs → Compile α)

def Compile.run {α : Type} (args : List Obj) (argMetas : List ArgMetadata) :
    Compile α → Option (α × List Path)
  | .done artifact => some (artifact, [])
  | .read path next =>
    match observeAt args argMetas path with
    | none => none
    | some obs => ((next obs).run args argMetas).map fun r => (r.1, path :: r.2)

def ancestors : Path → List Path
  | [] => []
  | [_] => []
  | name :: path => (name :: path) :: ancestors path

def usedNames (reads : List Path) : List Text := reads.flatMap fun p => (ancestors p).map flatName

end Quadrants.FastCache
