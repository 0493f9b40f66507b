import Quadrants.Template.Mapper

namespace Quadrants.Args

open Template (Attr createFlatName)

mutual

inductive ParamType where
  | real
  | integer (signed : Bool)
  /-- Matrix and struct types, which are one argument as a whole. -/
  | compound
  | ndarray
  | bufferView
  | sparseMatrixBuilder
  | tensor
  | template
  /-- Rebinding counts as prevented when the class is frozen or hashable. -/
  | dataclass (cls : ℕ) (frozen : Bool) (fields : Fields)

inductive Fields where
  | nil
  | cons (name : Attr) (isFinal : Bool) (type : ParamType) (rest : Fields)

end

structure Param where
  name : String
  type : ParamType
  optional : Bool

inductive Value where
  | none
  | number (isFloat : Bool) (value : ℤ)
  | compound (id : ℕ)
  | ndarray (arr : ℕ) (grad : Option ℕ)
  /-- A numpy array or a torch tensor. -/
  | external (id : ℕ)
  | field (id : ℕ)
  | builder (address : ℕ)
  | bufferView (arr : ℕ) (offset size : ℤ)
  /-- The `qd.Tensor` wrapper. -/
  | wrapper (impl : Value)
  /-- A dataclass instance with its class and the classes it inherits from. -/
  | object (mro : List ℕ) (attrs : List (Attr × Value))

namespace Value

def unwrap : Value → Value
  | .wrapper impl => impl
  | value => value

def getattr (value : Value) (name : Attr) : Option Value :=
  match value with
  | .object _ attrs => attrs.lookup name
  | _ => Option.none

def isArray : Value → Bool
  | .ndarray _ _ | .external _ => true
  | _ => false

def isField : Value → Bool
  | .field _ => true
  | _ => false

def isNone : Value → Bool
  | .none => true
  | _ => false

def follow (value : Value) : List Attr → Option Value
  | [] => some value.unwrap
  | name :: path => (value.unwrap.getattr name).bind fun member => member.follow path

end Value

inductive Failure where
  | finalOnMutable (cls : ℕ)
  | missingAttribute (name : Attr)
  | typeMismatch (index : ℕ)
  | notSubclass (cls : ℕ)
  | tooManyArguments
  | argumentCount (needed provided : ℕ)
  deriving DecidableEq

inductive Features where
  | absent
  | marked (isNdarray : Bool)
  | plain
  | tuple (entries : List Features)

def getAttribute (value : Value) (name : Attr) : Except Failure Value :=
  match value.getattr name with
  | some member => .ok member
  | none => .error (.missingAttribute name)

def Fields.hasFinal : Fields → Bool
  | .nil => false
  | .cons _ isFinal _ rest => isFinal || rest.hasFinal

mutual

def ParamType.subtreeHasFinalFields : ParamType → Bool
  | .dataclass _ _ fields => fields.subtreeHasFinalFields
  | _ => false

def Fields.subtreeHasFinalFields : Fields → Bool
  | .nil => false
  | .cons _ isFinal type rest =>
    isFinal || type.subtreeHasFinalFields || rest.subtreeHasFinalFields

end

mutual

def ParamType.features : ParamType → Value → Except Failure Features
  | .tensor, value => .ok (.marked value.unwrap.isArray)
  | .dataclass cls frozen fields, value =>
    if !frozen && fields.hasFinal then .error (.finalOnMutable cls)
    else do
      let entries ← fields.features value.unwrap
      .ok (.tuple entries)
  | _, _ => .ok .plain

def Fields.features : Fields → Value → Except Failure (List Features)
  | .nil, _ => .ok []
  | .cons name isFinal type rest, value => do
      let member ← getAttribute value name
      let entry ← (if isFinal then .ok .plain else type.features member : Except Failure Features)
      let entries ← rest.features value
      .ok (entry :: entries)

end

def Param.isAbsent (param : Param) (value : Value) : Bool :=
  match param.type with
  | .ndarray => param.optional && value.isNone
  | _ => false

def extractFeatures : List Param → List Value → Except Failure (List Features)
  | param :: params, value :: values => do
      let entry ← (if param.isAbsent value then .ok .absent else param.type.features value :
        Except Failure Features)
      let entries ← extractFeatures params values
      .ok (entry :: entries)
  | _, _ => .ok []

open Template (Attr createFlatName)

/-- What a slot is declared for: a parameter or a field of it, and for a buffer view which part. -/
structure Owner where
  param : ℕ
  path : List Attr
  type : ParamType
  part : ℕ

section Compile

variable (used : List String) (param : ℕ)

def declAndCreateVariable (type : ParamType) (path : List Attr) (features : Features) :
    List Owner :=
  match features, type with
  | .absent, _ => []
  | .marked true, .tensor => [⟨param, path, type, 0⟩]
  | _, .tensor => []
  | _, .template => []
  | _, .bufferView => [⟨param, path, type, 0⟩, ⟨param, path, type, 1⟩, ⟨param, path, type, 2⟩]
  | _, _ => [⟨param, path, type, 0⟩]

def Features.entries : Features → List Features
  | .tuple entries => entries
  | _ => []

mutual

def transformKernelArg : ParamType → String → List Attr → Features → List Owner
  | .dataclass _ _ fields, name, path, features =>
    transformFields fields name path features.entries
  | type, _, path, features => declAndCreateVariable param type path features

def transformFields : Fields → String → List Attr → List Features → List Owner
  | .nil, _, _, _ => []
  | .cons field isFinal type rest, name, path, features =>
    (if createFlatName name field ∉ used || isFinal then []
      else transformKernelArg type (createFlatName name field) (path ++ [field])
        (features.headD .plain)) ++
      transformFields rest name path features.tail

end

def transformAsKernel : List Param → List Features → ℕ → List Owner
  | param :: params, entry :: features, i =>
    transformKernelArg used i param.type param.name [] entry ++
      transformAsKernel params features (i + 1)
  | _, _, _ => []

end Compile

def foldStructNdPaths (params : List Param) (launchInfo : List (ℕ × List Attr)) : List String :=
  launchInfo.flatMap fun (argIdx, chain) =>
    match params[argIdx]? with
    | some param =>
      if param.name = "" then []
      else (chain.inits.tail).map fun prefixChain => prefixChain.foldl createFlatName param.name
    | none => []

/-- The used set as a launch sees it, with what `materialize` folds in after the enforcing pass. -/
def usedAfterMaterialize (used : List String) (params : List Param)
    (launchInfo : List (ℕ × List Attr)) (chainPaths : List String) : List String :=
  used ++ foldStructNdPaths params launchInfo ++ chainPaths

inductive Bound where
  | float (value : ℤ)
  | int (value : ℤ)
  | uint (value : ℤ)
  | compound (id : ℕ)
  | qdArray (arr : ℕ)
  | qdArrayWithGrad (arr grad : ℕ)
  | external (id : ℕ)
  deriving DecidableEq

structure Binding where
  index : ℕ
  owner : Owner
  value : Bound

def maxArgNum : ℕ := 512

def bindNdarray (index : ℕ) : Value → Except Failure (List Bound)
  | .ndarray arr none => .ok [.qdArray arr]
  | .ndarray arr (some grad) => .ok [.qdArrayWithGrad arr grad]
  | .external id => .ok [.external id]
  | _ => .error (.typeMismatch index)

def bindLeaf (index : ℕ) (type : ParamType) (value : Value) : Except Failure (List Bound) :=
  match type with
  | .real =>
    match value with
    | .number _ value => .ok [.float value]
    | _ => .error (.typeMismatch index)
  | .integer signed =>
    match value with
    | .number false value => .ok [if signed then .int value else .uint value]
    | _ => .error (.typeMismatch index)
  | .compound =>
    match value with
    | .compound id => .ok [.compound id]
    | _ => .error (.typeMismatch index)
  | .ndarray => bindNdarray index value
  | .bufferView =>
    match value with
    | .bufferView arr offset size => .ok [.qdArray arr, .int offset, .int size]
    | _ => .error (.typeMismatch index)
  | .sparseMatrixBuilder =>
    match value with
    | .builder address => .ok [.uint address]
    | _ => .error (.typeMismatch index)
  | .tensor => if value.isArray then bindNdarray index value else .ok []
  | .template => .ok []
  | .dataclass _ _ _ => .error (.typeMismatch index)

def checkAttributes : Fields → Value → Except Failure Unit
  | .nil, _ => .ok ()
  | .cons name _ _ rest, value => do
      let _ ← getAttribute value name
      checkAttributes rest value

section Launch

variable (used : List String) (param : ℕ)

mutual

def recursiveSetArgs : ParamType → String → List Attr → Value → ℕ → ℕ →
    Except Failure (ℕ × List Binding)
  | .dataclass _ frozen fields, name, path, value, index, depth =>
    if maxArgNum ≤ depth then .error .tooManyArguments
    else do
      let _ ← (if frozen then checkAttributes fields value.unwrap else .ok () : Except Failure Unit)
      setFields frozen fields name path value.unwrap index (depth + 1)
  | type, _, path, value, index, depth =>
    if maxArgNum ≤ depth then .error .tooManyArguments
    else do
      let bounds ← bindLeaf index type value.unwrap
      .ok (bounds.length, bounds.zipIdx.map fun (bound, part) =>
        ⟨index + part, ⟨param, path, type, part⟩, bound⟩)

def setFields (frozen : Bool) : Fields → String → List Attr → Value → ℕ → ℕ →
    Except Failure (ℕ × List Binding)
  | .nil, _, _, _, _, _ => .ok (0, [])
  | .cons field isFinal type rest, name, path, value, index, depth =>
    if createFlatName name field ∉ used || (frozen && isFinal) then
      setFields frozen rest name path value index depth
    else do
      let member ← getAttribute value field
      let (count, bindings) ← recursiveSetArgs type (createFlatName name field)
        (path ++ [field]) member index depth
      let (others, rest) ← setFields frozen rest name path value (index + count) depth
      .ok (count + others, bindings ++ rest)

end

def Fields.allField : Fields → Value → Bool
  | .nil, _ => true
  | .cons name _ _ rest, value =>
    ((value.getattr name).any fun member => member.unwrap.isField) && rest.allField value

/-- The launch skips an argument when `_qd_all_field` is cached on it as true. An earlier launch has
cached it before it looked at any field, and never for a class with `Final` fields below it. -/
def skipsAllField (allFieldCached : Bool) (type : ParamType) (value : Value) : Bool :=
  match type with
  | .dataclass _ true fields =>
    allFieldCached && !fields.subtreeHasFinalFields && fields.allField value
  | _ => false

def checkProvided (type : ParamType) (value : Value) : Except Failure Unit :=
  match type, value with
  | .dataclass cls _ _, .object mro _ => if cls ∈ mro then .ok () else .error (.notSubclass cls)
  | .dataclass cls _ _, _ => .error (.notSubclass cls)
  | _, _ => .ok ()

def setArgs (allFieldCached : ℕ → Bool) : List Param → List Value → ℕ → ℕ → ℕ →
    Except Failure (List Binding)
  | param :: params, value :: values, i, iOut, templateNum =>
    match param.type with
    | .template => setArgs allFieldCached params values (i + 1) (iOut + 1) (templateNum + 1)
    | type =>
      if param.isAbsent value || skipsAllField (allFieldCached i) type value then
        setArgs allFieldCached params values (i + 1) iOut templateNum
      else do
        let _ ← checkProvided type value
        let (count, bindings) ← recursiveSetArgs used i type param.name [] value
          (iOut - templateNum) 0
        let rest ← setArgs allFieldCached params values (i + 1) (iOut + count) templateNum
        .ok (bindings ++ rest)
  | _, _, _, _, _ => .ok []

def launchKernel (allFieldCached : ℕ → Bool) (params : List Param) (values : List Value) :
    Except Failure (List Binding) :=
  if values.length ≠ params.length then .error (.argumentCount params.length values.length)
  else setArgs used allFieldCached params values 0 0 0

end Launch

def takesSlot (type : ParamType) (features : Features) : Bool :=
  match features, type with
  | .absent, _ => false
  | .marked isNdarray, .tensor => isNdarray
  | _, .tensor => false
  | _, .template => false
  | _, _ => true

section Late

variable (used : List String)

mutual

def ParamType.takesSlots : ParamType → String → Features → Bool
  | .dataclass _ _ fields, name, features => fields.takesSlots name features.entries
  | type, _, features => takesSlot type features

def Fields.takesSlots : Fields → String → List Features → Bool
  | .nil, _, _ => false
  | .cons field isFinal type rest, name, features =>
    (decide (createFlatName name field ∈ used) && !isFinal &&
      type.takesSlots (createFlatName name field) (features.headD .plain)) ||
      rest.takesSlots name features.tail

end

variable (after : List String)

mutual

def ParamType.Kept : ParamType → String → Features → Prop
  | .dataclass _ _ fields, name, features => fields.Kept name features.entries
  | _, _, _ => True

def Fields.Kept : Fields → String → List Features → Prop
  | .nil, _, _ => True
  | .cons field isFinal type rest, name, features =>
    (isFinal = false → (createFlatName name field ∈ used →
        type.Kept (createFlatName name field) (features.headD .plain)) ∧
      (createFlatName name field ∉ used → createFlatName name field ∈ after →
        type.takesSlots after (createFlatName name field) (features.headD .plain) = false)) ∧
      rest.Kept name features.tail

end

/-- No argument that the launch skips has a slot, and none has a field that comes in late. -/
def ArgsKept (allFieldCached : ℕ → Bool) : List Param → List Value → List Features → ℕ → Prop
  | param :: params, value :: values, entry :: features, i =>
    (if skipsAllField (allFieldCached i) param.type value then
      param.type.takesSlots used param.name entry = false
    else param.type.Kept used after param.name entry) ∧
      ArgsKept allFieldCached params values features (i + 1)
  | _, _, _, _ => True

end Late

def Owner.bound (values : List Value) (owner : Owner) : Option Bound := do
  let value ← values[owner.param]?
  let leaf ← value.follow owner.path
  let bounds ← (bindLeaf 0 owner.type leaf).toOption
  bounds[owner.part]?

/-- Every declared slot is bound exactly once, and to the value it was declared for. -/
structure SlotsAgree (declared : List Owner) (values : List Value) (bindings : List Binding) :
    Prop where
  slots : bindings.map (fun binding => (binding.owner, binding.index)) = declared.zipIdx
  values : ∀ binding ∈ bindings, binding.owner.bound values = some binding.value

end Quadrants.Args
