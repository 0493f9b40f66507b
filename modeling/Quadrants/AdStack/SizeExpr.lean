import Mathlib.Algebra.Group.Int.Defs
import Mathlib.Algebra.Group.Nat.Defs
import Mathlib.Data.List.Basic
import Mathlib.Logic.Function.Basic
import Mathlib.Tactic.Common
import Quadrants.Library.StatefulLoops

/-!
The serialized size expressions of autodiff stacks and the host evaluator.

`SerializedSizeExpr` is the flat post-order tree that survives the offline
cache.  `evaluateNode` is the recursive host walker: it threads the map of
bound loop variables, the sink of read observations and the launch-scoped read
cache exactly in the order the source updates them.
-/

namespace Quadrants.AdStack.SizeExpr

open Quadrants.Library.StatefulLoops

inductive Kind
  | const
  | fieldLoad
  | add
  | sub
  | mul
  | max
  | maxOverRange
  | boundVariable
  | externalTensorShape
  | externalTensorRead
deriving DecidableEq, Repr

inductive PrimitiveTypeID
  | f16 | f32 | f64 | i8 | i16 | i32 | i64 | u1 | u8 | u16 | u32 | u64 | gen | unknown
deriving DecidableEq, Repr

/-- The enumerator with a given numeric value; a value outside the enumeration
has no name and falls into every `default:` branch. -/
def PrimitiveTypeID.ofInt : Int → Option PrimitiveTypeID
  | 0 => some .f16
  | 1 => some .f32
  | 2 => some .f64
  | 3 => some .i8
  | 4 => some .i16
  | 5 => some .i32
  | 6 => some .i64
  | 7 => some .u1
  | 8 => some .u8
  | 9 => some .u16
  | 10 => some .u32
  | 11 => some .u64
  | 12 => some .gen
  | 13 => some .unknown
  | _ => none

structure SerializedSizeExprNode where
  kind : Kind := .const
  constValue : Int64 := 0
  snodeId : Int32 := -1
  indices : List Int32 := []
  operandA : Int32 := -1
  operandB : Int32 := -1
  varId : Int32 := -1
  bodyNodeIdx : Int32 := -1
  argIdPath : List Int32 := []
  argShapeAxis : Int32 := -1
deriving DecidableEq, Repr

structure SerializedSizeExpr where
  nodes : List SerializedSizeExprNode
deriving DecidableEq, Repr

def SerializedSizeExpr.node? (expr : SerializedSizeExpr) (nodeIdx : Int32) :
    Option SerializedSizeExprNode :=
  if nodeIdx < 0 then none else expr.nodes[nodeIdx.toInt.toNat]?

def SerializedSizeExpr.rootIdx (expr : SerializedSizeExpr) : Int32 :=
  Int32.ofInt (expr.nodes.length - 1)

def indexVar (raw : Int32) : Int32 := -(raw + 1)

/-- A data pointer, as kept in `array_ptrs`. -/
abbrev Ptr := UInt64

namespace TypeFactory

def shapePosInNdarray : Int32 := 0
def dataPtrPosInNdarray : Int32 := 1

end TypeFactory

inductive DevAllocType
  | none
  | ndarray
deriving DecidableEq, Repr

/-- The part of a launch context that size expressions read.  `structArgs` is
`get_struct_arg_host<int32_t>` on an index path; `arrayPtrs` is the map
`array_ptrs` at the data-pointer slot of an argument; `argsTypeOffset` is
`args_type->get_element_offset` when there is an `args_type`. -/
structure LaunchContextBuilder where
  arrayPtrs : Int32 → Option Ptr
  structArgs : List Int32 → Int32
  deviceAllocationType : Int32 → Option DevAllocType
  argsTypeOffset : Option (List Int32 → Nat) := none

def shapeSlot (argIdPath : List Int32) (axis : Int32) : List Int32 :=
  argIdPath ++ [TypeFactory.shapePosInNdarray, axis]

inductive ObservationKind
  | fieldLoadObs
  | externalShapeObs
  | externalReadObs
deriving DecidableEq, Repr

structure SizeExprReadObservation where
  kind : ObservationKind
  snodeId : Int32 := 0
  indices : List Int32 := []
  argIdPath : List Int32 := []
  argShapeAxis : Int32 := 0
  primDt : Int := 0
  observedValue : Int64 := 0
  observedGen : Nat := 0
  observedDevalloc : Option Ptr := none
deriving DecidableEq, Repr

/-- What a walk reads of the program: which SNode ids resolve, the field
contents through the reader kernels, the bytes of the external arrays relative
to their data pointers, the architecture and the two generation counters. -/
structure ProgramView where
  hasSnode : Int32 → Bool
  readInt : Int32 → List Int32 → Int64
  arrayBytes : Ptr → Int → UInt8
  archIsCpu : Bool
  snodeWriteGen : Int32 → Nat
  ndarrayDataGen : Ptr → Nat

def readLE (bytes : Int → UInt8) (start : Int) : Nat → Nat
  | 0 => 0
  | count + 1 => (bytes start).toNat + 256 * readLE bytes (start + 1) count

def readUnsigned (bytes : Int → UInt8) (size : Nat) (linear : Int64) : Int64 :=
  Int64.ofInt (readLE bytes (size * linear.toInt) size)

def readSigned (bytes : Int → UInt8) (size : Nat) (linear : Int64) : Int64 :=
  Int64.ofInt (BitVec.ofNat (8 * size) (readLE bytes (size * linear.toInt) size)).toInt

/-- `static_cast<T *>(data_ptr)[linear]` widened to 64 bits, for the element
types that both evaluators decode. -/
def loadElement (bytes : Int → UInt8) (linear : Int64) :
    Option PrimitiveTypeID → Option Int64
  | some .i8 => some (readSigned bytes 1 linear)
  | some .i16 => some (readSigned bytes 2 linear)
  | some .i32 => some (readSigned bytes 4 linear)
  | some .i64 => some (readSigned bytes 8 linear)
  | some .u8 => some (readUnsigned bytes 1 linear)
  | some .u16 => some (readUnsigned bytes 2 linear)
  | some .u32 => some (readUnsigned bytes 4 linear)
  | some .u64 => some (readUnsigned bytes 8 linear)
  | _ => none

/-- The assertions and errors that end a host walk, with the data their
messages print. -/
inductive EvalError
  | nodeIdxOutOfBounds (nodeIdx : Int32) (size : Nat)
  | fieldLoadNoSnodeId
  | fieldLoadSnodeNotFound (snodeId : Int32)
  | fieldLoadUnboundVar (varId : Int32)
  | externalTensorReadNoContext
  | externalTensorReadEmptyArgIdPath
  | externalTensorReadNoDataPointer (argId : Int32)
  | externalTensorReadUnboundVar (varId : Int32)
  | externalTensorReadUnsupportedElementType (primDt : Int64)
  | externalTensorShapeNoContext
  | maxOverRangeGuard (count : Int) (guard : Int)
  | boundVariableOutsideScope (varId : Int32)
  | recursionTooDeep
deriving DecidableEq, Repr

abbrev BoundVars := Int32 → Option Int64

abbrev LaunchScopedReadCache := List ((Int32 × List Int32) × Int64)

/-- The mutable state of a host walk.  `reads = none` is a null sink and
`launchReadCache = none` is the absence of an open launch scope. -/
structure EvalState where
  boundVars : BoundVars
  reads : Option (List SizeExprReadObservation)
  launchReadCache : Option LaunchScopedReadCache

def emptyBoundVars : BoundVars := fun _ => none

def EvalState.pushRead (st : EvalState) (obs : SizeExprReadObservation) : EvalState :=
  { st with reads := st.reads.map (· ++ [obs]) }

def readFieldWithLaunchCache (prog : ProgramView) (snodeId : Int32)
    (indices : List Int32) (st : EvalState) : Int64 × EvalState :=
  match st.launchReadCache with
  | some map =>
    match map.lookup (snodeId, indices) with
    | some v => (v, st)
    | none =>
      let v := prog.readInt snodeId indices
      (v, { st with launchReadCache := some (((snodeId, indices), v) :: map) })
  | none => (prog.readInt snodeId indices, st)

/-- Resolve an index entry: a constant stays, a negative entry reads the bound
variable it names. -/
def resolveIndex (boundVars : BoundVars) (unbound : Int32 → EvalError) (raw : Int32) :
    Except EvalError Int64 :=
  if 0 ≤ raw then .ok raw.toInt64
  else match boundVars (indexVar raw) with
    | some v => .ok v
    | none => .error (unbound (indexVar raw))

def resolveIndices (boundVars : BoundVars) (unbound : Int32 → EvalError) :
    List Int32 → Except EvalError (List Int64)
  | [] => .ok []
  | raw :: rest => do
      let v ← resolveIndex boundVars unbound raw
      let vs ← resolveIndices boundVars unbound rest
      .ok (v :: vs)

def evaluateFieldLoad (prog : ProgramView) (node : SerializedSizeExprNode)
    (st : EvalState) : Except EvalError (Int64 × EvalState) :=
  if node.snodeId < 0 then .error .fieldLoadNoSnodeId
  else if prog.hasSnode node.snodeId = false then
    .error (.fieldLoadSnodeNotFound node.snodeId)
  else do
    let resolved ← resolveIndices st.boundVars .fieldLoadUnboundVar node.indices
    -- `indices.push_back(static_cast<int>(it->second))`
    let indices := resolved.map Int64.toInt32
    let (v, st) := readFieldWithLaunchCache prog node.snodeId indices st
    return (v, st.pushRead
      { kind := .fieldLoadObs
        snodeId := node.snodeId
        indices := indices
        observedGen := prog.snodeWriteGen node.snodeId })

/-- The loop that composes resolved indices into the C-order linear offset,
from the last axis to the first.  `axis` is the axis of the head of the
reversed list; the stride is multiplied by the shape of every axis passed,
except the first one. -/
def linearOffset (ctx : LaunchContextBuilder) (argIdPath : List Int32) :
    List Int64 → Nat → Int64 → Int64 → Int64
  | [], _, linear, _ => linear
  | idx :: rest, axis, linear, stride =>
    let linear := linear + idx * stride
    let stride :=
      if 0 < axis then
        stride * (ctx.structArgs (shapeSlot argIdPath (Int32.ofNat axis))).toInt64
      else stride
    linearOffset ctx argIdPath rest (axis - 1) linear stride

/-- The context and the data pointer behind an `ExternalTensorRead`, with the
three assertions in front of it. -/
def resolveDataPtr (ctx : Option LaunchContextBuilder)
    (node : SerializedSizeExprNode) : Except EvalError (LaunchContextBuilder × Ptr) :=
  match ctx with
  | none => .error .externalTensorReadNoContext
  | some ctx =>
    match node.argIdPath.head? with
    | none => .error .externalTensorReadEmptyArgIdPath
    | some argId =>
      match ctx.arrayPtrs argId with
      | none => .error (.externalTensorReadNoDataPointer argId)
      | some dataPtr => .ok (ctx, dataPtr)

def readElement (prog : ProgramView) (ctx : LaunchContextBuilder)
    (node : SerializedSizeExprNode) (dataPtr : Ptr) (resolved : List Int64) :
    Except EvalError Int64 :=
  let linear := linearOffset ctx node.argIdPath resolved.reverse
    (resolved.length - 1) 0 1
  match loadElement (prog.arrayBytes dataPtr) linear
      (PrimitiveTypeID.ofInt node.constValue.toInt32.toInt) with
  | some v => .ok v
  | none => .error (.externalTensorReadUnsupportedElementType node.constValue)

def evaluateExternalTensorRead (prog : ProgramView)
    (ctx : Option LaunchContextBuilder) (node : SerializedSizeExprNode)
    (st : EvalState) : Except EvalError (Int64 × EvalState) := do
  let (ctx, dataPtr) ← resolveDataPtr ctx node
  let resolved ← resolveIndices st.boundVars .externalTensorReadUnboundVar node.indices
  let v ← readElement prog ctx node dataPtr resolved
  return (v, st.pushRead
    { kind := .externalReadObs
      indices := resolved.map Int64.toInt32
      argIdPath := node.argIdPath
      primDt := node.constValue.toInt32.toInt
      observedDevalloc := some dataPtr
      observedGen := prog.ndarrayDataGen dataPtr })

def evaluateExternalTensorShape (ctx : Option LaunchContextBuilder)
    (node : SerializedSizeExprNode) (st : EvalState) :
    Except EvalError (Int64 × EvalState) :=
  match ctx with
  | none => .error .externalTensorShapeNoContext
  | some ctx =>
    let v := (ctx.structArgs (shapeSlot node.argIdPath node.argShapeAxis)).toInt64
    .ok (v, st.pushRead
      { kind := .externalShapeObs
        argIdPath := node.argIdPath
        argShapeAxis := node.argShapeAxis
        observedValue := v })

def boundDataPtr (ctx : Option LaunchContextBuilder)
    (node : SerializedSizeExprNode) : Option Ptr := do
  let ctx ← ctx
  let argId ← node.argIdPath.head?
  ctx.arrayPtrs argId

/-- `enumerate_static_observations`: one observation per static leaf below a
node, whether or not a walk would visit it. -/
def enumerateStaticObservations (expr : SerializedSizeExpr) (prog : ProgramView)
    (ctx : Option LaunchContextBuilder) :
    Nat → Int32 → EvalState → Except EvalError EvalState
  | 0, _, _ => .error .recursionTooDeep
  | fuel + 1, nodeIdx, st =>
    if st.reads.isNone then .ok st
    else match expr.node? nodeIdx with
    | none => .error (.nodeIdxOutOfBounds nodeIdx expr.nodes.length)
    | some node =>
      match node.kind with
      | .fieldLoad =>
        .ok (st.pushRead
          { kind := .fieldLoadObs
            snodeId := node.snodeId
            observedGen := prog.snodeWriteGen node.snodeId })
      | .externalTensorRead =>
        match boundDataPtr ctx node with
        | some dataPtr =>
          .ok (st.pushRead
            { kind := .externalReadObs
              argIdPath := node.argIdPath
              primDt := node.constValue.toInt32.toInt
              observedDevalloc := some dataPtr
              observedGen := prog.ndarrayDataGen dataPtr })
        | none => .ok st
      | .externalTensorShape => do
          let (_, st) ← evaluateExternalTensorShape ctx node st
          return st
      | .add | .sub | .mul | .max => do
          let st ← enumerateStaticObservations expr prog ctx fuel node.operandA st
          enumerateStaticObservations expr prog ctx fuel node.operandB st
      | .maxOverRange => do
          let st ← enumerateStaticObservations expr prog ctx fuel node.operandA st
          let st ← enumerateStaticObservations expr prog ctx fuel node.operandB st
          enumerateStaticObservations expr prog ctx fuel node.bodyNodeIdx st
      | .const | .boundVariable => .ok st

def hostMaxOverRangeIterations (prog : ProgramView) : Int :=
  if prog.archIsCpu then 4294967295 else 2 ^ 24

def checkIterationGuard (prog : ProgramView) (begin' end' : Int64) :
    Except EvalError Unit :=
  if begin' < end' ∧ hostMaxOverRangeIterations prog < (end' - begin').toInt then
    .error (.maxOverRangeGuard (end' - begin').toInt (hostMaxOverRangeIterations prog))
  else .ok ()

def tripCount (begin' end' : Int64) : Nat := (end'.toInt - begin'.toInt).toNat

/-- The four arithmetic kinds; `std::max` keeps its first argument on ties and
a subtraction is clamped at zero.  No other kind has an operator. -/
def hostBinary : Kind → Int64 → Int64 → Int64
  | .add, a, b => a + b
  | .sub, a, b => if a - b < 0 then 0 else a - b
  | .mul, a, b => a * b
  | .max, a, b => if a < b then b else a
  | _, _, _ => 0

/-- The recursive host walker.  A node index that does not descend makes the
source recurse without end; here it runs out of `fuel`. -/
def evaluateNode (expr : SerializedSizeExpr) (prog : ProgramView)
    (ctx : Option LaunchContextBuilder) :
    Nat → Int32 → EvalState → Except EvalError (Int64 × EvalState)
  | 0, _, _ => .error .recursionTooDeep
  | fuel + 1, nodeIdx, st =>
    match expr.node? nodeIdx with
    | none => .error (.nodeIdxOutOfBounds nodeIdx expr.nodes.length)
    | some node =>
      match node.kind with
      | .const => .ok (node.constValue, st)
      | .fieldLoad => evaluateFieldLoad prog node st
      | .add | .sub | .mul | .max => do
          let (a, st) ← evaluateNode expr prog ctx fuel node.operandA st
          let (b, st) ← evaluateNode expr prog ctx fuel node.operandB st
          return (hostBinary node.kind a b, st)
      | .maxOverRange => do
          let (begin', st) ← evaluateNode expr prog ctx fuel node.operandA st
          let (end', st) ← evaluateNode expr prog ctx fuel node.operandB st
          checkIterationGuard prog begin' end'
          -- the binding of `var_id` is saved here and put back after the loop
          let prev := st.boundVars node.varId
          let st ← enumerateStaticObservations expr prog ctx fuel node.bodyNodeIdx st
          let (result, loopSt) ← maxLoop (· + 1)
            (fun i st => evaluateNode expr prog ctx fuel node.bodyNodeIdx
              { st with boundVars := Function.update st.boundVars node.varId (some i) })
            (tripCount begin' end') begin' 0 { st with reads := none }
          return (result,
            { boundVars := Function.update loopSt.boundVars node.varId prev
              reads := st.reads
              launchReadCache := loopSt.launchReadCache })
      | .boundVariable =>
        match st.boundVars node.varId with
        | some v => .ok (v, st)
        | none => .error (.boundVariableOutsideScope node.varId)
      | .externalTensorShape => evaluateExternalTensorShape ctx node st
      | .externalTensorRead => evaluateExternalTensorRead prog ctx node st

end Quadrants.AdStack.SizeExpr
