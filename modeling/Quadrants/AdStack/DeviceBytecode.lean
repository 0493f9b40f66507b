import Quadrants.AdStack.SizeExpr
import Quadrants.Library.PrefixTable

/-!
The device bytecode of size expressions: the host-side encoder of the LLVM
path and the interpreter that walks the bytecode on the device.

Positions in the emitted arrays are natural numbers, and the sentinel `-1` of an
unused slot is `none`.  The LLVM encoder has no emitter for field loads.
-/

namespace Quadrants.AdStack.DeviceBytecode

open Quadrants.Library.StatefulLoops
open Quadrants.Library.PrefixTable
open Quadrants.AdStack.SizeExpr

def deviceMaxBoundVars : Nat := 32

def sizerMaxPendingFrames : Nat := 16

def deviceMaxOverRangeIterations : Int64 := 16777216

inductive DeviceKind
  | const
  | add
  | sub
  | mul
  | max
  | maxOverRange
  | boundVariable
  | externalTensorRead
  | fieldLoad
deriving DecidableEq, Repr

structure AdStackSizeExprDeviceNode where
  kind : DeviceKind
  operandA : Option Nat := none
  operandB : Option Nat := none
  bodyNodeIdx : Option Nat := none
  varId : Int32 := -1
  primDt : Int32 := -1
  argBufferOffset : Int32 := -1
  indicesOffset : Nat := 0
  indicesCount : Nat := 0
  constValue : Int64 := 0
deriving DecidableEq, Repr

structure Bytecode where
  nodes : List AdStackSizeExprDeviceNode := []
  indices : List Int32 := []
deriving DecidableEq, Repr

inductive EncodeError
  | srcIdxOutOfBounds (srcIdx : Int32) (size : Nat)
  | hostFold (error : EvalError)
  | varIdNotInRemap (varId : Int32)
  | maxOverRangeGuard (count : Int64) (guard : Int64)
  | externalTensorReadNoArgsType (srcIdx : Int32)
  | externalTensorReadEmptyArgIdPath (srcIdx : Int32)
  | fieldLoadWithoutEmitter (srcIdx : Int32)
  | externalTensorShapeEscapedFolding (srcIdx : Int32)
  | rootHasFreeVariables (count : Nat)
  | tooManyBoundVariables (count : Nat) (cap : Nat)
  | maxOverRangeNestingTooDeep (depth : Nat) (cap : Nat)
  | recursionTooDeep
deriving DecidableEq, Repr

def tableAt {β : Type} (table : List β) (idx : Int32) (default : β) : β :=
  if idx < 0 then default else table.getD idx.toInt.toNat default

def deviceLeafStep (fieldloadStaysOnDevice : Bool) (result : List Bool)
    (node : SerializedSizeExprNode) : Bool :=
  node.kind == .externalTensorRead ||
    (fieldloadStaysOnDevice && node.kind == .fieldLoad) ||
    tableAt result node.operandA false || tableAt result node.operandB false ||
    tableAt result node.bodyNodeIdx false

def computeContainsDeviceLeaf (expr : SerializedSizeExpr)
    (fieldloadStaysOnDevice : Bool) : List Bool :=
  buildTable (deviceLeafStep fieldloadStaysOnDevice) expr.nodes

def indexVars (indices : List Int32) : List Int32 :=
  (indices.filter (· < 0)).map indexVar

def freeVarsStep (result : List (List Int32)) (node : SerializedSizeExprNode) : List Int32 :=
  match node.kind with
  | .const | .externalTensorShape => []
  | .boundVariable => [node.varId]
  | .fieldLoad | .externalTensorRead => indexVars node.indices
  | .add | .sub | .mul | .max =>
    tableAt result node.operandA [] ++ tableAt result node.operandB []
  | .maxOverRange =>
    tableAt result node.operandA [] ++ tableAt result node.operandB [] ++
      (tableAt result node.bodyNodeIdx []).filter (· ≠ node.varId)

def computeFreeVars (expr : SerializedSizeExpr) : List (List Int32) :=
  buildTable freeVarsStep expr.nodes

def mentionedVars (node : SerializedSizeExprNode) : List Int32 :=
  (if node.kind = .maxOverRange ∨ node.kind = .boundVariable then [node.varId] else []) ++
    indexVars node.indices

/-- The distinct non-negative ids in the order of their first mention; the
dense id of a variable is its position. -/
def denseVarIds (expr : SerializedSizeExpr) : List Int32 :=
  (expr.nodes.flatMap mentionedVars).foldl
    (fun remap v => if v < 0 ∨ v ∈ remap then remap else remap ++ [v]) []

def buildDenseVarIdRemap (expr : SerializedSizeExpr) : Except EncodeError (List Int32) :=
  let remap := denseVarIds expr
  if deviceMaxBoundVars < remap.length then
    .error (.tooManyBoundVariables remap.length deviceMaxBoundVars)
  else .ok remap

def remapVarId (remap : List Int32) (original : Int32) : Except EncodeError Int32 :=
  if original ∈ remap then .ok (Int32.ofNat (remap.idxOf original))
  else .error (.varIdNotInRemap original)

def morNesting (expr : SerializedSizeExpr) : Nat → Int32 → Nat
  | 0, _ => 0
  | fuel + 1, i =>
    match expr.node? i with
    | none => 0
    | some node =>
      (if node.kind = .maxOverRange then 1 else 0) +
        Nat.max (morNesting expr fuel node.operandA)
          (Nat.max (morNesting expr fuel node.operandB) (morNesting expr fuel node.bodyNodeIdx))

def computeMaxMorNesting (expr : SerializedSizeExpr) : Nat :=
  (List.range expr.nodes.length).foldl
    (fun depth i => Nat.max depth (morNesting expr expr.nodes.length (Int32.ofNat i))) 0

structure EncoderTables where
  containsDeviceLeaf : List Bool
  freeVars : List (List Int32)
  varIdRemap : List Int32

def EncoderTables.folds (tables : EncoderTables) (srcIdx : Int32) : Bool :=
  !tableAt tables.containsDeviceLeaf srcIdx false &&
    (tableAt tables.freeVars srcIdx []).isEmpty

def Bytecode.emit (bc : Bytecode) (node : AdStackSizeExprDeviceNode) : Nat × Bytecode :=
  (bc.nodes.length, { bc with nodes := bc.nodes ++ [node] })

def binaryDeviceKind : Kind → DeviceKind
  | .sub => .sub
  | .mul => .mul
  | .max => .max
  | _ => .add

def elemStrides (ctx : LaunchContextBuilder) (argIdPath : List Int32) :
    Nat → Nat → List Int32
  | 0, _ => []
  | 1, _ => [1]
  | count + 2, k =>
    let rest := elemStrides ctx argIdPath (count + 1) (k + 1)
    rest.headD 1 * ctx.structArgs (shapeSlot argIdPath (Int32.ofNat (k + 1))) :: rest

def remapIndex (remap : List Int32) (raw : Int32) : Except EncodeError Int32 :=
  if raw < 0 then do
    let dense ← remapVarId remap (indexVar raw)
    return -(dense + 1)
  else .ok raw

def encodeIndices (remap : List Int32) :
    List Int32 → List Int32 → Except EncodeError (List Int32)
  | raw :: raws, stride :: strides => do
      let raw' ← remapIndex remap raw
      let rest ← encodeIndices remap raws strides
      return raw' :: stride :: rest
  | _, _ => .ok []

def externalReadNode (node : SerializedSizeExprNode) (dataPtrOffset indicesOffset : Nat) :
    AdStackSizeExprDeviceNode where
  kind := .externalTensorRead
  primDt := node.constValue.toInt32
  argBufferOffset := Int32.ofNat dataPtrOffset
  indicesOffset := indicesOffset
  indicesCount := node.indices.length

def encodeExternalTensorRead (ctx : Option LaunchContextBuilder) (remap : List Int32)
    (srcIdx : Int32) (node : SerializedSizeExprNode) (bc : Bytecode) :
    Except EncodeError (Nat × Bytecode) :=
  match ctx.bind fun c => c.argsTypeOffset.map fun offset => (c, offset) with
  | none => .error (.externalTensorReadNoArgsType srcIdx)
  | some (c, offset) =>
    if node.argIdPath = [] then .error (.externalTensorReadEmptyArgIdPath srcIdx)
    else do
      let dataPtrOffset := offset (node.argIdPath ++ [TypeFactory.dataPtrPosInNdarray])
      let pairs ← encodeIndices remap node.indices
        (elemStrides c node.argIdPath node.indices.length 0)
      return { bc with indices := bc.indices ++ pairs }.emit
        (externalReadNode node dataPtrOffset bc.indices.length)

def checkConstRange (bc : Bytecode) (a b : Nat) : Except EncodeError Unit :=
  match bc.nodes[a]?, bc.nodes[b]? with
  | some nodeA, some nodeB =>
    if nodeA.kind = .const ∧ nodeB.kind = .const ∧ nodeA.constValue < nodeB.constValue ∧
        deviceMaxOverRangeIterations < nodeB.constValue - nodeA.constValue then
      .error (.maxOverRangeGuard (nodeB.constValue - nodeA.constValue) deviceMaxOverRangeIterations)
    else .ok ()
  | _, _ => .ok ()

def bareState : EvalState where
  boundVars := emptyBoundVars
  reads := none
  launchReadCache := none

def hostFold (src : SerializedSizeExpr) (prog : ProgramView)
    (ctx : Option LaunchContextBuilder) (srcIdx : Int32) : Except EncodeError Int64 :=
  match evaluateNode src prog ctx src.nodes.length srcIdx bareState with
  | .ok (v, _) => .ok v
  | .error e => .error (.hostFold e)

def encodeSubtree (src : SerializedSizeExpr) (tables : EncoderTables) (prog : ProgramView)
    (ctx : Option LaunchContextBuilder) :
    Nat → Int32 → Bytecode → Except EncodeError (Nat × Bytecode)
  | 0, _, _ => .error .recursionTooDeep
  | fuel + 1, srcIdx, bc =>
    match src.node? srcIdx with
    | none => .error (.srcIdxOutOfBounds srcIdx src.nodes.length)
    | some node =>
      if tables.folds srcIdx then do
        let val ← hostFold src prog ctx srcIdx
        return bc.emit { kind := .const, constValue := val }
      else match node.kind with
      | .const => .ok (bc.emit { kind := .const, constValue := node.constValue })
      | .boundVariable => do
          let dense ← remapVarId tables.varIdRemap node.varId
          return bc.emit { kind := .boundVariable, varId := dense }
      | .add | .sub | .mul | .max => do
          let (a, bc) ← encodeSubtree src tables prog ctx fuel node.operandA bc
          let (b, bc) ← encodeSubtree src tables prog ctx fuel node.operandB bc
          return bc.emit
            { kind := binaryDeviceKind node.kind, operandA := some a, operandB := some b }
      | .maxOverRange => do
          let (a, bc) ← encodeSubtree src tables prog ctx fuel node.operandA bc
          let (b, bc) ← encodeSubtree src tables prog ctx fuel node.operandB bc
          checkConstRange bc a b
          let (body, bc) ← encodeSubtree src tables prog ctx fuel node.bodyNodeIdx bc
          let dense ← remapVarId tables.varIdRemap node.varId
          return bc.emit
            { kind := .maxOverRange
              operandA := some a
              operandB := some b
              bodyNodeIdx := some body
              varId := dense }
      | .externalTensorRead =>
        encodeExternalTensorRead ctx tables.varIdRemap srcIdx node bc
      | .fieldLoad => .error (.fieldLoadWithoutEmitter srcIdx)
      | .externalTensorShape => .error (.externalTensorShapeEscapedFolding srcIdx)

def encoderTables (expr : SerializedSizeExpr) : Except EncodeError EncoderTables := do
  let containsDeviceLeaf := computeContainsDeviceLeaf expr false
  let freeVars := computeFreeVars expr
  let rootVars := tableAt freeVars expr.rootIdx []
  if rootVars ≠ [] then throw (.rootHasFreeVariables rootVars.length)
  let varIdRemap ← buildDenseVarIdRemap expr
  if sizerMaxPendingFrames < computeMaxMorNesting expr then
    throw (.maxOverRangeNestingTooDeep (computeMaxMorNesting expr) sizerMaxPendingFrames)
  return { containsDeviceLeaf, freeVars, varIdRemap }

def encodeStack (prog : ProgramView) (ctx : Option LaunchContextBuilder)
    (expr : Option SerializedSizeExpr) (bc : Bytecode) :
    Except EncodeError (Option Nat × Bytecode) :=
  match expr with
  | none => .ok (none, bc)
  | some expr =>
    if expr.nodes = [] then .ok (none, bc)
    else do
      let tables ← encoderTables expr
      let (root, bc) ←
        encodeSubtree expr tables prog ctx expr.nodes.length expr.rootIdx bc
      return (some root, bc)

/-- `encode_bytecode_common` for the LLVM path: the root of every stack, and
the shared node and index arrays. -/
def encodeBytecodeCommon (prog : ProgramView) (ctx : Option LaunchContextBuilder) :
    List (Option SerializedSizeExpr) → Bytecode →
      Except EncodeError (List (Option Nat) × Bytecode)
  | [], bc => .ok ([], bc)
  | expr :: exprs, bc => do
      let (root, bc) ← encodeStack prog ctx expr bc
      let (roots, bc) ← encodeBytecodeCommon prog ctx exprs bc
      return (root :: roots, bc)

/-- What the interpreter reads: the data pointers in the kernel argument buffer,
the memory behind pointers, and the SNode tree roots of the runtime. -/
structure DeviceMemory where
  argBuffer : Int32 → Ptr
  bytes : Ptr → Int → UInt8
  roots : Option (Int32 → Ptr)

inductive DeviceFault
  | nodeOutOfBounds
  | recursionTooDeep
deriving DecidableEq, Repr

/-- `DeviceEvalScope::values`. -/
abbrev DeviceEvalScope := Int32 → Int64

def inScope (var : Int32) : Bool := 0 ≤ var && var < Int32.ofNat deviceMaxBoundVars

def DeviceEvalScope.bind (scope : DeviceEvalScope) (var : Int32) (i : Int64) :
    DeviceEvalScope :=
  if inScope var then Function.update scope var i else scope

def DeviceEvalScope.read (scope : DeviceEvalScope) (var : Int32) : Int64 :=
  if inScope var then scope var else 0

def deviceLinear (scope : DeviceEvalScope) : List Int32 → Int64 → Int64
  | raw :: elemStride :: rest, linear =>
    let v := if 0 ≤ raw then raw.toInt64 else scope.read (indexVar raw)
    deviceLinear scope rest (linear + v * elemStride.toInt64)
  | _, linear => linear

def deviceIndices (bc : Bytecode) (node : AdStackSizeExprDeviceNode) : List Int32 :=
  (bc.indices.drop node.indicesOffset).take (2 * node.indicesCount)

def deviceLoadElement (bytes : Int → UInt8) (linear : Int64) (primDt : Int32) : Int64 :=
  (loadElement bytes linear (PrimitiveTypeID.ofInt primDt.toInt)).getD 0

def deviceFieldLoad (mem : DeviceMemory) (bc : Bytecode)
    (node : AdStackSizeExprDeviceNode) (scope : DeviceEvalScope) : Int64 :=
  match mem.roots with
  | none => 0
  | some roots =>
    if node.argBufferOffset < 0 then 0
    else
      deviceLoadElement
        (fun i => mem.bytes (roots node.argBufferOffset) (node.constValue.toInt + i))
        (deviceLinear scope (deviceIndices bc node) 0) node.primDt

def deviceBinary : DeviceKind → Int64 → Int64 → Int64
  | .add, a, b => a + b
  | .sub, a, b => if 0 < a - b then a - b else 0
  | .mul, a, b => a * b
  | .max, a, b => if b < a then a else b
  | _, _, _ => 0

def Bytecode.node (bc : Bytecode) (nodeIdx : Option Nat) :
    Except DeviceFault AdStackSizeExprDeviceNode :=
  match nodeIdx.bind fun i => bc.nodes[i]? with
  | some node => .ok node
  | none => .error .nodeOutOfBounds

def deviceEvalNode (mem : DeviceMemory) (bc : Bytecode) :
    Nat → Option Nat → DeviceEvalScope → Except DeviceFault (Int64 × DeviceEvalScope)
  | 0, _, _ => .error .recursionTooDeep
  | fuel + 1, nodeIdx, scope => do
      let node ← bc.node nodeIdx
      match node.kind with
      | .const => .ok (node.constValue, scope)
      | .add | .sub | .mul | .max => do
          let (a, scope) ← deviceEvalNode mem bc fuel node.operandA scope
          let (b, scope) ← deviceEvalNode mem bc fuel node.operandB scope
          return (deviceBinary node.kind a b, scope)
      | .maxOverRange => do
          let (begin', scope) ← deviceEvalNode mem bc fuel node.operandA scope
          let (end', scope) ← deviceEvalNode mem bc fuel node.operandB scope
          if begin' < end' ∧ deviceMaxOverRangeIterations < end' - begin' then
            return (0, scope)
          -- the previous value of the slot is not put back
          maxLoop (· + 1)
            (fun i scope =>
              deviceEvalNode mem bc fuel node.bodyNodeIdx (scope.bind node.varId i))
            (tripCount begin' end') begin' 0 scope
      | .boundVariable => .ok (scope.read node.varId, scope)
      | .externalTensorRead =>
        .ok (deviceLoadElement (mem.bytes (mem.argBuffer node.argBufferOffset))
          (deviceLinear scope (deviceIndices bc node) 0) node.primDt, scope)
      | .fieldLoad => .ok (deviceFieldLoad mem bc node scope, scope)

end Quadrants.AdStack.DeviceBytecode
