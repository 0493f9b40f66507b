import Mathlib.Data.List.Dedup
import Mathlib.Logic.Function.Basic
import Mathlib.Logic.Relation
import Quadrants.Analysis.AliasAnalysis
import Quadrants.Analysis.AliasSound

namespace Quadrants.Analysis

open Function

inductive TaskType where
  | rangeFor
  | structFor (activeIndices : List ℕ)
  | meshFor
  deriving DecidableEq, Repr

/-- The statements of a task in the order in which a visitor meets them, whatever blocks they
are nested in. A `DecorationStmt` keeps the loop whose body holds it. The analysis does not
look at `other` statements: calls of real functions and operations on SNodes. -/
inductive BodyStmt where
  | value (val : Val)
  | decoration (loop : Loop) (operand : Val) (axis : ℕ)
  | pointer (ptr : Ptr)
  | other (id : ℕ)
  deriving DecidableEq, Repr

structure OffloadedTask where
  taskType : TaskType
  body : List BodyStmt
  deriving Repr

structure LoopUniqueStmtSearcher where
  loopInvariant : Val → Bool
  loopUnique : Val → Option ℤ
  numDifferentLoopIndices : ℤ

namespace LoopUniqueStmtSearcher

def setInvariant (s : LoopUniqueStmtSearcher) (stmt : Val) : LoopUniqueStmtSearcher :=
  { s with loopInvariant := update s.loopInvariant stmt true }

def setUnique (s : LoopUniqueStmtSearcher) (stmt : Val) (index : ℤ) : LoopUniqueStmtSearcher :=
  { s with loopUnique := update s.loopUnique stmt (some index) }

variable (s : LoopUniqueStmtSearcher)

variable (stmt : Val)

theorem setInvariant_loopInvariant_of_ne {stmt val : Val}
    (h : val ≠ stmt) : (s.setInvariant stmt).loopInvariant val = s.loopInvariant val :=
  update_of_ne h _ _

theorem setUnique_loopUnique_of_ne {stmt val : Val} {index : ℤ}
    (h : val ≠ stmt) : (s.setUnique stmt index).loopUnique val = s.loopUnique val :=
  update_of_ne h _ _

@[simp] theorem setUnique_loopUnique_self (index : ℤ) :
    (s.setUnique stmt index).loopUnique stmt = some index :=
  update_self _ _ _

/-- `loop_unique_[stmt] = loop_unique_[operand]`, if the operand has an entry and the operation
keeps different values different. -/
def inheritUnique (s : LoopUniqueStmtSearcher) (stmt operand : Val) (keeps : Bool) :
    LoopUniqueStmtSearcher :=
  match s.loopUnique operand with
  | some index => if keeps then s.setUnique stmt index else s
  | none => s

def keepsUnique : BinaryOpType → Bool
  | .add | .sub | .bitXor => true
  | .other _ => false

def visitUnary (s : LoopUniqueStmtSearcher) (stmt : Val) (op : UnaryOpType) (operand : Val) :
    LoopUniqueStmtSearcher :=
  let s := if s.loopInvariant operand then s.setInvariant stmt else s
  s.inheritUnique stmt operand (op == .neg)

def visitBinary (s : LoopUniqueStmtSearcher) (stmt : Val) (op : BinaryOpType) (lhs rhs : Val) :
    LoopUniqueStmtSearcher :=
  let s := if s.loopInvariant lhs && s.loopInvariant rhs then s.setInvariant stmt else s
  let s := s.inheritUnique stmt lhs (s.loopInvariant rhs && keepsUnique op)
  s.inheritUnique stmt rhs (s.loopInvariant lhs && keepsUnique op)

def visitValue (s : LoopUniqueStmtSearcher) (stmt : Val) : LoopUniqueStmtSearcher :=
  match stmt with
  | .loopIndex _ loop index => if loop = .offloaded then s.setUnique stmt index else s
  | .loopUnique .. => s.setUnique stmt (-1)
  | .const .. | .shapeAlongAxis .. => s.setInvariant stmt
  | .unary _ _ op operand => s.visitUnary stmt op operand
  | .binary _ _ op lhs rhs => s.visitBinary stmt op lhs rhs
  | _ => s

def visitDecoration (s : LoopUniqueStmtSearcher) (operand : Val) (axis : ℕ) :
    LoopUniqueStmtSearcher :=
  match s.loopUnique operand with
  | some _ => s
  | none =>
    { s.setUnique operand axis with
      numDifferentLoopIndices := max (axis + 1) s.numDifferentLoopIndices }

def visit (s : LoopUniqueStmtSearcher) : BodyStmt → LoopUniqueStmtSearcher
  | .value val => s.visitValue val
  | .decoration _ operand axis => s.visitDecoration operand axis
  | .pointer _ | .other _ => s

def loopIndices (s : LoopUniqueStmtSearcher) (indices : List Val) : List ℤ :=
  (indices.filterMap s.loopUnique).dedup

def isPtrIndicesLoopUnique (s : LoopUniqueStmtSearcher) (indices : List Val) : Bool :=
  indices.any (fun index => s.loopUnique index == some (-1)) ||
    ((s.loopIndices indices).length : ℤ) == s.numDifferentLoopIndices

def isPartiallyLoopUnique (s : LoopUniqueStmtSearcher) (stmt : Val) : Bool :=
  (s.loopUnique stmt).isSome

end LoopUniqueStmtSearcher

structure UniquelyAccessedSNodeSearcher where
  accessedPointer : ℕ → Option (Option Ptr)
  relAccessPointer : ℕ → Bool
  accessedArrPointer : List ℕ → Option (Option Ptr)

namespace UniquelyAccessedSNodeSearcher

def setAccessed (s : UniquelyAccessedSNodeSearcher) (snode : ℕ) (ptr : Option Ptr) :
    UniquelyAccessedSNodeSearcher :=
  { s with accessedPointer := update s.accessedPointer snode (some ptr) }

def setRelAccess (s : UniquelyAccessedSNodeSearcher) (snode : ℕ) : UniquelyAccessedSNodeSearcher :=
  { s with relAccessPointer := update s.relAccessPointer snode true }

def setArr (s : UniquelyAccessedSNodeSearcher) (argId : List ℕ) (ptr : Option Ptr) :
    UniquelyAccessedSNodeSearcher :=
  { s with accessedArrPointer := update s.accessedArrPointer argId (some ptr) }

end UniquelyAccessedSNodeSearcher

def Val.meshBase : Val → Val
  | meshIndexConversion _ _ _ _ idx => idx.meshBase
  | val => val

def Val.isFromEnd (taskType : TaskType) : Val → Bool
  | meshIndexConversion _ _ _ _ idx =>
    match idx.meshBase with
    | loopIndex _ loop _ => loop == .offloaded && taskType == .meshFor
    | _ => false
  | _ => false

def definitelySameAddress (var1 : Option Ptr) (var2 : Ptr) : Bool :=
  match var1 with
  | some var1 => aliasAnalysis var1 var2 == some .same
  | none => false

namespace UniquelyAccessedSNodeSearcher

variable (taskType : TaskType) (unique : LoopUniqueStmtSearcher)

def visitMeshIndex (s : UniquelyAccessedSNodeSearcher) (stmt : Ptr) (snode : ℕ)
    (indices : List Val) : UniquelyAccessedSNodeSearcher :=
  match indices with
  | [.meshIndexConversion id mesh idxType convType idx] =>
    if (Val.meshIndexConversion id mesh idxType convType idx).isFromEnd taskType then
      if s.relAccessPointer snode then s.setAccessed snode none
      else s.setAccessed snode (some stmt)
    else (s.setRelAccess snode).setAccessed snode none
  | _ => s

def visitGlobalPtr (s : UniquelyAccessedSNodeSearcher) (stmt : Ptr) (snode : ℕ)
    (indices : List Val) : UniquelyAccessedSNodeSearcher :=
  let s := s.visitMeshIndex taskType stmt snode indices
  match s.accessedPointer snode with
  | none =>
    if unique.isPtrIndicesLoopUnique indices then s.setAccessed snode (some stmt)
    else s.setAccessed snode none
  | some accessed =>
    if definitelySameAddress accessed stmt then s else s.setAccessed snode none

def sameUniqueIndices (indices otherIndices : List Val) : Bool :=
  (indices.zip otherIndices).all fun (index, other) =>
    !unique.isPartiallyLoopUnique index || sameValue index other

def visitExternalPtr (s : UniquelyAccessedSNodeSearcher) (stmt : Ptr) (argId : List ℕ)
    (indices : List Val) : UniquelyAccessedSNodeSearcher :=
  if !unique.isPtrIndicesLoopUnique indices then s.setArr argId none
  else
    match s.accessedArrPointer argId with
    | none => s.setArr argId (some stmt)
    | some (some (.externalPtr _ _ otherIndices _)) =>
      if sameUniqueIndices unique indices otherIndices then s else s.setArr argId none
    | some _ => s

def visit (s : UniquelyAccessedSNodeSearcher) (stmt : BodyStmt) : UniquelyAccessedSNodeSearcher :=
  match stmt with
  | .pointer (.globalPtr id snode indices) =>
    s.visitGlobalPtr taskType unique (.globalPtr id snode indices) snode indices
  | .pointer (.externalPtr id basePtr indices isGrad) =>
    s.visitExternalPtr unique (.externalPtr id basePtr indices isGrad) basePtr.argId indices
  | _ => s

end UniquelyAccessedSNodeSearcher

namespace OffloadedTask

def numLoopIndices (task : OffloadedTask) : ℤ :=
  match task.taskType with
  | .rangeFor | .meshFor => 1
  | .structFor activeIndices => activeIndices.length

def searchUnique (task : OffloadedTask) (body : List BodyStmt) : LoopUniqueStmtSearcher :=
  body.foldl LoopUniqueStmtSearcher.visit ⟨fun _ => false, fun _ => none, task.numLoopIndices⟩

def gatherUniquelyAccessedPointers (task : OffloadedTask) : UniquelyAccessedSNodeSearcher :=
  task.body.foldl
    (UniquelyAccessedSNodeSearcher.visit task.taskType (task.searchUnique task.body))
    ⟨fun _ => none, fun _ => false, fun _ => none⟩

end OffloadedTask

/-- What the bit-struct analysis reads of the SNode tree: `none` for an SNode outside bit-level
storage, else its nearest ancestor outside. -/
abbrev BitLevel := ℕ → Option ℕ

def Ptr.indices : Ptr → List Val
  | globalPtr _ _ indices => indices
  | externalPtr _ _ indices _ => indices
  | _ => []

def Ptr.startsWithMeshIndex (ptr : Ptr) : Bool :=
  match ptr.indices with
  | .meshIndexConversion _ _ _ _ _ :: _ => true
  | _ => false

def visitBitStruct (bitLevel : BitLevel) (result : ℕ → Option (Option Ptr)) (snode : ℕ)
    (ptr1 : Option Ptr) : Option (ℕ → Option (Option Ptr)) :=
  if ptr1.any Ptr.startsWithMeshIndex then some result
  else
    match bitLevel snode with
    | none => some result
    | some ancestor =>
      match result ancestor, ptr1 with
      | none, _ => some (update result ancestor (some ptr1))
      | some _, none => some (update result ancestor (some none))
      | some none, some _ => none
      | some (some ptr2), some ptr1 =>
        if (ptr1.indices.zip ptr2.indices).all fun (index1, index2) => sameValue index1 index2
        then some result
        else some (update result ancestor (some none))

/-- `gather_uniquely_accessed_bit_structs` of one task. `order` is the order in which the map of
accessed pointers is walked. -/
def gatherUniquelyAccessedBitStructs (bitLevel : BitLevel)
    (accessedPointer : ℕ → Option (Option Ptr)) (order : List ℕ) :
    Option (ℕ → Option (Option Ptr)) :=
  order.foldlM (fun result snode =>
    match accessedPointer snode with
    | some ptr => visitBitStruct bitLevel result snode ptr
    | none => some result) fun _ => none

end Quadrants.Analysis

namespace Quadrants.Analysis

namespace BodyStmt

def isInnerDecoration : BodyStmt → Bool
  | decoration (.inner _) _ _ => true
  | _ => false

def ownAxis : BodyStmt → Option ℕ
  | decoration .offloaded _ axis => some axis
  | _ => none

end BodyStmt

namespace OffloadedTask

def decoratedAxes (task : OffloadedTask) : List ℕ := (task.body.filterMap BodyStmt.ownAxis).dedup

/-- The loop indices of the task. The loop over an external array runs over its linearised
index, and one decoration for each axis of the array holds the index on that axis. -/
def axes (task : OffloadedTask) : List ℕ :=
  match task.taskType with
  | .structFor activeIndices => activeIndices
  | _ => if task.decoratedAxes = [] then [0] else task.decoratedAxes

structure WellFormed (task : OffloadedTask) : Prop where
  wellTyped : ∀ val, .value val ∈ task.body → val.WellTyped
  indices_wellTyped : ∀ ptr, .pointer ptr ∈ task.body → ∀ index ∈ ptr.indices, index.WellTyped
  loopIndex_mem : ∀ id index, .value (.loopIndex id .offloaded index) ∈ task.body →
    index ∈ task.axes
  activeIndices_nodup : ∀ activeIndices, task.taskType = .structFor activeIndices →
    activeIndices.Nodup
  /-- `lower_ast` decorates a remainder, with the axis it is the index of. -/
  decoration_binary : ∀ loop operand axis, .decoration loop operand axis ∈ task.body →
    operand.WellTyped ∧ ∃ id code lhs rhs, operand = .binary id .i32 (.other code) lhs rhs
  decoration_axis : ∀ loop loop' operand axis axis', .decoration loop operand axis ∈ task.body →
    .decoration loop' operand axis' ∈ task.body → axis = axis'
  /-- It decorates every axis of the array, and only a range-for loops over one. -/
  decoration_complete : ∀ operand axis, .decoration .offloaded operand axis ∈ task.body →
    task.taskType = .rangeFor ∧
      ∀ axis' < axis, ∃ operand', .decoration .offloaded operand' axis' ∈ task.body
  /-- Pointers into one field or one array have as many indices. -/
  globalPtr_length : ∀ id id' snode indices indices',
    .pointer (.globalPtr id snode indices) ∈ task.body →
    .pointer (.globalPtr id' snode indices') ∈ task.body → indices.length = indices'.length
  externalPtr_length : ∀ id id' (base base' : ArgLoad) indices indices' isGrad isGrad',
    base.argId = base'.argId →
    .pointer (.externalPtr id base indices isGrad) ∈ task.body →
    .pointer (.externalPtr id' base' indices' isGrad') ∈ task.body →
    indices.length = indices'.length

end OffloadedTask

inductive Target where
  | snode (id : ℕ)
  | array (argId : List ℕ)
  | bitStruct (id : ℕ)
  deriving DecidableEq, Repr

def Ptr.accessOf (bitLevel : BitLevel) (target : Target) : Ptr → Option (Bool × List Val)
  | globalPtr _ snode indices =>
    match target with
    | .snode id => if snode = id then some (false, indices) else none
    | .bitStruct id => if bitLevel snode = some id then some (false, indices) else none
    | .array _ => none
  | externalPtr _ basePtr indices isGrad =>
    match target with
    | .array argId => if basePtr.argId = argId then some (isGrad, indices) else none
    | _ => none
  | _ => none

/-- One run of the task. In every state in which an iteration evaluates its statements, the
loop indices and the decorated indices of the task's own loop tell the coordinates of the
iteration, `LoopUniqueStmt`s keep the promise they stand for, shapes do not change, and the
converted index of a mesh-for loop is a mesh element of its own. The local index of a mesh-for
loop starts again in every patch, so it tells no coordinate. -/
structure TaskRun (task : OffloadedTask) where
  Iteration : Type
  coordinate : ℕ → Iteration → ℤ
  state : Iteration → Valuation → Prop
  executes : Iteration → Ptr → Valuation → Prop
  /-- The cells of a target that an iteration accesses through statements the analysis does not
  look at. -/
  otherAccess : Iteration → Target → Bool × List ℤ → Prop
  executes_state : ∀ t ptr σ, executes t ptr σ → state t σ ∧ .pointer ptr ∈ task.body
  coordinates_inj : task.taskType ≠ .meshFor → ∀ s t,
    (∀ axis ∈ task.axes, coordinate axis s = coordinate axis t) → s = t
  loopIndex_inj : task.taskType ≠ .meshFor → ∀ s t σ τ, state s σ → state t τ →
    ∀ id index, .value (.loopIndex id .offloaded index) ∈ task.body →
    σ.value (.loopIndex id .offloaded index) = τ.value (.loopIndex id .offloaded index) →
    coordinate index s = coordinate index t
  decoration_inj : ∀ s t σ τ, state s σ → state t τ →
    ∀ operand axis, .decoration .offloaded operand axis ∈ task.body →
    σ.value operand = τ.value operand → coordinate axis s = coordinate axis t
  loopUnique_inj : ∀ s t σ τ, state s σ → state t τ → ∀ id dt input covers,
    .value (.loopUnique id dt input covers) ∈ task.body →
    σ.value (.loopUnique id dt input covers) = τ.value (.loopUnique id dt input covers) → s = t
  shape_const : ∀ s t σ τ, state s σ → state t τ → ∀ id axis argId,
    σ.value (.shapeAlongAxis id axis argId) = τ.value (.shapeAlongAxis id axis argId)
  operators_const : ∀ s t σ τ, state s σ → state t τ →
    σ.binaryOp = τ.binaryOp ∧ σ.unaryOp = τ.unaryOp
  fromEnd_inj : ∀ s t σ τ, state s σ → state t τ → ∀ val : Val,
    val.isFromEnd task.taskType = true → σ.value val = τ.value val → s = t

namespace TaskRun

variable {task : OffloadedTask} (r : TaskRun task) (bitLevel : BitLevel) (target : Target)

def accesses (t : r.Iteration) (ptr : Ptr) (cell : Bool × List ℤ) : Prop :=
  ∃ σ isGrad indices, r.executes t ptr σ ∧
    ptr.accessOf bitLevel target = some (isGrad, indices) ∧
    cell = (isGrad, indices.map σ.value)

def touches (t : r.Iteration) (cell : Bool × List ℤ) : Prop :=
  (∃ ptr, r.accesses bitLevel target t ptr cell) ∨ r.otherAccess t target cell

def NoSharing : Prop :=
  ∀ s t cell, r.touches bitLevel target s cell → r.touches bitLevel target t cell → s = t

def NeverMeet (ptr ptr' : Ptr) : Prop :=
  ∀ s t cell, r.accesses bitLevel target s ptr cell → r.accesses bitLevel target t ptr' cell →
    s = t

def OthersNeverMeet : Prop :=
  ∀ s t cell, r.otherAccess s target cell → r.touches bitLevel target t cell → s = t

end TaskRun

def OffloadedTask.verdict (task : OffloadedTask) (bitLevel : BitLevel) (order : List ℕ) :
    Target → Option Ptr
  | .snode id => (task.gatherUniquelyAccessedPointers.accessedPointer id).join
  | .array argId => (task.gatherUniquelyAccessedPointers.accessedArrPointer argId).join
  | .bitStruct id =>
    (gatherUniquelyAccessedBitStructs bitLevel
      task.gatherUniquelyAccessedPointers.accessedPointer order).bind fun result =>
        (result id).join

section Covered

variable (task : OffloadedTask)

def OffloadedTask.ownUnique : LoopUniqueStmtSearcher :=
  task.searchUnique (task.body.filter fun stmt => !stmt.isInnerDecoration)

/-- The indices tell which iteration of the task's loop they were computed in. -/
def OffloadedTask.Identifies (indices : List Val) : Prop :=
  (∃ index ∈ indices, task.ownUnique.loopUnique index = some (-1)) ∨
    match task.taskType with
    | .meshFor => ∃ index ∈ indices, index.isFromEnd task.taskType = true
    | _ => ((task.ownUnique.loopIndices indices).length : ℤ) =
        task.ownUnique.numDifferentLoopIndices

def EqualIndex : Val → Val → Prop :=
  Relation.EqvGen fun val1 val2 => val1.WellTyped ∧ val2.WellTyped ∧
    (CertainlyEqual val1 val2 ∨ sameValue val1 val2 = true)

/-- The two index lists agree, up to equal values, on indices that identify the iteration. -/
def OffloadedTask.Covered (indices indices' : List Val) : Prop :=
  ∃ common : List (Val × Val × Val),
    (∀ entry ∈ common, EqualIndex entry.1 entry.2.1 ∧ EqualIndex entry.1 entry.2.2 ∧
      ∃ axis : ℕ, indices[axis]? = some entry.2.1 ∧ indices'[axis]? = some entry.2.2) ∧
    task.Identifies (common.map Prod.fst)

def BodyStmt.externalPtrOf (argId : List ℕ) : BodyStmt → Option Ptr
  | .pointer (.externalPtr id basePtr indices isGrad) =>
    if basePtr.argId = argId then some (.externalPtr id basePtr indices isGrad) else none
  | _ => none

def OffloadedTask.firstExternalPtr (argId : List ℕ) : Option Ptr :=
  task.body.findSome? (BodyStmt.externalPtrOf argId)

/-- Two pointers to the target whose uniqueness the analysis has not established. Decorations of
inner loops pass for those of the task's loop, a mesh index overwrites what was recorded before
and is left out of bit structs, and each pointer into an array is compared with the first one
only. -/
def OffloadedTask.Exposed (target : Target) (ptr ptr' : Ptr) : Prop :=
  ¬task.Covered ptr.indices ptr'.indices ∧
    ((∃ stmt ∈ task.body, stmt.isInnerDecoration = true) ∨ task.taskType = .meshFor ∨
      (∃ argId, target = .array argId ∧ task.firstExternalPtr argId ≠ some ptr ∧
        task.firstExternalPtr argId ≠ some ptr') ∨
      ∃ id member, target = .bitStruct id ∧ .pointer member ∈ task.body ∧
        member.startsWithMeshIndex = true)

end Covered

def UniqueAccessSound (task : OffloadedTask) (runs : TaskRun task → Prop) (bitLevel : BitLevel)
    (order : List ℕ) (target : Target) : Prop :=
  task.verdict bitLevel order target ≠ none →
    ∀ r, runs r → r.NoSharing bitLevel target

end Quadrants.Analysis
