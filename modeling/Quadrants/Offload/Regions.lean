import Quadrants.Graph.DoWhileDriver
import Quadrants.Library.NestedLoops

namespace Quadrants.Offload

open Library.NestedLoops Library.CallTrace Quadrants.Graph

inductive SNodeType where
  | root
  | dense
  | dynamic
  | pointer
  | bitmasked
  | hash
  | place
  | bitStruct
  | quantArray
  | undefined
  deriving DecidableEq, Repr

structure SNode where
  id : ℕ
  type : SNodeType
  deriving DecidableEq, Repr

def isGcAble (type : SNodeType) : Bool :=
  type = .pointer || type = .dynamic

structure GraphRegionTag where
  graphDoWhileLevelId : ℤ := -1
  streamParallelGroupId : ℕ := 0
  graphParallelRegionId : ℕ := 0
  checkpointId : ℤ := -1
  isSet : Bool := false
  deriving DecidableEq, Repr

def GraphRegionTag.same (tag other : GraphRegionTag) : Bool :=
  tag.graphDoWhileLevelId = other.graphDoWhileLevelId &&
    tag.streamParallelGroupId = other.streamParallelGroupId &&
    tag.checkpointId = other.checkpointId

inductive StmtKind where
  | pure
  | sideEffect (regionTag : GraphRegionTag) (deactivations : List SNode)
  | rangeFor (tag : GraphRegionTag) (deactivations : List SNode)
  /-- `path` leads from the root to the leaf. -/
  | structFor (tag : GraphRegionTag) (path : List SNode) (isBitVectorized demotable : Bool)
      (deactivations : List SNode)
  | meshFor (level : ℤ) (deactivations : List SNode)
  deriving DecidableEq, Repr

structure Stmt where
  id : ℕ
  operands : List ℕ
  kind : StmtKind
  deriving DecidableEq, Repr

namespace Stmt

def isFor (stmt : Stmt) : Bool :=
  match stmt.kind with
  | .rangeFor _ _ | .structFor _ _ _ _ _ | .meshFor _ _ => true
  | _ => false

def setsRegion (stmt : Stmt) : Bool :=
  match stmt.kind with
  | .sideEffect tag _ => tag.isSet
  | _ => false

def rides (stmt : Stmt) : Bool :=
  !stmt.isFor && !stmt.setsRegion

def isPure (stmt : Stmt) : Bool :=
  match stmt.kind with
  | .pure => true
  | _ => false

def regionTag (stmt : Stmt) : GraphRegionTag :=
  match stmt.kind with
  | .pure => {}
  | .sideEffect tag _ => tag
  | .rangeFor tag _ => tag
  | .structFor tag _ _ _ _ => tag
  | .meshFor level _ => { graphDoWhileLevelId := level }

def level (stmt : Stmt) : ℤ :=
  stmt.regionTag.graphDoWhileLevelId

def deactivations (stmt : Stmt) : List SNode :=
  match stmt.kind with
  | .pure => []
  | .sideEffect _ snodes | .rangeFor _ snodes | .structFor _ _ _ _ snodes | .meshFor _ snodes =>
    snodes

def preForTag (stmt : Stmt) : GraphRegionTag :=
  match stmt.kind with
  | .meshFor level _ => { graphDoWhileLevelId := level, isSet := true }
  | _ => { stmt.regionTag with checkpointId := -1, isSet := true }

end Stmt

inductive TaskBody where
  | serial (statements : List Stmt)
  | clearList (snode : SNode)
  | listgen (snode : SNode)
  | rangeFor (stmt : Stmt)
  | structFor (stmt : Stmt)
  | meshFor (stmt : Stmt)
  | gc (snode : SNode)

structure Task where
  body : TaskBody
  tag : GraphRegionTag

namespace Task

def graphDoWhileLevelId (task : Task) : ℤ :=
  task.tag.graphDoWhileLevelId

def statements (task : Task) : List Stmt :=
  match task.body with
  | .serial statements => statements
  | .rangeFor stmt | .structFor stmt | .meshFor stmt => [stmt]
  | _ => []

end Task

def listTasks (level : ℤ) (path : List SNode) (isBitVectorized demotable : Bool) : List Task :=
  if demotable then []
  else
    path.tail.flatMap fun snode =>
      if snode.type = .quantArray && isBitVectorized then []
      else [⟨.clearList snode, { graphDoWhileLevelId := level }⟩,
        ⟨.listgen snode, { graphDoWhileLevelId := level }⟩]

def emitStructFor (stmt : Stmt) (tag : GraphRegionTag) (path : List SNode)
    (isBitVectorized demotable : Bool) : List Task :=
  listTasks tag.graphDoWhileLevelId path isBitVectorized demotable ++ [⟨.structFor stmt, tag⟩]

def forTasks (stmt : Stmt) : List Task :=
  match stmt.kind with
  | .rangeFor tag _ => [⟨.rangeFor stmt, tag⟩]
  | .structFor tag path isBitVectorized demotable _ =>
    emitStructFor stmt tag path isBitVectorized demotable
  | .meshFor level _ => [⟨.meshFor stmt, { graphDoWhileLevelId := level }⟩]
  | _ => []

/-- The root block that is being filled and the serial task that is being collected. -/
structure Offloader where
  rootBlock : List Task := []
  pendingSerialStatements : List Stmt := []
  bucketTag : GraphRegionTag := {}
  bucketHasSideEffect : Bool := false

namespace Offloader

def assembleSerialStatements (o : Offloader) (fallbackTag : GraphRegionTag) : Offloader :=
  if o.pendingSerialStatements = [] then o
  else
    { rootBlock := o.rootBlock ++ [⟨.serial o.pendingSerialStatements,
        if o.bucketHasSideEffect then o.bucketTag else fallbackTag⟩] }

def pushSerialStatement (o : Offloader) (stmt : Stmt) : Offloader :=
  let o :=
    if stmt.setsRegion then
      let o :=
        if o.bucketHasSideEffect && !stmt.regionTag.same o.bucketTag then
          o.assembleSerialStatements {}
        else o
      if o.bucketHasSideEffect then o
      else { o with bucketTag := stmt.regionTag, bucketHasSideEffect := true }
    else o
  { o with pendingSerialStatements := o.pendingSerialStatements ++ [stmt] }

def visit (o : Offloader) (stmt : Stmt) : Offloader :=
  if stmt.isFor then
    let o := o.assembleSerialStatements stmt.preForTag
    { o with rootBlock := o.rootBlock ++ forTasks stmt }
  else o.pushSerialStatement stmt

def run (rootStatements : List Stmt) : List Task :=
  ((rootStatements.foldl visit {}).assembleSerialStatements {}).rootBlock

end Offloader

def gatherDeactivations (task : Task) : List SNode :=
  (task.statements.flatMap Stmt.deactivations).dedup

def gcTasks (task : Task) : List Task :=
  (((gatherDeactivations task).filter fun snode => isGcAble snode.type).map fun snode =>
    ⟨.gc snode, {}⟩).reverse

def insertGc (tasks : List Task) : List Task :=
  tasks.flatMap fun task => task :: gcTasks task

section Meaning

variable {Mem Val : Type}

/-- What the statements do: the value of each, what those with side effects and the loops do to
the memory, and the flags of the levels. -/
structure Meaning (Mem Val : Type) where
  value : ℕ → Mem → List Val → Val
  effect : ℕ → Mem → List Val → Mem
  flag : ℤ → Mem → Bool

/-- The log has every side-effecting statement and loop that was executed, with the values it
has read. -/
structure State (Mem Val : Type) where
  mem : Mem
  vals : ℕ → Val
  log : List (ℕ × List Val)

def Stmt.exec (m : Meaning Mem Val) (stmt : Stmt) (s : State Mem Val) : State Mem Val :=
  let args := stmt.operands.map s.vals
  { mem := if stmt.isPure then s.mem else m.effect stmt.id s.mem args
    vals := fun id => if id = stmt.id then m.value stmt.id s.mem args else s.vals id
    log := if stmt.isPure then s.log else s.log ++ [(stmt.id, args)] }

def execAll (m : Meaning Mem Val) (statements : List Stmt) (s : State Mem Val) : State Mem Val :=
  statements.foldl (fun s stmt => stmt.exec m s) s

def Task.exec (m : Meaning Mem Val) (task : Task) (s : State Mem Val) : State Mem Val :=
  execAll m task.statements s

def Meaning.again (m : Meaning Mem Val) (level : ℕ) (s : State Mem Val) : Bool :=
  m.flag level s.mem

def runNested (m : Meaning Mem Val) (n : ℕ) (p : Nested Stmt) (s : State Mem Val) :
    State Mem Val × Bool :=
  p.run (fun stmt s => stmt.exec m s) m.again n s

def replay (m : Meaning Mem Val) (tasks : List Task) (s : State Mem Val) (calls : List Call) :
    State Mem Val :=
  calls.foldl (fun s call =>
    match call with
    | .launchTask i =>
      match tasks[i]? with
      | some task => task.exec m s
      | none => s
    | .continueLevel _ => s) s

def backend (m : Meaning Mem Val) (tasks : List Task) (s : State Mem Val) (budget : ℕ) :
    Environment Call where
  answer calls :=
    match calls.getLast? with
    | some (.continueLevel level) => m.flag level (replay m tasks s calls).mem
    | _ => true
  budget := budget

end Meaning

end Quadrants.Offload
