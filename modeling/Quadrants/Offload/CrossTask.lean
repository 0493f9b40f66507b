import Mathlib.Tactic.Common
import Quadrants.Library.StructuredRuns
import Quadrants.Offload.Regions

/-!
The values that the tasks of a kernel share: which statements get a slot of the global temporary
buffer, which are cloned into the tasks that use them, and what the kernel and its tasks compute.
-/

namespace Quadrants.CrossTask

open Library.StructuredRuns
open Offload (GraphRegionTag)

inductive Space where
  | field (id : ℕ)
  | external (arg : ℕ)
  deriving DecidableEq, Repr

/-- A place in memory. Slots of the global temporary buffer do not overlap, so that a slot is named
by the statement that has it. -/
inductive Loc where
  | stack (alloca : ℕ) (element : ℤ)
  | global (space : Space) (indices : List ℤ) (element : ℤ)
  | tmp (slot : ℕ) (element : ℤ)
  /-- The variable of an alloca that was cloned for a single use. -/
  | fresh
  deriving DecidableEq, Repr

inductive Owner where
  | space (space : Space)
  | alloca (id : ℕ)
  deriving DecidableEq, Repr

namespace Loc

def shift (loc : Loc) (k : ℤ) : Loc :=
  match loc with
  | stack alloca element => stack alloca (element + k)
  | global space indices element => global space indices (element + k)
  | tmp slot element => tmp slot (element + k)
  | fresh => fresh

def base : Loc → Loc
  | stack alloca _ => stack alloca 0
  | global space indices _ => global space indices 0
  | tmp slot _ => tmp slot 0
  | fresh => fresh

def owner : Loc → Option Owner
  | stack alloca _ => some (.alloca alloca)
  | global space _ _ => some (.space space)
  | tmp _ _ | fresh => none

def isGlobal : Loc → Bool
  | global _ _ _ => true
  | _ => false

end Loc

inductive Word where
  | int (value : ℤ)
  | ptr (loc : Loc)
  deriving DecidableEq, Repr

def Word.toInt : Word → ℤ
  | int value => value
  | ptr _ => 0

def Word.observed : Word → Option Word
  | int value => some (int value)
  | ptr loc => if loc.isGlobal then some (ptr loc) else none

abbrev Memory := Loc → ℤ

def Memory.set (mem : Memory) (loc : Loc) (value : ℤ) : Memory :=
  fun loc' => if loc' = loc then value else mem loc'

def Memory.zero (mem : Memory) (loc : Loc) : Memory :=
  fun loc' => if loc'.base = loc.base then 0 else mem loc'

inductive Code where
  | const (value : ℤ)
  | argLoad (arg : ℕ)
  /-- A unary or binary operation. -/
  | arith (op : ℕ)
  | alloca
  | matrixPtr
  | globalPtr (field : ℕ) (activate : Bool)
  | externalPtr (arg : ℕ)
  | localLoad
  | globalLoad
  | localStore
  | globalStore
  | atomicOp
  | loopIndex (loop : ℕ)
  | whileControl
  deriving DecidableEq, Repr

namespace Code

def isPointer : Code → Bool
  | alloca | matrixPtr | globalPtr _ _ | externalPtr _ => true
  | _ => false

def hasGlobalSideEffect : Code → Bool
  | globalPtr _ activate => activate
  | globalStore | atomicOp | whileControl => true
  | _ => false

end Code

structure Instr where
  id : ℕ
  code : Code
  operands : List ℕ
  deriving DecidableEq, Repr

abbrev Block := List (Stmt Instr ℕ)

def idsOf (block : Block) : List ℕ :=
  (blockLeaves block).map Instr.id ++ blockLoops block

def usesOf (block : Block) : List ℕ :=
  (blockLeaves block).flatMap Instr.operands ++ blockTests block

abbrev Defs := List Instr

def addDefs : Defs → Block → Defs
  | defs, [] => defs
  | defs, .leaf instr :: rest => addDefs (instr :: defs) rest
  | defs, _ :: rest => addDefs defs rest

def lookup (defs : Defs) (id : ℕ) : Option Instr :=
  defs.find? fun instr => instr.id = id

def codeOf (defs : Defs) (id : ℕ) : Option Code :=
  (lookup defs id).map Instr.code

structure RootStmt where
  stmt : Stmt Instr ℕ
  regionTag : GraphRegionTag := {}
  strictlySerialized : Bool := false

def RootStmt.hasGlobalSideEffect (root : RootStmt) : Bool :=
  match root.stmt with
  | .leaf instr => instr.code.hasGlobalSideEffect
  | _ => true

def RootStmt.isOffloadedFor (root : RootStmt) : Bool :=
  match root.stmt with
  | .loop _ _ _ _ => !root.strictlySerialized
  | _ => false

structure Pending where
  block : Block := []
  bucketTag : GraphRegionTag := {}
  bucketHasSideEffect : Bool := false

def Pending.assemble (pending : Pending) : List Block :=
  if pending.block.isEmpty then [] else [pending.block]

def Pending.push (pending : Pending) (root : RootStmt) : List Block × Pending :=
  if root.hasGlobalSideEffect && root.regionTag.isSet then
    if pending.bucketHasSideEffect then
      if root.regionTag.same pending.bucketTag then
        ([], { pending with block := pending.block ++ [root.stmt] })
      else (pending.assemble, ⟨[root.stmt], root.regionTag, true⟩)
    else ([], ⟨pending.block ++ [root.stmt], root.regionTag, true⟩)
  else ([], { pending with block := pending.block ++ [root.stmt] })

/-- `Offloader::run`: every range-for is a task, and so are the statements between them. The task
of a range-for is the block of the loop alone. -/
def offloaderRun : Pending → List RootStmt → List Block
  | pending, [] => pending.assemble
  | pending, root :: rest =>
    if root.isOffloadedFor then pending.assemble ++ [root.stmt] :: offloaderRun {} rest
    else (pending.push root).1 ++ offloaderRun (pending.push root).2 rest

def squash : Defs → ℕ → ℕ
  | [], id => id
  | instr :: defs, id =>
    if instr.id = id then
      match instr.code, instr.operands with
      | .matrixPtr, origin :: _ => squash defs origin
      | _, _ => id
    else squash defs id

def testAndAllocate (defs : Defs) (current : List ℕ) (operand : ℕ) : Option ℕ :=
  if operand ∈ current then none
  else
    match codeOf defs operand with
    | some (.const _) | some (.externalPtr _) => none
    | _ =>
      match codeOf defs (squash defs operand) with
      | some (.globalPtr _ _) => none
      | _ => some (squash defs operand)

def identify : Defs → List Block → List ℕ
  | _, [] => []
  | defs, task :: rest =>
    (usesOf task).filterMap (testAndAllocate defs (idsOf task)) ++
      identify (addDefs defs task) rest

section Fix

/-- An operand after the pass. A clone stands right before its only user, so it is written in its
place. -/
inductive Arg where
  | ref (id : ℕ)
  | tmpPtr (slot : ℕ)
  | tmpLoad (slot : ℕ)
  | clone (code : Code) (args : List Arg)

/-- A statement after the passes: a variable that became a slot, or a statement whose value may be
stored to its slot. -/
inductive FixedInstr where
  | slot (id : ℕ)
  | instr (id : ℕ) (code : Code) (args : List Arg) (stored : Bool)

variable (promoted : List ℕ)

def isCloned (instr : Instr) : Bool :=
  match instr.code with
  | .globalPtr _ _ => true
  | _ => instr.id ∉ promoted

def fixCross : Defs → ℕ → Arg
  | [], id => .ref id
  | instr :: defs, id =>
    if instr.id = id then
      if isCloned promoted instr then .clone instr.code (instr.operands.map (fixCross defs))
      else if instr.code.isPointer then .tmpPtr id
      else .tmpLoad id
    else fixCross defs id

def fixOperand (defs : Defs) (task : Block) (id : ℕ) : Arg :=
  if id ∈ idsOf task then
    if codeOf (blockLeaves task) id = some .alloca && id ∈ promoted then .tmpPtr id else .ref id
  else fixCross promoted defs id

def fixInstr (defs : Defs) (task : Block) (instr : Instr) : FixedInstr :=
  if instr.code = .alloca && instr.id ∈ promoted then .slot instr.id
  else
    .instr instr.id instr.code (instr.operands.map (fixOperand promoted defs task))
      (instr.id ∈ promoted)

def fixTasks : Defs → List Block → List (List (Stmt FixedInstr Arg))
  | _, [] => []
  | defs, task :: rest =>
    mapBlock (fixInstr promoted defs task) (fixOperand promoted defs task) task ::
      fixTasks (addDefs defs task) rest

end Fix

def promotedOf (root : List RootStmt) : List ℕ :=
  identify [] (offloaderRun {} root)

def offload (root : List RootStmt) : List (List (Stmt FixedInstr Arg)) :=
  fixTasks (promotedOf root) [] (offloaderRun {} root)

/-- The arguments of the kernel, what the operations do, and the rounds after which a while loop is
given up. -/
structure Setting where
  args : ℕ → ℤ
  arith : ℕ → List ℤ → ℤ
  atomic : ℤ → ℤ → ℤ
  rounds : ℕ

structure State where
  env : ℕ → Word
  mem : Memory
  log : List (ℕ × List (Option Word))
  stopped : Bool

section Run

variable (c : Setting)

/-- The value of a statement and what it does to the memory. `self` is the variable it declares. -/
def Code.run (self : Loc) (index : ℕ → ℤ) (args : List Word) (mem : Memory) :
    Code → Word × Memory
  | const value => (.int value, mem)
  | argLoad arg => (.int (c.args arg), mem)
  | arith op => (.int (c.arith op (args.map Word.toInt)), mem)
  | alloca => (.ptr self, mem.zero self)
  | matrixPtr =>
    match args with
    | [.ptr loc, .int k] => (.ptr (loc.shift k), mem)
    | _ => (.int 0, mem)
  | globalPtr field _ => (.ptr (.global (.field field) (args.map Word.toInt) 0), mem)
  | externalPtr arg => (.ptr (.global (.external arg) (args.map Word.toInt) 0), mem)
  | localLoad | globalLoad =>
    match args with
    | [.ptr loc] => (.int (mem loc), mem)
    | _ => (.int 0, mem)
  | localStore | globalStore =>
    match args with
    | [.ptr loc, value] => (.int 0, mem.set loc value.toInt)
    | _ => (.int 0, mem)
  | atomicOp =>
    match args with
    | [.ptr loc, value] => (.int (mem loc), mem.set loc (c.atomic (mem loc) value.toInt))
    | _ => (.int 0, mem)
  | loopIndex loop => (.int (index loop), mem)
  | whileControl => (.int 0, mem)

def Code.stops (args : List Word) : Code → Bool
  | whileControl => args.all fun arg => arg.toInt = 0
  | _ => false

namespace State

def index (s : State) (loop : ℕ) : ℤ :=
  (s.env loop).toInt

def define (s : State) (id : ℕ) (word : Word) : State :=
  { s with env := fun id' => if id' = id then word else s.env id' }

def finish (s : State) (id : ℕ) (code : Code) (args : List Word) (result : Word × Memory) :
    State where
  env := (s.define id result.1).env
  mem := result.2
  log := s.log ++ [(id, args.map Word.observed)]
  stopped := code.stops args

def enter (s : State) : State where
  env := fun _ => .int 0
  mem := fun loc =>
    match loc with
    | .stack _ _ | .fresh => 0
    | loc => s.mem loc
  log := s.log
  stopped := s.stopped

end State

def Instr.exec (instr : Instr) (s : State) : State :=
  let args := instr.operands.map s.env
  s.finish instr.id instr.code args
    (instr.code.run c (.stack instr.id 0) s.index args s.mem)

def rootMachine : Machine State Instr ℕ where
  leaf := Instr.exec c
  read := fun id s => ((s.env id).toInt, s)
  index := fun loop k s => s.define loop (.int k)
  stopped := State.stopped
  resume := fun s => { s with stopped := false }

mutual

def Arg.eval (s : State) : Arg → Memory → Word × Memory
  | .ref id, mem => (s.env id, mem)
  | .tmpPtr slot, mem => (.ptr (.tmp slot 0), mem)
  | .tmpLoad slot, mem => (.int (mem (.tmp slot 0)), mem)
  | .clone code args, mem =>
    code.run c .fresh s.index (evalArgs s args mem).1 (evalArgs s args mem).2

def evalArgs (s : State) : List Arg → Memory → List Word × Memory
  | [], mem => ([], mem)
  | arg :: args, mem =>
    ((arg.eval s mem).1 :: (evalArgs s args (arg.eval s mem).2).1,
      (evalArgs s args (arg.eval s mem).2).2)

end

def FixedInstr.exec (s : State) : FixedInstr → State
  | slot id => s.finish id .alloca [] (.ptr (.tmp id 0), s.mem.zero (.tmp id 0))
  | instr id code args stored =>
    let operands := evalArgs c s args s.mem
    let result := code.run c (.stack id 0) s.index operands.1 operands.2
    s.finish id code operands.1
      (result.1, if stored then result.2.set (.tmp id 0) result.1.toInt else result.2)

def taskMachine : Machine State FixedInstr Arg where
  leaf := fun instr s => instr.exec c s
  read := fun arg s => ((arg.eval c s s.mem).1.toInt, { s with mem := (arg.eval c s s.mem).2 })
  index := fun loop k s => s.define loop (.int k)
  stopped := State.stopped
  resume := fun s => { s with stopped := false }

def start (mem : Memory) : State :=
  State.enter ⟨fun _ => .int 0, mem, [], false⟩

def runRoot (root : List RootStmt) (mem : Memory) : State :=
  execBlock (rootMachine c) c.rounds (root.map RootStmt.stmt) (start mem)

def runOffloaded (root : List RootStmt) (mem : Memory) : State :=
  (offload root).foldl (fun s task => execBlock (taskMachine c) c.rounds task s.enter) (start mem)

end Run

end Quadrants.CrossTask

/-!
Well-formed kernels, the static owner of what a pointer points to, and the operands that give their
value again when they are cloned into a later task.
-/

namespace Quadrants.CrossTask

open Library.StructuredRuns

def ownerOf (table : Defs) (id : ℕ) : Option Owner :=
  match codeOf table (squash table id) with
  | some (.globalPtr field _) => some (.space (.field field))
  | some (.externalPtr arg) => some (.space (.external arg))
  | some .alloca => some (.alloca (squash table id))
  | _ => none

def Instr.writes (table : Defs) (instr : Instr) : List (Option Owner) :=
  match instr.code with
  | .localStore | .globalStore | .atomicOp => (instr.operands.take 1).map (ownerOf table)
  | .alloca => [some (.alloca instr.id)]
  | _ => []

def tableOf (root : List RootStmt) : Defs :=
  (blockLeaves (root.map RootStmt.stmt)).reverse

def after (id : ℕ) : Block → Block
  | [] => []
  | .leaf instr :: rest => if instr.id = id then rest else after id rest
  | _ :: rest => after id rest

def notWrittenAfter (root : List RootStmt) (instr : Instr) : Bool :=
  (blockLeaves (after instr.id (root.map RootStmt.stmt))).all fun later =>
    (later.writes (tableOf root)).all fun owner =>
      instr.operands.all fun pointer => ownerOf (tableOf root) pointer ≠ owner

/-- Statements that a clone repeats: those without an effect that do not depend on memory, and the
loads of what is not written any more. -/
def Instr.isRepeatable (kept : Instr → Bool) (instr : Instr) : Bool :=
  match instr.code with
  | .const _ | .argLoad _ | .arith _ | .matrixPtr | .globalPtr _ _ | .externalPtr _ => true
  | .localLoad | .globalLoad => kept instr
  | _ => false

/-- The operand has its value again in a later task: it is in a slot, or it is cloned and its clone
only repeats statements. -/
def recomputes (promoted : List ℕ) (kept : Instr → Bool) : Defs → ℕ → Bool
  | [], _ => false
  | instr :: defs, id =>
    if instr.id = id then
      if isCloned promoted instr then
        instr.isRepeatable kept && instr.operands.all (recomputes promoted kept defs)
      else instr.code = .alloca || !instr.code.isPointer
    else recomputes promoted kept defs id

def pointersRecompute (promoted : List ℕ) (kept : Instr → Bool) : Defs → List Block → Bool
  | _, [] => true
  | defs, task :: rest =>
    ((usesOf task).all fun id =>
      id ∈ idsOf task || !(codeOf defs id).any Code.isPointer ||
        recomputes promoted kept defs id) &&
    pointersRecompute promoted kept (addDefs defs task) rest

def Recomputable (root : List RootStmt) : Prop :=
  pointersRecompute (promotedOf root) (notWrittenAfter root) [] (offloaderRun {} root) = true

instance (root : List RootStmt) : Decidable (Recomputable root) :=
  inferInstanceAs (Decidable (_ = true))

def isOrdered : Defs → Bool
  | [] => true
  | instr :: defs => instr.operands.all (fun id => id ∈ defs.map Instr.id) && isOrdered defs

/-- A statement uses statements of the root block before it and, where it is a container, its
own. -/
def isScoped : Defs → Block → Bool
  | _, [] => true
  | defs, stmt :: rest =>
    (usesOf [stmt]).all (fun id => id ∈ defs.map Instr.id || id ∈ stmt.leaves.map Instr.id) &&
    stmt.leaves.all (fun instr =>
      match instr.code with
      | .loopIndex loop => loop ∈ stmt.loops
      | .alloca | .const _ => instr.operands.isEmpty
      | _ => true) &&
    isScoped (addDefs defs [stmt]) rest

structure WellFormed (root : List RootStmt) : Prop where
  nodup : (idsOf (root.map RootStmt.stmt)).Nodup
  ordered : isOrdered (tableOf root) = true
  inScope : isScoped [] (root.map RootStmt.stmt) = true

end Quadrants.CrossTask
