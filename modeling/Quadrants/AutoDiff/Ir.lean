import Mathlib.Algebra.Ring.Basic
import Mathlib.Logic.Function.Basic
import Mathlib.Tactic.Common

/-!
The scalar kernel IR that the automatic-differentiation passes work on, and its
execution.

A body has real constants in `R`; its execution is generic in the type `α` of
real values, so that it can be run over `R` itself and over the dual numbers of
`R`.  A statement is referred to by its
name, together with what the passes ask of it: whether its type is real and
whether it is a `ConstStmt`.  Loops over a range always end, so execution is a
total function.
-/

namespace Quadrants.AutoDiff.Ir

inductive Ty
  | real
  | int
deriving DecidableEq, Repr

structure Ref where
  name : Nat
  ty : Ty
  isConst : Bool := false
deriving DecidableEq, Repr

inductive ArithOp
  | add
  | sub
  | mul
  | min
  | max
deriving DecidableEq, Repr

inductive CmpOp
  | lt
  | le
  | gt
  | ge
  | eq
  | ne
deriving DecidableEq, Repr

structure GlobalPtr where
  snode : Nat
  isDual : Bool := false
  ty : Ty
  indices : List Ref
deriving DecidableEq, Repr

mutual

/-- `binary`, `compare` and `intBinary` are the `BinaryOpStmt`s: those with a
derivative, the comparisons, and the integer operators without a derivative. -/
inductive Stmt (R : Type)
  | constReal (x : Ref) (c : R)
  | constInt (x : Ref) (n : Int)
  | neg (x a : Ref)
  | castValue (x a : Ref)
  | logicNot (x a : Ref)
  | binary (x : Ref) (op : ArithOp) (a b : Ref)
  | compare (x : Ref) (op : CmpOp) (a b : Ref)
  | intBinary (x : Ref) (f : Int → Int → Int) (a b : Ref)
  | select (x c a b : Ref)
  | alloca (x : Ref)
  | localLoad (x src : Ref)
  | localStore (dest val : Ref)
  | globalLoad (x : Ref) (src : GlobalPtr)
  | globalStore (dest : GlobalPtr) (val : Ref)
  | atomicAdd (x : Ref) (dest : GlobalPtr) (val : Ref)
  | ifStmt (cond : Ref) (trueStatements falseStatements : Block R)
  | rangeFor (index begin' end' : Ref) (body : Block R)

inductive Block (R : Type)
  | nil
  | cons (s : Stmt R) (rest : Block R)

end

def Block.append {R : Type} : Block R → Block R → Block R
  | .nil, b => b
  | .cons s rest, b => .cons s (rest.append b)

def Block.ofList {R : Type} : List (Stmt R) → Block R
  | [] => .nil
  | s :: rest => .cons s (Block.ofList rest)

structure Write where
  isStore : Bool
  snode : Nat
  index : List Int
deriving DecidableEq, Repr

/-- Values of statements, contents of locals, contents of fields, and the writes
made to real fields so far. -/
structure State (α : Type) where
  reals : Nat → α
  ints : Nat → Int
  realVars : Nat → α
  intVars : Nat → Int
  realCells : Nat → Bool → List Int → α
  intCells : Nat → List Int → Int
  writes : List Write

section Execution

variable {R α : Type} [Ring α] (lift : R → α) (lt : α → α → Bool)

def State.setReal (s : State α) (x : Nat) (v : α) : State α :=
  { s with reals := Function.update s.reals x v }

def State.setInt (s : State α) (x : Nat) (v : Int) : State α :=
  { s with ints := Function.update s.ints x v }

def State.setRealVar (s : State α) (x : Nat) (v : α) : State α :=
  { s with realVars := Function.update s.realVars x v }

def State.setIntVar (s : State α) (x : Nat) (v : Int) : State α :=
  { s with intVars := Function.update s.intVars x v }

def updateCell (cells : Nat → Bool → List Int → α) (snode : Nat) (isDual : Bool)
    (index : List Int) (v : α) : Nat → Bool → List Int → α :=
  fun n d i => if n = snode ∧ d = isDual ∧ i = index then v else cells n d i

def State.index (s : State α) (ptr : GlobalPtr) : List Int :=
  ptr.indices.map fun r => s.ints r.name

def State.cell (s : State α) (ptr : GlobalPtr) : α :=
  s.realCells ptr.snode ptr.isDual (s.index ptr)

def State.setCell (s : State α) (isStore : Bool) (ptr : GlobalPtr) (v : α) : State α :=
  { s with
    realCells := updateCell s.realCells ptr.snode ptr.isDual (s.index ptr) v
    writes :=
      if ptr.isDual then s.writes else s.writes ++ [⟨isStore, ptr.snode, s.index ptr⟩] }

def State.setIntCell (s : State α) (ptr : GlobalPtr) (v : Int) : State α :=
  { s with
    intCells := fun n i =>
      if n = ptr.snode ∧ i = s.index ptr then v else s.intCells n i }

/-- `min` and `max` as the derivative rules read them: the first operand only if
it is strictly smaller, or larger. -/
def evalArith (op : ArithOp) (a b : α) : α :=
  match op with
  | .add => a + b
  | .sub => a - b
  | .mul => a * b
  | .min => if lt a b then a else b
  | .max => if lt b a then a else b

def evalIntArith (op : ArithOp) (a b : Int) : Int :=
  match op with
  | .add => a + b
  | .sub => a - b
  | .mul => a * b
  | .min => if a < b then a else b
  | .max => if b < a then a else b

def evalCmp {β : Type} (lt : β → β → Bool) (op : CmpOp) (a b : β) : Bool :=
  match op with
  | .lt => lt a b
  | .le => !lt b a
  | .gt => lt b a
  | .ge => !lt a b
  | .eq => !lt a b && !lt b a
  | .ne => lt a b || lt b a

def boolInt (b : Bool) : Int := if b then 1 else 0

def repeatRange {σ : Type} (body : Int → σ → σ) : Nat → Int → σ → σ
  | 0, _, s => s
  | count + 1, i, s => repeatRange body count (i + 1) (body i s)

mutual

def execStmt (s : State α) : Stmt R → State α
  | .constReal x c => s.setReal x.name (lift c)
  | .constInt x n => s.setInt x.name n
  | .neg x a =>
    match x.ty with
    | .real => s.setReal x.name (-s.reals a.name)
    | .int => s.setInt x.name (-s.ints a.name)
  | .castValue x a =>
    match a.ty with
    | .real => s.setReal x.name (s.reals a.name)
    | .int => s.setReal x.name (s.ints a.name : α)
  | .logicNot x a => s.setInt x.name (boolInt (s.ints a.name == 0))
  | .binary x op a b =>
    match x.ty with
    | .real => s.setReal x.name (evalArith lt op (s.reals a.name) (s.reals b.name))
    | .int => s.setInt x.name (evalIntArith op (s.ints a.name) (s.ints b.name))
  | .compare x op a b =>
    match a.ty with
    | .real => s.setInt x.name (boolInt (evalCmp lt op (s.reals a.name) (s.reals b.name)))
    | .int =>
      s.setInt x.name
        (boolInt (evalCmp (fun m n => decide (m < n)) op (s.ints a.name) (s.ints b.name)))
  | .intBinary x f a b => s.setInt x.name (f (s.ints a.name) (s.ints b.name))
  | .select x c a b =>
    match x.ty with
    | .real =>
      s.setReal x.name (if s.ints c.name ≠ 0 then s.reals a.name else s.reals b.name)
    | .int =>
      s.setInt x.name (if s.ints c.name ≠ 0 then s.ints a.name else s.ints b.name)
  -- an alloca is cleared whenever it is executed
  | .alloca x =>
    match x.ty with
    | .real => s.setRealVar x.name 0
    | .int => s.setIntVar x.name 0
  | .localLoad x src =>
    match x.ty with
    | .real => s.setReal x.name (s.realVars src.name)
    | .int => s.setInt x.name (s.intVars src.name)
  | .localStore dest val =>
    match dest.ty with
    | .real => s.setRealVar dest.name (s.reals val.name)
    | .int => s.setIntVar dest.name (s.ints val.name)
  | .globalLoad x src =>
    match src.ty with
    | .real => s.setReal x.name (s.cell src)
    | .int => s.setInt x.name (s.intCells src.snode (s.index src))
  | .globalStore dest val =>
    match dest.ty with
    | .real => s.setCell true dest (s.reals val.name)
    | .int => s.setIntCell dest (s.ints val.name)
  -- the value of an atomic is the old content
  | .atomicAdd x dest val =>
    match dest.ty with
    | .real =>
      (s.setCell false dest (s.cell dest + s.reals val.name)).setReal x.name (s.cell dest)
    | .int =>
      (s.setIntCell dest (s.intCells dest.snode (s.index dest) + s.ints val.name)).setInt
        x.name (s.intCells dest.snode (s.index dest))
  | .ifStmt cond trueStatements falseStatements =>
    if s.ints cond.name ≠ 0 then execBlock s trueStatements
    else execBlock s falseStatements
  | .rangeFor index begin' end' body =>
    repeatRange (fun i s => execBlock (s.setInt index.name i) body)
      (s.ints end'.name - s.ints begin'.name).toNat (s.ints begin'.name) s

def execBlock (s : State α) : Block R → State α
  | .nil => s
  | .cons stmt rest => execBlock (execStmt s stmt) rest

end

end Execution

end Quadrants.AutoDiff.Ir
