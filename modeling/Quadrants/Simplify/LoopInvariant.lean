import Quadrants.Library.SsaBlocks
import Mathlib.Algebra.Order.Group.Nat

/-!
`loop_invariant_code_motion.cpp`. The parts of a task are blocks, with the loop of the task as a
loop statement. The changes of one visit are made at its end, so a statement is moved out of one
loop in each round.
-/

namespace Quadrants.Simplify.LoopInvariant

open Library.TracedLoops Library.SsaBlocks

/-- The classes of statements that the pass tells apart, with their other fields. -/
inductive Kind (C : Type) where
  | binaryOp (op : C)
  | unaryOp (op : C)
  | globalPtr (fields : C)
  | externalPtr (fields : C)
  | argLoad (arg : C)
  | other (fields : C)

structure CompileConfig where
  moveLoopInvariantOutsideIf : Bool
  cacheLoopInvariantGlobalVars : Bool

section Pass

variable {S C : Type} [DecidableEq S] (config : CompileConfig)

def Kind.movable : Kind C → Bool
  | binaryOp _ | unaryOp _ => true
  | globalPtr _ | externalPtr _ | argLoad _ => config.cacheLoopInvariantGlobalVars
  | other _ => false

/-- What leaves the loop and what stays, and the names of what leaves the loops inside. -/
structure Swept (S C : Type) where
  moved : List (Stmt S (Kind C))
  kept : List (Stmt S (Kind C))
  inner : List S

def Swept.append (first second : Swept S C) : Swept S C :=
  ⟨first.moved ++ second.moved, first.kept ++ second.kept, first.inner ++ second.inner⟩

mutual

/-- `depth` is `loop_blocks.size()`. An operand must not be among `blocked`: those are the
statements of the current scope, and in an `if` all statements of the loop. There are none where
nothing can be moved. -/
def sweepStmt (depth : ℕ) (blocked nested : Option (List S)) : Stmt S (Kind C) → Swept S C
  | .plain name kind operands =>
    match blocked with
    | none => ⟨[], [.plain name kind operands], []⟩
    | some names =>
      if kind.movable config && operands.all (· ∉ names) then
        ⟨[.plain name kind operands], [], []⟩
      else ⟨[], [.plain name kind operands], []⟩
  | .loopIndex name loop axis => ⟨[], [.loopIndex name loop axis], []⟩
  | .ifStmt name cond t f =>
    let t := sweepBlock depth nested nested t
    let f := sweepBlock depth nested nested f
    ⟨t.moved ++ f.moved, [.ifStmt name cond t.kept f.kept], t.inner ++ f.inner⟩
  | .loop name kind operands body =>
    let swept :=
      sweepBlock (depth + 1) (if 1 ≤ depth then some (directNames body) else none)
        (if 1 ≤ depth ∧ config.moveLoopInvariantOutsideIf then some (blockNames body) else none)
        body
    ⟨[], swept.moved ++ [.loop name kind operands swept.kept],
      swept.inner ++ directNames swept.moved⟩

def sweepBlock (depth : ℕ) (blocked nested : Option (List S)) : List (Stmt S (Kind C)) → Swept S C
  | [] => ⟨[], [], []⟩
  | stmt :: rest =>
    (sweepStmt depth blocked nested stmt).append (sweepBlock depth blocked nested rest)

end

mutual

def stmtDepths (depth : ℕ) : Stmt S (Kind C) → ℕ
  | .plain _ _ _ => depth
  | .loopIndex _ _ _ => 0
  | .ifStmt _ _ t f => blockDepths depth t + blockDepths depth f
  | .loop _ _ _ body => blockDepths (depth + 1) body

def blockDepths (depth : ℕ) : List (Stmt S (Kind C)) → ℕ
  | [] => 0
  | stmt :: rest => stmtDepths depth stmt + blockDepths depth rest

end

mutual

def stmtDeepNames (depth : ℕ) : Stmt S (Kind C) → List S
  | .plain name kind _ => if 2 ≤ depth ∧ kind.movable config then [name] else []
  | .loopIndex _ _ _ => []
  | .ifStmt _ _ t f => deepNames depth t ++ deepNames depth f
  | .loop _ _ _ body => deepNames (depth + 1) body

def deepNames (depth : ℕ) : List (Stmt S (Kind C)) → List S
  | [] => []
  | stmt :: rest => stmtDeepNames depth stmt ++ deepNames depth rest

end

def rounds : ℕ → List (Stmt S (Kind C)) → Option (List (Stmt S (Kind C)))
  | 0, _ => none
  | fuel + 1, block =>
    let swept := sweepBlock config 0 none none block
    if swept.inner.isEmpty then some swept.kept else rounds fuel swept.kept

def loopInvariantCodeMotion (block : List (Stmt S (Kind C))) : Option (List (Stmt S (Kind C))) :=
  rounds config (blockDepths 0 block + 1) block

end Pass

/-- What the statements do. Arithmetic, addresses and arguments do not depend on the memory. The
cell of an activating pointer is activated by the accesses to it, when these are lowered. -/
structure Semantics (C V M : Type) where
  binary : C → List V → V
  unary : C → List V → V
  globalPtr : C → List V → V
  externalPtr : C → List V → V
  argLoad : C → V
  other : C → List V → M → V × M × Signal
  test : V → Bool
  iterations : Kind C → List V → M → Option (List V)
  noIndex : V
  index : V → ℕ → V

namespace Semantics

variable {C V M : Type} (sem : Semantics C V M)

def exec : Kind C → List V → M → V × M × Signal
  | .binaryOp op, values, mem => (sem.binary op values, mem, .normal)
  | .unaryOp op, values, mem => (sem.unary op values, mem, .normal)
  | .globalPtr fields, values, mem => (sem.globalPtr fields values, mem, .normal)
  | .externalPtr fields, values, mem => (sem.externalPtr fields values, mem, .normal)
  | .argLoad arg, _, mem => (sem.argLoad arg, mem, .normal)
  | .other fields, values, mem => sem.other fields values mem

def machine : Machine (Kind C) V M where
  exec := sem.exec
  test := sem.test
  iterations := sem.iterations
  noIndex := sem.noIndex
  index := sem.index

end Semantics

end Quadrants.Simplify.LoopInvariant
