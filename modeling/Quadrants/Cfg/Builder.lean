import Mathlib.Data.List.Basic
import Mathlib.Tactic.Common

/-!
Structured programs and the control-flow graph that `CFGBuilder` makes of them.

Statements without a body are a parameter `σ`, the operands of control statements a
parameter `κ`; the builder looks at neither.  Container statements, `continue` and
`while_control` belong to no node.
-/

namespace Quadrants.Cfg

mutual

inductive Stmt (σ κ : Type) : Type
  | simple (s : σ)
  | ifStmt (cond : κ) (trueStatements falseStatements : Branch σ κ)
  | whileStmt (body : Block σ κ)
  /-- Range-for, struct-for and mesh-for. -/
  | forStmt (range : κ) (body : Block σ κ)
  | continueStmt
  | whileControl (cond : κ)

inductive Block (σ κ : Type) : Type
  | nil
  | cons (s : Stmt σ κ) (rest : Block σ κ)

inductive Branch (σ κ : Type) : Type
  | absent
  | present (b : Block σ κ)

end

inductive TopStmt (σ κ : Type) : Type
  | stmt (s : Stmt σ κ)
  | offloaded (parallelFor : Bool)
      (tlsPrologue meshPrologue blsPrologue body blsEpilogue tlsEpilogue : Branch σ κ)

structure Node (σ : Type) where
  stmts : List σ
  isParallelExecuted : Bool

/-- `edges` in the order of the `add_edge` calls.  `pending` are the statements of the
current block since the last node. -/
structure Builder (σ : Type) where
  nodes : List (Node σ)
  edges : List (Nat × Nat)
  prevNodes : List Nat
  continuesInCurrentLoop : List Nat
  breaksInCurrentLoop : List Nat
  pending : List σ
  inOffload : Bool
  inParallelFor : Bool

namespace Builder

variable {σ κ : Type}

def start : Builder σ where
  nodes := [⟨[], false⟩]
  edges := []
  prevNodes := [0]
  continuesInCurrentLoop := []
  breaksInCurrentLoop := []
  pending := []
  inOffload := false
  inParallelFor := false

def size (b : Builder σ) : Nat := b.nodes.length

def back (b : Builder σ) : Nat := b.size - 1

def addEdge (b : Builder σ) (u v : Nat) : Builder σ := { b with edges := b.edges ++ [(u, v)] }

def addEdges (b : Builder σ) (us : List Nat) (v : Nat) : Builder σ :=
  { b with edges := b.edges ++ us.map fun u => (u, v) }

def pushPrev (b : Builder σ) (us : List Nat) : Builder σ :=
  { b with prevNodes := b.prevNodes ++ us }

def newNode (b : Builder σ) : Builder σ :=
  { b.addEdges b.prevNodes b.size with
    nodes := b.nodes ++ [⟨b.pending, b.inParallelFor⟩]
    prevNodes := []
    pending := [] }

def enterLoop (b : Builder σ) (parallel : Bool) : Builder σ :=
  { b with
    continuesInCurrentLoop := []
    breaksInCurrentLoop := []
    inParallelFor := b.inParallelFor || parallel }

def exitLoop (outer b : Builder σ) (isWhileTrue : Bool) : Builder σ :=
  let beforeLoop := outer.back
  let loopBegin := outer.size
  let loopEnd := b.back
  let b := (b.addEdge beforeLoop loopBegin).addEdge loopEnd loopBegin
  let b := if isWhileTrue then b else b.pushPrev [beforeLoop, loopEnd]
  let b := (b.addEdges b.continuesInCurrentLoop loopBegin).pushPrev b.continuesInCurrentLoop
  { b.pushPrev b.breaksInCurrentLoop with
    continuesInCurrentLoop := outer.continuesInCurrentLoop
    breaksInCurrentLoop := outer.breaksInCurrentLoop
    inParallelFor := outer.inParallelFor }

def afterIf (beforeIf : Nat) : Option Nat → Option Nat → List Nat
  | some trueEnd, some falseEnd => [trueEnd, falseEnd]
  | some trueEnd, none => [trueEnd, beforeIf]
  | none, some falseEnd => [falseEnd, beforeIf]
  | none, none => [beforeIf]

mutual

def visitStmt : Stmt σ κ → Builder σ → Builder σ
  | .simple s, b => { b with pending := b.pending ++ [s] }
  | .continueStmt, b =>
    let b := b.newNode
    { b with continuesInCurrentLoop := b.continuesInCurrentLoop ++ [b.back] }
  | .whileControl _, b =>
    let b := b.newNode
    { b.pushPrev [b.back] with breaksInCurrentLoop := b.breaksInCurrentLoop ++ [b.back] }
  | .ifStmt _ t f, b =>
    let beforeIf := b.newNode
    let (b, trueEnd) := visitBranch t beforeIf.back beforeIf
    let (b, falseEnd) := visitBranch f beforeIf.back b
    b.pushPrev (afterIf beforeIf.back trueEnd falseEnd)
  | .whileStmt body, b =>
    let outer := b.newNode
    exitLoop outer (visitBlock body (outer.enterLoop false)) true
  | .forStmt _ body, b =>
    let outer := b.newNode
    exitLoop outer (visitBlock body (outer.enterLoop (!b.inOffload))) false

def visitBlock : Block σ κ → Builder σ → Builder σ
  | .nil, b => b.newNode
  | .cons s rest, b => visitBlock rest (visitStmt s b)

def visitBranch : Branch σ κ → Nat → Builder σ → Builder σ × Option Nat
  | .absent, _, b => (b, none)
  | .present blk, before, b =>
    let b' := visitBlock blk b
    (b'.addEdge before b.size, some b'.back)

end

def visitSection : Branch σ κ → Builder σ → Builder σ
  | .absent, b => b
  | .present blk, b =>
    let before := b.newNode
    let b := visitBlock blk before
    (b.pushPrev [b.back]).addEdge before.back before.size

def visitBody (parallelFor : Bool) : Branch σ κ → Builder σ → Builder σ
  | .absent, b => b
  | .present blk, b =>
    let before := b.newNode
    let b := visitBlock blk { before with inParallelFor := before.inParallelFor || parallelFor }
    let b := (b.addEdges b.continuesInCurrentLoop before.size).pushPrev b.continuesInCurrentLoop
    ({ b with inParallelFor := false }.pushPrev [b.back]).addEdge before.back before.size

def visitTop (b : Builder σ) : TopStmt σ κ → Builder σ
  | .stmt s => visitStmt s b
  | .offloaded parallelFor tlsPrologue meshPrologue blsPrologue body blsEpilogue tlsEpilogue =>
    let b := { b with inOffload := true }
    let b := visitSection blsPrologue (visitSection meshPrologue (visitSection tlsPrologue b))
    let b := visitBody parallelFor body b
    let b := visitSection tlsEpilogue (visitSection blsEpilogue b)
    { b with inOffload := false }

end Builder

structure Graph (σ : Type) where
  nodes : List (Node σ)
  edges : List (Nat × Nat)
  finalNode : Nat

namespace Graph

variable {σ κ : Type}

def size (g : Graph σ) : Nat := g.nodes.length

def next (g : Graph σ) (u : Nat) : List Nat :=
  g.edges.filterMap fun e => if e.1 = u then some e.2 else none

def stmts (g : Graph σ) (u : Nat) : List σ :=
  match g.nodes[u]? with
  | some node => node.stmts
  | none => []

def build (root : List (TopStmt σ κ)) : Graph σ :=
  let b := (root.foldl Builder.visitTop Builder.start).newNode
  let g : Graph σ := ⟨b.nodes, b.edges, b.back⟩
  if (g.stmts g.finalNode).isEmpty then g
  else ⟨g.nodes ++ [⟨[], false⟩], g.edges ++ [(g.finalNode, g.size)], g.size⟩

end Graph

end Quadrants.Cfg
