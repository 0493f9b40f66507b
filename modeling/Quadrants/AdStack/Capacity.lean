import Quadrants.Cfg.Builder
import Quadrants.Library.Tarjan
import Mathlib.Data.List.Sort

/-!
`ControlFlowGraph::determine_ad_stack_size`: the longest-path computation on the
control-flow graph that gives adaptive AD-stacks their size.

An AD-stack is named by its alloca; its `max_size` is a function beside the graph,
with 0 for the adaptive ones.
-/

namespace Quadrants.AdStack.Capacity

open Quadrants.Library
open Quadrants.Library.Tarjan (State tarjan)
open Quadrants.Cfg

inductive StackStmt
  | alloca (stack : Nat)
  | push (stack : Nat)
  | pop (stack : Nat)
  | other
  deriving DecidableEq

def count (stack : Nat) (sizes : Int × Int) : StackStmt → Int × Int
  | .push s =>
    if s = stack then
      (sizes.1 + 1, if sizes.1 + 1 > sizes.2 then sizes.1 + 1 else sizes.2)
    else sizes
  | .pop s => if s = stack then (sizes.1 - 1, sizes.2) else sizes
  | _ => sizes

def increasedSize (g : Graph StackStmt) (stack : Nat) (u : Nat) : Int :=
  ((g.stmts u).foldl (count stack) (0, 0)).1

def maxIncreasedSize (g : Graph StackStmt) (stack : Nat) (u : Nat) : Int :=
  ((g.stmts u).foldl (count stack) (0, 0)).2

section Edges

variable (next : Nat → List Nat) (scc : State)

def intraFwd (u : Nat) : List Nat :=
  (next u).filter fun v => decide (scc.sccId v = scc.sccId u) && decide (scc.finish v < scc.finish u)

def intraBack (u : Nat) : List Nat :=
  (next u).filter fun v => decide (scc.sccId v = scc.sccId u) && !decide (scc.finish v < scc.finish u)

def inter (u : Nat) : List Nat := (next u).filter fun v => !decide (scc.sccId v = scc.sccId u)

def isCyclic (nodes : List Nat) : Bool :=
  match nodes with
  | [] => false
  | n :: rest => !rest.isEmpty || (intraBack next scc n).any fun v => v == n

def topo (nodes : List Nat) : List Nat :=
  nodes.insertionSort fun a b => scc.finish b ≤ scc.finish a

end Edges

section DynamicProgram

def relax (exitVal : Int) (begin' : Nat → Int) (v : Nat) : Nat → Int :=
  if exitVal > begin' v then Function.update begin' v exitVal else begin'

variable (inc : Nat → Int)

def sweep (succ : Nat → List Nat) (nodes : List Nat) (begin' : Nat → Int) : Nat → Int :=
  nodes.foldl
    (fun b u => if b u < 0 then b else (succ u).foldl (relax (b u + inc u)) b) begin'

def minIs (nodes : List Nat) : Int :=
  nodes.foldl (fun m u => if inc u < m then inc u else m) 2147483647

def maxIs (nodes : List Nat) : Int :=
  nodes.foldl (fun m u => if inc u > m then inc u else m) (-2147483648)

def spread (nodes : List Nat) (begin' : Nat → Int) : Nat → Int :=
  let maxBegin := nodes.foldl (fun m u => if begin' u > m then begin' u else m) (-1)
  if 0 ≤ maxBegin then
    nodes.foldl (fun b u => if b u < maxBegin then Function.update b u maxBegin else b) begin'
  else begin'

variable (next : Nat → List Nat) (scc : State)

def backEdgeGains (nodes : List Nat) (begin' : Nat → Int) : Bool :=
  nodes.any fun u => decide (0 ≤ begin' u) &&
    (intraBack next scc u).any fun v => decide (begin' u + inc u > begin' v)

def settleCyclic (nodes : List Nat) (begin' : Nat → Int) : Option (Nat → Int) :=
  if 0 ≤ minIs inc nodes ∧ 0 < maxIs inc nodes then none
  else if minIs inc nodes = 0 ∧ maxIs inc nodes = 0 then some (spread nodes begin')
  else
    let begin' := sweep inc (intraFwd next scc) (topo scc nodes) begin'
    if backEdgeGains inc next scc nodes begin' then none else some begin'

structure Progress where
  maxSizeAtNodeBegin : Nat → Int
  maxSize : Int

variable (peak : Nat → Int)

def leaveNode (p : Progress) (u : Nat) : Progress :=
  let begin' := p.maxSizeAtNodeBegin u
  if begin' < 0 then p
  else
    { maxSize := if begin' + peak u > p.maxSize then begin' + peak u else p.maxSize
      maxSizeAtNodeBegin :=
        (inter next scc u).foldl (relax (begin' + inc u)) p.maxSizeAtNodeBegin }

def visitComponent (nodes : List Nat) (p : Progress) : Option Progress :=
  let settled :=
    if isCyclic next scc nodes then settleCyclic inc next scc nodes p.maxSizeAtNodeBegin
    else some p.maxSizeAtNodeBegin
  settled.map fun begin' =>
    nodes.foldl (leaveNode inc next scc peak) { p with maxSizeAtNodeBegin := begin' }

def entry : Progress where
  maxSizeAtNodeBegin := Function.update (fun _ => -1) 0 0
  maxSize := 0

def longestWalk (components : List (List Nat)) : Option Progress :=
  components.foldr (fun nodes p => p.bind (visitComponent inc next scc peak nodes)) (some entry)

end DynamicProgram

def dpResult (g : Graph StackStmt) (stack : Nat) : Option Int :=
  let scc := tarjan g.next g.size
  (longestWalk (increasedSize g stack) g.next scc (maxIncreasedSize g stack) scc.components).map
    Progress.maxSize

section Stacks

variable (g : Graph StackStmt)

def statements : List StackStmt := g.nodes.flatMap Node.stmts

def adaptiveStacks (maxSize : Nat → Nat) : List Nat :=
  (statements g).foldl
    (fun found stmt =>
      match stmt with
      | .alloca s => if maxSize s ≠ 0 then found else if s ∈ found then found else found ++ [s]
      | _ => found) []

def stackActive (stack : Nat) : Bool :=
  (statements g).any fun stmt => decide (stmt = .push stack ∨ stmt = .pop stack)

def allAllocated (maxSize : Nat → Nat) : Bool :=
  (statements g).all fun stmt =>
    match stmt with
    | .push s | .pop s => decide (maxSize s ≠ 0 ∨ s ∈ adaptiveStacks g maxSize)
    | _ => true

abbrev Fingerprint := List (Nat × Int × Int)

def fingerprint (stack : Nat) : Fingerprint :=
  (List.range g.size).filterMap fun u =>
    if increasedSize g stack u ≠ 0 ∨ maxIncreasedSize g stack u ≠ 0 then
      some (u, increasedSize g stack u, maxIncreasedSize g stack u)
    else none

def representatives (found : List Nat) : List (Fingerprint × Nat) :=
  found.foldl
    (fun reps s =>
      if stackActive g s = true ∧ (reps.lookup (fingerprint g s)).isNone = true then
        reps ++ [(fingerprint g s, s)]
      else reps) []

inductive Outcome
  | unused
  | positiveLoop
  | sized (maxSize : Int)
  deriving DecidableEq

def outcome (repResults : List (Fingerprint × Option Int)) (stack : Nat) : Outcome :=
  if stackActive g stack then
    match repResults.lookup (fingerprint g stack) with
    | some (some m) => .sized m
    | _ => .positiveLoop
  else .unused

def determineAdStackSize (maxSize : Nat → Nat) : Option (List (Nat × Outcome)) :=
  if allAllocated g maxSize then
    let found := adaptiveStacks g maxSize
    let repResults := (representatives g found).map fun r => (r.1, dpResult g r.2)
    some (found.map fun s => (s, outcome g repResults s))
  else none

def assignSizes (maxSize : Nat → Nat) (outcomes : List (Nat × Outcome)) : Nat → Nat :=
  outcomes.foldl
    (fun sizes o =>
      match o.2 with
      | .sized m => Function.update sizes o.1 m.toNat
      | _ => sizes) maxSize

end Stacks

end Quadrants.AdStack.Capacity
