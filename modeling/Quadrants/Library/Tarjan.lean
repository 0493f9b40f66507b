import Mathlib.Algebra.BigOperators.Group.List.Basic
import Mathlib.Algebra.GroupWithZero.Nat
import Mathlib.Data.List.Basic
import Mathlib.Logic.Function.Basic
import Mathlib.Logic.Relation
import Mathlib.Tactic.Common

/-!
Strongly connected components by Tarjan's algorithm, with an explicit stack of
frames and with the post-order index of every node.

The graph is given by the successors of every node below `n`.  As usual `-1`
marks a node without an index, a component or a post-order index.
-/

namespace Quadrants.Library.Tarjan

/-- `stack` and `frames` have their top first; a frame is a node and the position
of its next successor. -/
structure State where
  index : Nat → Int
  lowlink : Nat → Int
  onStack : Nat → Bool
  stack : List Nat
  frames : List (Nat × Nat)
  sccId : Nat → Int
  finish : Nat → Int
  components : List (List Nat)
  nextIndex : Int
  nextFinish : Int

def initial : State where
  index := fun _ => -1
  lowlink := fun _ => 0
  onStack := fun _ => false
  stack := []
  frames := []
  sccId := fun _ => -1
  finish := fun _ => -1
  components := []
  nextIndex := 0
  nextFinish := 0

def discover (st : State) (v : Nat) : State :=
  { st with
    index := Function.update st.index v st.nextIndex
    lowlink := Function.update st.lowlink v st.nextIndex
    onStack := Function.update st.onStack v true
    stack := v :: st.stack
    frames := (v, 0) :: st.frames
    nextIndex := st.nextIndex + 1 }

def popUntil (u : Nat) : List Nat → List Nat × List Nat
  | [] => ([], [])
  | w :: rest => if w = u then ([w], rest) else (w :: (popUntil u rest).1, (popUntil u rest).2)

def popComponent (st : State) (u : Nat) : State :=
  let component := (popUntil u st.stack).1
  { st with
    stack := (popUntil u st.stack).2
    onStack := fun w => if w ∈ component then false else st.onStack w
    sccId := fun w => if w ∈ component then st.components.length else st.sccId w
    components := st.components ++ [component] }

def lower (st : State) (u : Nat) (low : Int) : State :=
  if low < st.lowlink u then { st with lowlink := Function.update st.lowlink u low } else st

def retire (st : State) (u : Nat) : State :=
  { st with
    finish := Function.update st.finish u st.nextFinish
    frames := st.frames.tail
    nextFinish := st.nextFinish + 1 }

def leave (st : State) (u : Nat) : State :=
  match st.frames.tail with
  | [] => retire st u
  | (parent, _) :: _ => lower (retire st u) parent (st.lowlink u)

section Algorithm

variable (next : Nat → List Nat)

def step (st : State) : State :=
  match st.frames with
  | [] => st
  | (u, k) :: rest =>
    match (next u)[k]? with
    | some v =>
      let st := { st with frames := (u, k + 1) :: rest }
      if st.index v = -1 then discover st v
      else if st.onStack v = true then lower st u (st.index v)
      else st
    | none => leave (if st.lowlink u = st.index u then popComponent st u else st) u

def runFrames : Nat → State → State
  | 0, st => st
  | fuel + 1, st =>
    match st.frames with
    | [] => st
    | _ :: _ => runFrames fuel (step next st)

def stepBound (n : Nat) : Nat := ((List.range n).map fun u => (next u).length + 1).sum

def visitOrigin (n : Nat) (st : State) (origin : Nat) : State :=
  if st.index origin = -1 then runFrames next (stepBound next n) (discover st origin) else st

def tarjan (n : Nat) : State := (List.range n).foldl (visitOrigin next n) initial

end Algorithm

end Quadrants.Library.Tarjan
