import Quadrants.Library.CallTrace
import Mathlib.Data.Int.Notation

namespace Quadrants.Graph

open Library.CallTrace

structure GraphDoWhileLevel where
  parentId : ℤ
  deriving DecidableEq, Repr

inductive Call where
  | launchTask (task : ℕ)
  | continueLevel (level : ℤ)
  deriving DecidableEq, Repr

inductive Fault where
  | outOfRange
  | endless
  deriving DecidableEq, Repr

abbrev Driver (α : Type) := Calls Call Fault α

def levelAt (levels : List GraphDoWhileLevel) (c : ℤ) : Driver GraphDoWhileLevel :=
  if c < 0 then Calls.fail .outOfRange
  else
    match levels[c.toNat]? with
    | some level => pure level
    | none => Calls.fail .outOfRange

def taskLevelAt (taskLevelIds : List ℤ) (i : ℕ) : Driver ℤ :=
  match taskLevelIds[i]? with
  | some level => pure level
  | none => Calls.fail .outOfRange

def isDescendantOrSelf (levels : List GraphDoWhileLevel) (ancestor : ℤ) : ℕ → ℤ → Driver Bool
  | steps, c =>
    if c = -1 then pure false
    else if c = ancestor then pure true
    else
      match steps with
      | 0 => Calls.fail .endless
      | steps + 1 => do
          let level ← levelAt levels c
          isDescendantOrSelf levels ancestor steps level.parentId

def childOf (levels : List GraphDoWhileLevel) (parentId : ℤ) : ℕ → ℤ → Driver ℤ
  | steps, c => do
      let level ← levelAt levels c
      if level.parentId = parentId then pure c
      else
        match steps with
        | 0 => Calls.fail .endless
        | steps + 1 => childOf levels parentId steps level.parentId

section ProcessLevel

variable (taskLevelIds : List ℤ) (levels : List GraphDoWhileLevel)

def findRunEnd (child : ℤ) (last : ℕ) : ℕ → ℕ → Driver ℕ
  | 0, runEnd => pure runEnd
  | steps + 1, runEnd => do
      if runEnd < last then
        let taskLevel ← taskLevelAt taskLevelIds runEnd
        if ← isDescendantOrSelf levels child levels.length taskLevel then
          findRunEnd child last steps (runEnd + 1)
        else pure runEnd
      else pure runEnd

/-- One pass over the tasks of a level. `processChild` handles the runs of tasks under deeper
levels. -/
def processTasks (processChild : ℤ → ℕ → ℕ → Driver Bool) (parentId : ℤ) (last : ℕ) :
    ℕ → ℕ → Driver Bool
  | steps, cursor =>
    if cursor < last then
      match steps with
      | 0 => Calls.fail .endless
      | steps + 1 => do
          let taskLevel ← taskLevelAt taskLevelIds cursor
          if taskLevel = parentId then
            if ← Calls.perform (.launchTask cursor) then
              processTasks processChild parentId last steps (cursor + 1)
            else pure false
          else
            let child ← childOf levels parentId levels.length taskLevel
            let runEnd ← findRunEnd taskLevelIds levels child last (last - cursor) cursor
            if ← processChild child cursor runEnd then
              processTasks processChild parentId last steps runEnd
            else pure false
    else pure true

def processLevel : ℕ → ℤ → ℕ → ℕ → Driver Bool
  | 0, _, _, _ => Calls.fail .endless
  | gas + 1, parentId, first, last => do
      if ← processTasks taskLevelIds levels (processLevel gas) parentId last (last - first) first then
        let keepGoing ←
          if 0 ≤ parentId then Calls.perform (.continueLevel parentId) else pure false
        if keepGoing then processLevel gas parentId first last
        else pure true
      else pure false

end ProcessLevel

def runGraphDoWhile (gas numTasks : ℕ) (taskLevelIds : List ℤ)
    (levels : List GraphDoWhileLevel) : Driver Bool :=
  processLevel taskLevelIds levels gas (-1) 0 numTasks

/-- A kernel body before it is flattened: tasks and do-while loops, each followed by the rest of
the body it stands in. -/
inductive Program where
  | done
  | task (rest : Program)
  | loop (level : ℕ) (body rest : Program)
  deriving DecidableEq, Repr

namespace Program

@[simp] def numTasks : Program → ℕ
  | done => 0
  | task rest => rest.numTasks + 1
  | loop _ body rest => body.numTasks + rest.numTasks

@[simp] def taskLevelIds : Program → ℤ → List ℤ
  | done, _ => []
  | task rest, parentId => parentId :: rest.taskLevelIds parentId
  | loop level body rest, parentId => body.taskLevelIds level ++ rest.taskLevelIds parentId

@[simp] def loops : Program → List ℕ
  | done => []
  | task rest => rest.loops
  | loop level body rest => level :: body.loops ++ rest.loops

@[simp] def Nests (levels : List GraphDoWhileLevel) : Program → ℤ → Prop
  | done, _ => True
  | task rest, parentId => rest.Nests levels parentId
  | loop level body rest, parentId =>
    levels[level]? = some ⟨parentId⟩ ∧ body.Nests levels level ∧ rest.Nests levels parentId

def depth : Program → ℕ
  | done => 0
  | task rest => rest.depth
  | loop _ body rest => max (body.depth + 1) rest.depth

/-- The nested program: the tasks from index `first` on in order, and each loop a do-while over
its body. No loop makes more passes than there are calls to make. -/
def exec : Program → ℕ → Driver Bool
  | done, _ => pure true
  | task rest, first => do
      if ← Calls.perform (.launchTask first) then rest.exec (first + 1)
      else pure false
  | loop level body rest, first => do
      let finished ← fun env =>
        Calls.doWhile .endless (body.exec first) (.continueLevel level) (env.budget + 1) env
      if finished then rest.exec (first + body.numTasks)
      else pure false

@[simp] def prune : Program → Program
  | done => done
  | task rest => task rest.prune
  | loop level body rest =>
    if body.numTasks = 0 then rest.prune else loop level body.prune rest.prune

@[simp] def EveryLoopHasTask : Program → Prop
  | done => True
  | task rest => rest.EveryLoopHasTask
  | loop _ body rest => 0 < body.numTasks ∧ body.EveryLoopHasTask ∧ rest.EveryLoopHasTask

end Program

end Quadrants.Graph
