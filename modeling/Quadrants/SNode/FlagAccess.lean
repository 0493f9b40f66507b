import Quadrants.Library.ScopedRuns
import Quadrants.SNode.Addressing

/-!
`flag_access`: which global pointers activate the cells on their way, and what the stores and the
atomics of a task write to.
-/

namespace Quadrants.WeakAccess

open Library.SsaBlocks Library.TracedLoops Addressing

abbrev Chain : Type :=
  List ℕ

abbrev Forest : Type :=
  ℕ → SNode

inductive Kind where
  | globalPtr (snode : Chain)
  | matrixPtr
  | globalStore
  | atomicOp
  | rangeFor
  | structFor (snode : Chain)
  | meshFor
  | whileStmt
  | other (code : ℕ)
  deriving DecidableEq, Repr

def Kind.IsWrite (kind : Kind) : Prop :=
  kind = .globalStore ∨ kind = .atomicOp

/-- The operands of a `globalPtr` are its indices. Those of a `matrixPtr` are its origin and its
offset, and a write has its destination first. -/
abbrev Statement : Type :=
  Stmt ℕ Kind

structure Loop where
  name : ℕ
  snode : Chain

structure Task where
  name : ℕ
  snode : Option Chain
  body : List Statement

def Task.leaves (task : Task) : List Statement :=
  blockLeaves task.body

def Task.definition (task : Task) (x : ℕ) : Option Statement :=
  task.leaves.find? fun leaf => decide (x ∈ leaf.value)

/-- `activate` of the global pointers -/
abbrev Activate : Type :=
  ℕ → Bool

section Flag

variable (task : Task)

def isGlobalPtr (x : ℕ) : Bool :=
  match task.definition x with
  | some (.plain _ (.globalPtr _) _) => true
  | _ => false

def unloweredOrigin (x : ℕ) : Option ℕ :=
  match task.definition x with
  | some (.plain _ .matrixPtr (origin :: _)) => if isGlobalPtr task origin then some origin else none
  | _ => none

def target : Statement → Option ℕ
  | .plain _ .globalStore (dest :: _) =>
    if isGlobalPtr task dest then some dest else unloweredOrigin task dest
  | .plain _ .atomicOp (dest :: _) => if isGlobalPtr task dest then some dest else none
  | _ => none

def FlagAccess.visit (activate : Activate) (leaf : Statement) : Activate :=
  match leaf with
  | .plain name (.globalPtr _) _ => Function.update activate name false
  | _ =>
    match target task leaf with
    | some ptr => Function.update activate ptr true
    | none => activate

def FlagAccess.run (activate : Activate) : Activate :=
  task.leaves.foldl (FlagAccess.visit task) activate

end Flag

section Weaken

mutual

def visitStmt (current : Option Loop) :
    Statement → List (Statement × Option Loop) × Option Loop
  | .plain name kind operands => ([(.plain name kind operands, current)], current)
  | .loopIndex name loop axis => ([(.loopIndex name loop axis, current)], current)
  | .ifStmt _ _ trueStatements falseStatements =>
    let first := visitBlock current trueStatements
    let second := visitBlock first.2 falseStatements
    (first.1 ++ second.1, second.2)
  | .loop name (.structFor snode) _ body => ((visitBlock (some ⟨name, snode⟩) body).1, none)
  | .loop _ _ _ body => visitBlock current body

def visitBlock (current : Option Loop) :
    List Statement → List (Statement × Option Loop) × Option Loop
  | [] => ([], current)
  | stmt :: rest =>
    let first := visitStmt current stmt
    let second := visitBlock first.2 rest
    (first.1 ++ second.1, second.2)

end

def Task.loop (task : Task) : Option Loop :=
  task.snode.map fun snode => ⟨task.name, snode⟩

def Task.visits (task : Task) : List (Statement × Option Loop) :=
  (visitBlock none task.body).1.map fun visit => (visit.1, visit.2.or task.loop)

variable (forest : Forest) (task : Task)

def isDenseLike (type : SNodeType) : Bool :=
  type = .place || type = .dense || type = .bitStruct || type = .quantArray

def leastSparseAncestor (a : Chain) : Chain :=
  a.dropWhile fun s => isDenseLike (forest s).type

def shareSparsity (a b : Chain) : Bool :=
  leastSparseAncestor forest a = leastSparseAncestor forest b

def axesOf (snode : Chain) : List Axis :=
  match snode with
  | [] => []
  | s :: _ => (forest s).physicalIndexPosition

def numActiveIndices (snode : Chain) : ℕ :=
  (axesOf forest snode).length

def isLoopIndexOf (axis x : ℕ) : Bool :=
  match task.definition x with
  | some (.loopIndex _ _ index) => index = axis
  | _ => false

def sameAsLoopSNode (loop : Loop) (snode : Chain) (indices : List ℕ) : Bool :=
  shareSparsity forest snode loop.snode &&
    (indices.length != numActiveIndices forest loop.snode ||
      indices.zipIdx.all fun index => isLoopIndexOf task index.2 index.1)

def WeakenAccess.visit (activate : Activate) (visit : Statement × Option Loop) : Activate :=
  match visit with
  | (.plain name (.globalPtr snode) indices, some loop) =>
    if activate name && sameAsLoopSNode forest task loop snode indices then
      Function.update activate name false
    else activate
  | _ => activate

def WeakenAccess.run (activate : Activate) : Activate :=
  task.visits.foldl (WeakenAccess.visit forest task) activate

def flagAccess (activate : Activate) : Activate :=
  WeakenAccess.run forest task (FlagAccess.run task activate)

end Weaken

section Cells

variable (forest : Forest)

/-- The cells that lead to where the indices point to. Without an operation on the SNode itself its
own cell is not one of them. -/
def cells (snode : Chain) (indices : List ℕ) (hasSNodeOp : Bool) : List (ℕ × ℕ) :=
  snode.reverse.zip ((Addressing.run (snode.map forest) indices hasSNodeOp false).map Prod.snd)

/-- A cell is named by the cells that lead to it. The cells of some SNodes are always active. -/
def AllActive (active : List (ℕ × ℕ) → Prop) (path : List (ℕ × ℕ)) : Prop :=
  ∀ above cell, above ++ [cell] <+: path → (forest cell.1).type.needActivation = true →
    active (above ++ [cell])

variable (active : List (ℕ × ℕ) → Prop)

def AddressActive (snode : Chain) (indices : List ℤ) : Prop :=
  AllActive forest active (cells forest snode (indices.map Int.toNat) false)

/-- A struct-for runs for the indices of a cell of its SNode when the cell is active. -/
def ElementActive (snode : Chain) (indices : List ℤ) : Prop :=
  ∃ coordinates : List ℕ, indices = coordinates.map Int.ofNat ∧
    coordinates.length = numActiveIndices forest snode ∧
    AllActive forest active (cells forest snode coordinates true)

end Cells

section Runs

inductive Value where
  | number (z : ℤ)
  | pointer (snode : Chain) (indices : List ℤ)
  | loop (indices : List ℤ)
  deriving DecidableEq

def Value.toInt : Value → ℤ
  | .number z => z
  | _ => 0

def Value.index (v : Value) (axis : ℕ) : Value :=
  match v with
  | .loop indices => .number (indices.getD axis 0)
  | _ => .number 0

structure Runtime (forest : Forest) (active : List (ℕ × ℕ) → Prop) (M : Type) where
  exec : Kind → List Value → M → ℤ × M × Signal
  test : Value → Bool
  iterations : Kind → List Value → M → Option (List (List ℤ))
  elements : Chain → List Value → M → List (List ℤ)
  elements_active : ∀ snode values mem, ∀ indices ∈ elements snode values mem,
    ElementActive forest active snode indices

variable {forest : Forest} {active : List (ℕ × ℕ) → Prop} {M : Type}

def Runtime.execKind (runtime : Runtime forest active M) (kind : Kind) (values : List Value)
    (mem : M) : Value × M × Signal :=
  match kind, values with
  | .globalPtr snode, indices => (.pointer snode (indices.map Value.toInt), mem, .normal)
  | .matrixPtr, .pointer snode indices :: _ => (.pointer snode indices, mem, .normal)
  | kind, values =>
    let result := runtime.exec kind values mem
    (.number result.1, result.2.1, result.2.2)

def Runtime.loopIterations (runtime : Runtime forest active M) (kind : Kind) (values : List Value)
    (mem : M) : Option (List Value) :=
  match kind with
  | .structFor snode => some ((runtime.elements snode values mem).map Value.loop)
  | kind => (runtime.iterations kind values mem).map fun rounds => rounds.map Value.loop

def Runtime.machine (runtime : Runtime forest active M) : Machine Kind Value M where
  exec := runtime.execKind
  test := runtime.test
  iterations := runtime.loopIterations
  noIndex := .loop []
  index := Value.index

end Runs

variable (forest : Forest) (active : List (ℕ × ℕ) → Prop) (task : Task)

structure Task.WellFormed (task : Task) : Prop where
  nodup : (task.name :: blockNames task.body).Nodup
  inScope : BlockScoped [] [task.name] task.body

def Task.Starts {M : Type} (s : State ℕ Value M) : Prop :=
  ∀ snode, task.snode = some snode →
    ∃ indices, s.env task.name = .loop indices ∧ ElementActive forest active snode indices

inductive PointsInto : ℕ → ℕ → Prop
  | globalPtr {ptr : ℕ} {snode : Chain} {indices : List ℕ} :
      .plain ptr (.globalPtr snode) indices ∈ task.leaves → PointsInto ptr ptr
  | matrixPtr {x origin ptr : ℕ} {rest : List ℕ} :
      .plain x .matrixPtr (origin :: rest) ∈ task.leaves → PointsInto origin ptr → PointsInto x ptr

inductive WritesThrough : Event ℕ Kind Value → ℕ → Chain → List ℤ → Prop
  | mk {name dest ptr : ℕ} {rest : List ℕ} {kind : Kind} {snode : Chain} {indices : List ℤ}
      {values : List Value} {value : Value} :
      .plain name kind (dest :: rest) ∈ task.leaves → kind.IsWrite → PointsInto task dest ptr →
      WritesThrough ⟨name, some kind, .pointer snode indices :: values, some value⟩ ptr snode
        indices

def KeepsWrites (activate : Activate) (trace : List (Event ℕ Kind Value)) : Prop :=
  ∀ e ∈ trace, ∀ ptr snode indices, WritesThrough task e ptr snode indices →
    activate ptr = true ∨ AddressActive forest active snode indices

def shapeBelow (snode : Chain) (a : Axis) : ℕ :=
  totalShape ((snode.takeWhile fun s => isDenseLike (forest s).type).map forest) a

/-- The pointer has the indices of the loop, which lead to the same sparse cells as in the loop. -/
structure OwnElement (loop : Loop) (snode : Chain) (indices : List ℕ) : Prop where
  sparsity : leastSparseAncestor forest snode = leastSparseAncestor forest loop.snode
  loopIndices : ∀ k x, indices[k]? = some x → .loopIndex x loop.name k ∈ task.leaves
  nonempty : indices ≠ []
  length : indices.length = numActiveIndices forest loop.snode
  axes : axesOf forest snode.tail = axesOf forest loop.snode
  shape : ∀ a, shapeBelow forest snode a = shapeBelow forest loop.snode a

def Own (ptr : ℕ) : Prop :=
  ∃ snode indices loop, (.plain ptr (.globalPtr snode) indices, some loop) ∈ task.visits ∧
    OwnElement forest task loop snode indices

/-- No store goes to the pointer, through a matrix pointer or not, and no atomic does directly. -/
def Unflagged (ptr : ℕ) : Prop :=
  ∀ leaf ∈ task.leaves, target task leaf ≠ some ptr

def Weakened (ptr : ℕ) : Prop :=
  ∃ snode indices loop, (.plain ptr (.globalPtr snode) indices, some loop) ∈ task.visits ∧
    sameAsLoopSNode forest task loop snode indices = true

/-- The pointer gets no `activate` although it is not one to the element of the loop. -/
def Overlooked (ptr : ℕ) : Prop :=
  ¬Own forest task ptr ∧ (Unflagged task ptr ∨ Weakened forest task ptr)

end Quadrants.WeakAccess
