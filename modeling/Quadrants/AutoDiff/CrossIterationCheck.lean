import Quadrants.Library.DefinitionFold
import Mathlib.Data.Int.Notation

/-!
`OffloadLevelGlobalCrossIterRAWChecker` and the runs of the range-fors that it checks.
-/

namespace Quadrants.AutoDiff.CrossIteration

open Library.SsaBlocks Library.TracedLoops

/-- The operands of a `globalPtr` are its indices. Those of a `matrixPtr` are its origin and its
offset, and an access has its pointer first. -/
inductive Kind where
  | const (value : ℤ)
  | unaryOp (op : ℕ)
  | binaryOp (op : ℕ)
  | ternaryOp (op : ℕ)
  | globalPtr (snode : ℕ)
  | matrixPtr
  | globalLoad
  | globalStore
  | atomicOp
  | rangeFor
  | structFor
  | meshFor
  | whileStmt
  | other (code : ℕ)
  deriving DecidableEq, Repr

def Kind.isArithmetic : Kind → Bool
  | .unaryOp _ | .binaryOp _ | .ternaryOp _ => true
  | _ => false

abbrev Statement : Type :=
  Stmt ℕ Kind

structure OffloadLoop where
  name : ℕ
  outer : List Statement
  body : List Statement

namespace OffloadLoop

variable (loop : OffloadLoop)

def leaves : List Statement :=
  loop.outer ++ blockLeaves loop.body

def definition (x : ℕ) : Option Statement :=
  loop.leaves.find? fun leaf => decide (x ∈ leaf.value)

end OffloadLoop

section Checker

structure GlobalPtr where
  snode : ℕ
  indices : List ℕ
  deriving DecidableEq, Repr

variable (loop : OffloadLoop)

def extractGlobalPtr (s : ℕ) : Option GlobalPtr :=
  match loop.definition s with
  | some (.plain _ (.globalPtr snode) indices) => some ⟨snode, indices⟩
  | some (.plain _ .matrixPtr (origin :: _)) =>
    match loop.definition origin with
    | some (.plain _ (.globalPtr snode) indices) => some ⟨snode, indices⟩
    | _ => none
  | _ => none

mutual

def visitStmt : Statement → List Statement
  | .plain name kind operands => [.plain name kind operands]
  | .loopIndex name loop axis => [.loopIndex name loop axis]
  | .ifStmt _ _ trueStatements falseStatements =>
    visitBlock trueStatements ++ visitBlock falseStatements
  | .loop _ _ _ _ => []

def visitBlock : List Statement → List Statement
  | [] => []
  | stmt :: rest => visitStmt stmt ++ visitBlock rest

end

variable (hasAdjoint : ℕ → Bool)

def accesses (kind : Kind) : List GlobalPtr :=
  (visitBlock loop.body).filterMap fun leaf =>
    match leaf with
    | .plain _ kind' (ptr :: _) =>
      if kind' = kind then
        (extractGlobalPtr loop ptr).filter fun gp => hasAdjoint gp.snode
      else none
    | _ => none

def referencesOfLeaf (leaf : Statement) (references : ℕ → Bool) : Option Bool :=
  match leaf with
  | .loopIndex _ _ _ => some true
  | .plain _ kind operands => if kind.isArithmetic then some (operands.any references) else none
  | _ => none

def referencesLoopIndex (s : ℕ) : Bool :=
  foldDefinitions referencesOfLeaf (fun _ => false) loop.leaves.reverse s

def anyAxisReferencesLoopIndex (gp : GlobalPtr) : Bool :=
  gp.indices.any (referencesLoopIndex loop)

def indicesHaveNoCrossIterDependency (a b : GlobalPtr) : Bool :=
  a.indices.length = b.indices.length &&
    (a.indices.zip b.indices).all fun index =>
      let aRefs := referencesLoopIndex loop index.1
      let bRefs := referencesLoopIndex loop index.2
      aRefs = bRefs && !(aRefs && bRefs && index.1 != index.2)

def hazards : List ℕ :=
  (accesses loop hasAdjoint .globalStore).flatMap fun store =>
    if anyAxisReferencesLoopIndex loop store then
      ((accesses loop hasAdjoint .globalLoad).filter fun load =>
        load.snode = store.snode && anyAxisReferencesLoopIndex loop load &&
          !indicesHaveNoCrossIterDependency loop store load).map fun _ => store.snode
    else []

def raisesNoError : Prop :=
  hazards loop hasAdjoint = []

end Checker

section Runs

inductive Value where
  | number (z : ℤ)
  | pointer (snode : ℕ) (indices : List ℤ) (offset : Option ℤ)
  | loop (indices : List ℤ)
  deriving DecidableEq

namespace Value

def toInt : Value → ℤ
  | .number z => z
  | _ => 0

def index (v : Value) (axis : ℕ) : Value :=
  match v with
  | .loop indices => .number (indices.getD axis 0)
  | _ => .number 0

end Value

structure Runtime (M : Type) where
  arithmetic : Kind → List ℤ → ℤ
  exec : Kind → List Value → M → ℤ × M × Signal
  test : Value → Bool
  iterations : Kind → List Value → M → Option (List (List ℤ))

variable {M : Type}

def Runtime.execKind (runtime : Runtime M) (kind : Kind) (values : List Value) (mem : M) :
    Value × M × Signal :=
  match kind, values with
  | .const value, _ => (.number value, mem, .normal)
  | .unaryOp op, values =>
    (.number (runtime.arithmetic (.unaryOp op) (values.map Value.toInt)), mem, .normal)
  | .binaryOp op, values =>
    (.number (runtime.arithmetic (.binaryOp op) (values.map Value.toInt)), mem, .normal)
  | .ternaryOp op, values =>
    (.number (runtime.arithmetic (.ternaryOp op) (values.map Value.toInt)), mem, .normal)
  | .globalPtr snode, indices => (.pointer snode (indices.map Value.toInt) none, mem, .normal)
  | .matrixPtr, .pointer snode indices _ :: offset :: _ =>
    (.pointer snode indices (some offset.toInt), mem, .normal)
  | kind, values =>
    let result := runtime.exec kind values mem
    (.number result.1, result.2.1, result.2.2)

def Runtime.machine (runtime : Runtime M) : Machine Kind Value M where
  exec := runtime.execKind
  test := runtime.test
  iterations kind values mem :=
    (runtime.iterations kind values mem).map fun rounds => rounds.map Value.loop
  noIndex := .loop []
  index := Value.index

def OffloadLoop.rounds (loop : OffloadLoop) (m : Machine Kind Value M) (limit : ℕ) :
    List ℤ → State ℕ Value M → List (ℤ × List (Event ℕ Kind Value))
  | [], _ => []
  | i :: rest, s =>
    let r := execBlock m limit loop.body (s.set loop.name (.loop [i]))
    (i, r.trace) ::
      match r.signal with
      | .normal | .continued => loop.rounds m limit rest r.state
      | _ => []

def rangeOf (first last : ℤ) : List ℤ :=
  (List.range (last - first).toNat).map fun k : ℕ => first + k

structure OffloadLoop.WellFormed (loop : OffloadLoop) : Prop where
  nodup : (loop.outer.flatMap Stmt.value ++ loop.name :: blockNames loop.body).Nodup
  ordered : LeavesOrdered [] loop.outer
  outer_plain : ∀ x name axis, .loopIndex x name axis ∉ loop.outer
  inScope : BlockScoped (loop.outer.flatMap Stmt.value) [loop.name] loop.body

structure Cell where
  snode : ℕ
  indices : List ℤ
  offset : Option ℤ

inductive Accesses (loop : OffloadLoop) (kind : Kind) : Event ℕ Kind Value → GlobalPtr → Cell → Prop
  | mk {name ptr : ℕ} {rest : List ℕ} {gp : GlobalPtr} {snode : ℕ} {indices : List ℤ}
      {offset : Option ℤ} {values : List Value} {value : Value} :
      .plain name kind (ptr :: rest) ∈ visitBlock loop.body → extractGlobalPtr loop ptr = some gp →
      Accesses loop kind
        ⟨name, some kind, .pointer snode indices offset :: values, some value⟩ gp
        ⟨snode, indices, offset⟩

end Runs

section Separation

variable (arithmetic : Kind → List ℤ → ℤ) (loop : OffloadLoop)

def valueOfLeaf (i : ℤ) (leaf : Statement) (valueOf : ℕ → ℤ) : Option ℤ :=
  match leaf with
  | .loopIndex _ name axis => if name = loop.name ∧ axis = 0 then some i else none
  | .plain _ (.const value) _ => some value
  | .plain _ kind operands =>
    if kind.isArithmetic then some (arithmetic kind (operands.map valueOf)) else none
  | _ => none

/-- An index as an expression in the index of the loop, over the values that are not computed by
arithmetic. -/
def indexValue (base : ℕ → ℤ) (i : ℤ) (x : ℕ) : ℤ :=
  foldDefinitions (valueOfLeaf arithmetic loop i) base (blockLeaves loop.body).reverse x

def Separates (indices : List ℕ) : Prop :=
  ∀ base base' : ℕ → ℤ, (∀ x ∉ blockNames loop.body, x ≠ loop.name → base x = base' x) →
    ∀ i i', i ≠ i' → ∃ x ∈ indices,
      indexValue arithmetic loop base i x ≠ indexValue arithmetic loop base' i' x

end Separation

end Quadrants.AutoDiff.CrossIteration
