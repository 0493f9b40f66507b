import Mathlib.Data.List.Basic
import Mathlib.Data.Int.Notation

/-!
`irpass::analysis::clone`: the hand-written `clone` of the containers, then the two walks of
`IRCloner`. An access to a block that was emptied before ends it.
-/

namespace Quadrants.Analysis.Clone

open List

/-- The classes with a `clone` of their own. The others are copied whole and have no blocks. -/
inductive StmtClass where
  | plain
  | ifStmt
  | whileStmt
  | rangeFor
  | structFor
  | meshFor
  | offloaded
  deriving DecidableEq

/-- The blocks of a statement. Nothing sets the `block_initialization` of a struct-for. -/
inductive Role where
  | trueStatements
  | falseStatements
  | body
  | tlsPrologue
  | blsPrologue
  | meshPrologue
  | blsEpilogue
  | tlsEpilogue

structure GraphRegionTag where
  graphDoWhileLevelId : ℤ := -1
  streamParallelGroupId : ℤ := 0
  graphParallelRegionId : ℤ := 0
  checkpointId : ℤ := -1

/-- What the `clone` of a container leaves at the default, where there is such a field: the range
hint of a range-for and of a task, and the index offsets of a struct-for. -/
structure Uncopied where
  regionTag : GraphRegionTag := {}
  rangeHint : String := ""
  indexOffsets : List ℤ := []

/-- `copied` stands for all other fields. The end statement and the mesh offsets of a task are not
among its operands. -/
inductive Stmt (I C : Type) where
  | node (name : I) (stmtClass : StmtClass) (copied : C) (uncopied : Uncopied)
      (operands : List (Option I)) (endStmt : Option I) (offsets : List I)
      (blocks : List (Role × List (Stmt I C)))

abbrev Blocks (I C : Type) := List (Role × List (Stmt I C))

/-- A statement of the original or the clone of one. -/
inductive Ref (I : Type) where
  | original (x : I)
  | clone (x : I)

variable {I C : Type}

mutual

def Stmt.clone : Stmt I C → Stmt (Ref I) C
  | .node name stmtClass copied uncopied operands _ offsets blocks =>
    .node (.clone name) stmtClass copied (if stmtClass = .plain then uncopied else {})
      (operands.map (Option.map .original)) none (offsets.map .original) (cloneBlocks blocks)

def cloneBlocks : Blocks I C → Blocks (Ref I) C
  | [] => []
  | (role, block) :: rest => (role, cloneBlock block) :: cloneBlocks rest

def cloneBlock : List (Stmt I C) → List (Stmt (Ref I) C)
  | [] => []
  | stmt :: rest => stmt.clone :: cloneBlock rest

end

/-- `CLONE_BLOCK` puts an empty block in the place of the others before it walks over them. -/
def Role.isKept : Role → Bool
  | trueStatements | falseStatements | body => true
  | _ => false

mutual

/-- The walk that registers the operand map. There is no `visit(MeshForStmt *)`. -/
def Stmt.registered : Stmt I C → List I
  | .node name stmtClass _ _ _ _ _ blocks =>
    name :: if stmtClass = .meshFor then [] else registeredBlocks blocks

def registeredBlocks : Blocks I C → List I
  | [] => []
  | (role, block) :: rest =>
    (if role.isKept then registeredBlock block else []) ++ registeredBlocks rest

def registeredBlock : List (Stmt I C) → List I
  | [] => []
  | stmt :: rest => stmt.registered ++ registeredBlock rest

end

mutual

/-- The walk that replaces the operands. A clone comes with the operands of its original. -/
def Stmt.visit (f : Ref I → Ref I) : Stmt (Ref I) C → Option (Stmt (Ref I) C)
  | .node name stmtClass copied uncopied operands endStmt offsets blocks =>
    (if stmtClass = .meshFor then some blocks else visitBlocks f blocks).map
      (.node name stmtClass copied uncopied (operands.map (Option.map f)) endStmt offsets)

def visitBlocks (f : Ref I → Ref I) : Blocks (Ref I) C → Option (Blocks (Ref I) C)
  | [] => some []
  | (role, block) :: rest =>
    (if role.isKept then visitBlock f block else if block.isEmpty then some [] else none).bind
      fun block => (visitBlocks f rest).map ((role, block) :: ·)

def visitBlock (f : Ref I → Ref I) : List (Stmt (Ref I) C) → Option (List (Stmt (Ref I) C))
  | [] => some []
  | stmt :: rest => (stmt.visit f).bind fun stmt => (visitBlock f rest).map (stmt :: ·)

end

variable [DecidableEq I]

def place (inside : List I) (x : I) : Ref I :=
  if x ∈ inside then .clone x else .original x

def replaceOperand (registered : List I) : Ref I → Ref I
  | .original x => place registered x
  | .clone x => .clone x

def run (root : List (Stmt I C)) : Option (List (Stmt (Ref I) C)) :=
  visitBlock (replaceOperand (registeredBlock root)) (cloneBlock root)

mutual

def Stmt.names : Stmt I C → List I
  | .node name _ _ _ _ _ _ blocks => name :: namesOfBlocks blocks

def namesOfBlocks : Blocks I C → List I
  | [] => []
  | (_, block) :: rest => blockNames block ++ namesOfBlocks rest

def blockNames : List (Stmt I C) → List I
  | [] => []
  | stmt :: rest => stmt.names ++ blockNames rest

end

mutual

/-- The clone as it should be: every field of every node, with the references to statements of the
tree turned into references to their clones. -/
def Stmt.copy (inside : List I) : Stmt I C → Stmt (Ref I) C
  | .node name stmtClass copied uncopied operands endStmt offsets blocks =>
    .node (.clone name) stmtClass copied uncopied (operands.map (Option.map (place inside)))
      (endStmt.map (place inside)) (offsets.map (place inside)) (copyBlocks inside blocks)

def copyBlocks (inside : List I) : Blocks I C → Blocks (Ref I) C
  | [] => []
  | (role, block) :: rest => (role, copyBlock inside block) :: copyBlocks inside rest

def copyBlock (inside : List I) : List (Stmt I C) → List (Stmt (Ref I) C)
  | [] => []
  | stmt :: rest => stmt.copy inside :: copyBlock inside rest

end

mutual

/-- Nothing in the tree is lost or left behind. In the body of a mesh-for no statements are
registered. -/
def Stmt.Cloneable (inside : List I) (registered : Option (List I)) : Stmt I C → Prop
  | .node _ stmtClass _ uncopied operands endStmt offsets blocks =>
    (stmtClass = .plain ∨ uncopied = {}) ∧
      (∀ x, some x ∈ operands → (x ∈ registered.getD [] ↔ x ∈ inside)) ∧ endStmt = none ∧
      (∀ x ∈ offsets, x ∉ inside) ∧
      BlocksCloneable inside (if stmtClass = .meshFor then none else registered) blocks

def BlocksCloneable (inside : List I) (registered : Option (List I)) : Blocks I C → Prop
  | [] => True
  | (role, block) :: rest =>
    (registered = none ∨ role.isKept ∨ block = []) ∧ BlockCloneable inside registered block ∧
      BlocksCloneable inside registered rest

def BlockCloneable (inside : List I) (registered : Option (List I)) : List (Stmt I C) → Prop
  | [] => True
  | stmt :: rest => stmt.Cloneable inside registered ∧ BlockCloneable inside registered rest

end

/-- A part of the tree is walked over, unless it lies in the body of a mesh-for. -/
def walk {α : Type} (visit : (Ref I → Ref I) → α → Option α) : Option (List I) → α → Option α
  | none, part => some part
  | some registered, part => visit (replaceOperand registered) part

theorem place_nil : (place [] : I → Ref I) = .original := by
  funext x
  simp [place]

theorem place_eq_iff {first second : List I} {x : I} :
    place first x = place second x ↔ (x ∈ first ↔ x ∈ second) := by
  by_cases h : x ∈ first <;> by_cases h' : x ∈ second <;> simp [place, h, h']

theorem operands_eq_iff {registered inside : List I} {operands : List (Option I)} :
    operands.map (Option.map (place registered)) = operands.map (Option.map (place inside)) ↔
      ∀ x, some x ∈ operands → (x ∈ registered ↔ x ∈ inside) := by
  rw [map_inj_left]
  constructor
  · intro h x hx
    exact place_eq_iff.1 (Option.some.inj (h _ hx))
  · intro h operand hoperand
    cases operand with
    | none => rfl
    | some x => exact congrArg some (place_eq_iff.2 (h x hoperand))

variable (inside : List I)

mutual

theorem Stmt.cloneable_iff : ∀ (registered : Option (List I)) (stmt : Stmt I C),
    walk Stmt.visit registered stmt.clone = some (stmt.copy inside) ↔
      stmt.Cloneable inside registered
  | registered, .node name stmtClass copied uncopied operands endStmt offsets blocks => by
    have hblocks := blocksCloneable_iff (if stmtClass = .meshFor then none else registered) blocks
    have huncopied : (if stmtClass = .plain then uncopied else {}) = uncopied ↔
        stmtClass = .plain ∨ uncopied = {} := by
      by_cases hplain : stmtClass = .plain <;> simp [hplain, eq_comm]
    have hoffsets : offsets.map .original = offsets.map (place inside) ↔
        ∀ x ∈ offsets, x ∉ inside := by
      simp [map_inj_left, place]
    have hend : none = endStmt.map (place inside) ↔ endStmt = none := by
      cases endStmt <;> simp
    rw [Stmt.Cloneable, ← hblocks, ← operands_eq_iff, ← huncopied, ← hoffsets, ← hend]
    cases registered with
    | none => simp [walk, Stmt.clone, Stmt.copy, place_nil]
    | some registered =>
      have hreplace : replaceOperand registered ∘ .original = place registered := rfl
      by_cases hmesh : stmtClass = .meshFor
      · simp [walk, Stmt.clone, Stmt.copy, Stmt.visit, hmesh, hreplace]
      · simp only [walk, Stmt.clone, Stmt.copy, Stmt.visit, map_map, Option.map_comp_map, hreplace,
          hmesh, if_false, Option.map_eq_some_iff, Stmt.node.injEq, true_and, existsAndEq,
          Option.getD_some]
        tauto

theorem blocksCloneable_iff : ∀ (registered : Option (List I)) (blocks : Blocks I C),
    walk visitBlocks registered (cloneBlocks blocks) = some (copyBlocks inside blocks) ↔
      BlocksCloneable inside registered blocks
  | registered, [] => by
    cases registered <;> simp [walk, cloneBlocks, visitBlocks, copyBlocks, BlocksCloneable]
  | registered, (role, block) :: rest => by
    rw [BlocksCloneable, ← blockCloneable_iff registered block,
      ← blocksCloneable_iff registered rest]
    cases registered with
    | none => simp [walk, cloneBlocks, copyBlocks]
    | some registered =>
      by_cases hkept : role.isKept
      · simp [walk, cloneBlocks, visitBlocks, copyBlocks, hkept, Option.bind_eq_some_iff]
      · cases block <;>
          simp [walk, cloneBlocks, visitBlocks, copyBlocks, cloneBlock, visitBlock, copyBlock,
            hkept]

theorem blockCloneable_iff : ∀ (registered : Option (List I)) (block : List (Stmt I C)),
    walk visitBlock registered (cloneBlock block) = some (copyBlock inside block) ↔
      BlockCloneable inside registered block
  | registered, [] => by
    cases registered <;> simp [walk, cloneBlock, visitBlock, copyBlock, BlockCloneable]
  | registered, stmt :: rest => by
    rw [BlockCloneable, ← stmt.cloneable_iff registered, ← blockCloneable_iff registered rest]
    cases registered with
    | none => simp [walk, cloneBlock, copyBlock]
    | some registered => simp [walk, cloneBlock, visitBlock, copyBlock, Option.bind_eq_some_iff]

end

/-- The result is the clone as it should be if and only if nothing is lost or left behind. -/
theorem run_eq_copy_iff (root : List (Stmt I C)) :
    run root = some (copyBlock (blockNames root) root) ↔
      BlockCloneable (blockNames root) (some (registeredBlock root)) root :=
  blockCloneable_iff (blockNames root) (some (registeredBlock root)) root

/-- The clone of a struct-for over a field whose indices start at one starts at zero. -/
theorem run_ne_copy :
    ¬∀ root : List (Stmt ℕ Unit), run root = some (copyBlock (blockNames root) root) := by
  intro h
  have hroot := h [.node 0 .structFor () { indexOffsets := [1] } [] none [] [(.body, [])]]
  have hoffsets := ((blockCloneable_iff _ (some _) _).1 hroot).1.1
  simp at hoffsets

end Quadrants.Analysis.Clone
