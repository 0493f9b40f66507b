import Mathlib.Algebra.Group.Nat.Defs
import Mathlib.Data.List.FinRange
import Mathlib.Data.List.Sort
import Mathlib.Logic.ExistsUnique
import Mathlib.Logic.Function.Basic
import Mathlib.Tactic.Common

/-!
How the cells of an SNode tree are numbered: the nodes that `SNode::create_node` makes,
`ScalarPointerLowerer::run`, the refined coordinates of the struct compiler, and the loops that
`demote_dense_struct_fors` makes. An SNode is given with its ancestors, the root last. The
numbers do not overflow.
-/

namespace Quadrants.Addressing

/-- `quadrants_max_num_indices` -/
abbrev quadrantsMaxNumIndices : ℕ :=
  12

abbrev Axis : Type :=
  Fin quadrantsMaxNumIndices

def allAxes : List Axis :=
  List.finRange quadrantsMaxNumIndices

inductive SNodeType
  | root
  | dense
  | dynamic
  | pointer
  | bitmasked
  | hash
  | place
  | bitStruct
  | quantArray
  | undefined
  deriving DecidableEq, Repr

structure AxisExtractor where
  numElementsFromRoot : ℕ
  shape : ℕ
  accShape : ℕ
  active : Bool
  deriving DecidableEq, Repr

structure SNode where
  depth : ℕ
  type : SNodeType
  extractors : Axis → AxisExtractor
  /-- The first `num_active_indices` entries. -/
  physicalIndexPosition : List Axis
  numCellsPerContainer : ℕ
  isPathAllDense : Bool

def SNodeType.needActivation (type : SNodeType) : Bool :=
  type = .pointer || type = .hash || type = .bitmasked || type = .dynamic

def rootSNode : SNode where
  depth := 0
  type := .root
  extractors _ := ⟨1, 1, 1, false⟩
  physicalIndexPosition := []
  numCellsPerContainer := 1
  isPathAllDense := true

def SNode.insertChildren (parent : SNode) (type : SNodeType) : SNode where
  depth := parent.depth + 1
  type := type
  extractors i := ⟨(parent.extractors i).numElementsFromRoot, 1, 1, false⟩
  physicalIndexPosition := parent.physicalIndexPosition
  numCellsPerContainer := 1
  isPathAllDense := parent.isPathAllDense && !type.needActivation

def SNode.divide (node : SNode) (ind : Axis) (size : ℕ) : SNode :=
  let extractor := node.extractors ind
  { node with
    physicalIndexPosition :=
      if ind ∈ node.physicalIndexPosition then node.physicalIndexPosition
      else node.physicalIndexPosition ++ [ind]
    extractors := Function.update node.extractors ind
      { extractor with
        active := true
        numElementsFromRoot := extractor.numElementsFromRoot * size
        shape := size } }

def SNode.divideAll (node : SNode) : List (Axis × ℤ) → Option SNode
  | [] => some node
  | (ind, size) :: rest => if size ≤ 0 then none else (node.divide ind size.toNat).divideAll rest

def inferExtractors (extractors : Axis → AxisExtractor) :
    List Axis → (Axis → AxisExtractor) × ℕ
  | [] => (extractors, 1)
  | i :: rest =>
    let later := inferExtractors extractors rest
    (Function.update later.1 i { later.1 i with accShape := later.2 }, later.2 * (later.1 i).shape)

def SNode.inferred (node : SNode) : SNode :=
  let result := inferExtractors node.extractors allAxes
  { node with
    physicalIndexPosition := node.physicalIndexPosition.insertionSort (· ≤ ·)
    extractors := result.1
    numCellsPerContainer := result.2 }

def SNode.acceptsDynamic (node : SNode) (ancestors : List SNode) : Bool :=
  (allAxes.all fun i => !(node.extractors i).active ||
    ancestors.all fun p => !(p.extractors i).active) &&
  (allAxes.filter fun i => (node.extractors i).active).length = 1

structure Creation where
  axes : List Axis
  sizes : List ℤ
  type : SNodeType

def Creation.broadcastSizes (c : Creation) : List ℤ :=
  match c.sizes with
  | [size] => List.replicate c.axes.length size
  | sizes => sizes

def createNode (ancestors : List SNode) (c : Creation) : Option SNode :=
  match ancestors with
  | [] => none
  | parent :: _ =>
    if c.axes.length ≠ c.broadcastSizes.length then none
    else if c.type = .hash ∧ parent.depth ≠ 0 then none
    else if c.type = .root then none
    else
      match (parent.insertChildren c.type).divideAll (c.axes.zip c.broadcastSizes) with
      | none => none
      | some node =>
        if c.type = .dynamic ∧ node.inferred.acceptsDynamic ancestors = false then none
        else some node.inferred

def createBelow (chain : List SNode) : List Creation → Option (List SNode)
  | [] => some chain
  | c :: rest =>
    match createNode chain c with
    | none => none
    | some node => createBelow (node :: chain) rest

def createChain (creations : List Creation) : Option (List SNode) :=
  createBelow [rootSNode] creations

def isPowerOfTwo (x : ℕ) : Bool :=
  x ≠ 0 && x &&& (x - 1) = 0

def generateMod (x y : ℕ) : ℕ :=
  if isPowerOfTwo y then x &&& (y - 1) else x % y

def generateDiv (x y : ℕ) : ℕ :=
  if isPowerOfTwo y then x >>> y.log2 else x / y

structure Extraction where
  totalShape : Axis → ℕ
  isFirstExtraction : Axis → Bool

def totalShape (snodes : List SNode) (j : Axis) : ℕ :=
  snodes.foldl (fun total s => total * (s.extractors j).shape) 1

def extractIndices (snode : SNode) :
    List (Axis × ℕ) → Extraction → List (ℕ × ℕ) × Extraction
  | [], state => ([], state)
  | (k, index) :: rest, state =>
    if (snode.extractors k).active then
      let prev := state.totalShape k
      let next := prev / (snode.extractors k).shape
      let extracted := if state.isFirstExtraction k then index else generateMod index prev
      let later := extractIndices snode rest
        ⟨Function.update state.totalShape k next, Function.update state.isFirstExtraction k false⟩
      ((generateDiv extracted next, (snode.extractors k).shape) :: later.1, later.2)
    else extractIndices snode rest state

def linearize (inputs : List (ℕ × ℕ)) : ℕ :=
  inputs.foldl (fun val input => val * input.2 + input.1) 0

def runLevels (isBitVectorized : Bool) (indices : List (Axis × ℕ)) :
    Option SNodeType → List SNode → Extraction → List (SNode × ℕ)
  | _, [], _ => []
  | above, snode :: rest, state =>
    if isBitVectorized && snode.type = .quantArray && rest.isEmpty && above = some .dense then
      runLevels isBitVectorized indices (some snode.type) rest state
    else
      let result := extractIndices snode indices state
      (snode, linearize result.1) ::
        runLevels isBitVectorized indices (some snode.type) rest result.2

def run (leafSNode : List SNode) (indices : List ℕ) (hasSNodeOp isBitVectorized : Bool) :
    List (SNode × ℕ) :=
  let snodes := leafSNode.reverse
  let pathLength := snodes.length - 1 + if hasSNodeOp then 1 else 0
  match (snodes.take pathLength).getLast? with
  | none => []
  | some leaf =>
    runLevels isBitVectorized (leaf.physicalIndexPosition.zip indices) none
      (snodes.take pathLength) ⟨totalShape snodes, fun _ => true⟩

def refineCoordinates (snode : SNode) (inpCoords : Axis → ℕ) (l : ℕ) (i : Axis) : ℕ :=
  let extractor := snode.extractors i
  let addition :=
    if extractor.shape > 1 then
      l % (extractor.accShape * extractor.shape) / extractor.accShape
    else 0
  inpCoords i * extractor.shape + addition

def refineAlong (cells : List (SNode × ℕ)) : Axis → ℕ :=
  cells.foldl (fun coords cell => refineCoordinates cell.1 coords cell.2) fun _ => 0

def extractLoopVars (snode : SNode) (extracted : ℕ) :
    List (Axis × ℕ) → (Axis → ℕ) → Bool → List ℕ × (Axis → ℕ)
  | [], totalShape, _ => ([], totalShape)
  | (p, var) :: rest, totalShape, isFirstExtraction =>
    let ext := snode.extractors p
    if ext.active then
      let index :=
        if isFirstExtraction then extracted
        else generateMod extracted (ext.accShape * ext.shape)
      let multiplier := totalShape p / ext.shape
      let later :=
        extractLoopVars snode extracted rest (Function.update totalShape p multiplier) false
      ((var + generateDiv index ext.accShape * multiplier) :: later.1, later.2)
    else
      let later := extractLoopVars snode extracted rest totalShape isFirstExtraction
      (var :: later.1, later.2)

def loopVarsFrom (physicalIndices : List Axis) (mainLoopVar : ℕ) :
    Bool → List SNode → ℕ → (Axis → ℕ) → List ℕ → List ℕ
  | _, [], _, _, newLoopVars => newLoopVars
  | isFirst, snode :: rest, totalN, totalShape, newLoopVars =>
    let extracted := if isFirst then mainLoopVar else generateMod mainLoopVar totalN
    let next := totalN / snode.numCellsPerContainer
    let result := extractLoopVars snode (generateDiv extracted next)
      (physicalIndices.zip newLoopVars) totalShape true
    loopVarsFrom physicalIndices mainLoopVar false rest next result.2 result.1

structure RangeFor where
  endValue : ℕ
  newLoopVars : ℕ → List ℕ

def physicalIndices (snodes : List SNode) : List Axis :=
  match snodes.getLast? with
  | none => []
  | some last => last.physicalIndexPosition

def convertToRangeFor (snode : List SNode) : Option RangeFor :=
  let snodes := (snode.takeWhile fun s => s.type ≠ .root).reverse
  let totalN := snodes.foldl (fun total s => total * s.numCellsPerContainer) 1
  if totalN ≤ 2 ^ 31 - 1 then
    some ⟨totalN, fun mainLoopVar =>
      loopVarsFrom (physicalIndices snodes) mainLoopVar true snodes totalN (totalShape snodes)
        ((physicalIndices snodes).map fun _ => 0)⟩
  else none

def maybeConvert (snode : List SNode) : Option RangeFor :=
  match snode with
  | [] => none
  | s :: _ => if s.isPathAllDense then convertToRangeFor snode else none

def SNode.InBounds (leaf : SNode) (indices : List ℕ) : Prop :=
  List.Forall₂ (fun i index => index < (leaf.extractors i).numElementsFromRoot)
    leaf.physicalIndexPosition indices

/-- The pointers into the cells of a node: those of its own operations, and those of its children
that have no cells of their own there. -/
inductive Pointer : List SNode → List SNode → Bool → Prop
  | cell (chain : List SNode) : Pointer chain chain true
  | place (leaf : SNode) (ancestors : List SNode) :
      Pointer (leaf :: ancestors) (leaf.insertChildren .place :: leaf :: ancestors) false
  | dynamic {chain : List SNode} {c : Creation} {node : SNode} :
      c.type = .dynamic → createNode chain c = some node → Pointer chain (node :: chain) false

inductive Looped : List SNode → List SNode → Prop
  | node (chain : List SNode) : Looped chain chain
  | place (leaf : SNode) (ancestors : List SNode) :
      Looped (leaf :: ancestors) (leaf.insertChildren .place :: leaf :: ancestors)

/-- The numbering is a bijection between the index tuples of a node and its cells. -/
structure Addressed (leaf : SNode) (ancestors : List SNode) : Prop where
  inRange : ∀ pointer hasSNodeOp, Pointer (leaf :: ancestors) pointer hasSNodeOp →
    ∀ indices, leaf.InBounds indices → ∀ isBitVectorized,
      ∀ cell ∈ run pointer indices hasSNodeOp isBitVectorized,
        cell.2 < cell.1.numCellsPerContainer
  levels : ∀ pointer hasSNodeOp, Pointer (leaf :: ancestors) pointer hasSNodeOp →
    ∀ indices, leaf.InBounds indices →
      (run pointer indices hasSNodeOp false).map Prod.fst = (leaf :: ancestors).reverse ∧
      run pointer indices hasSNodeOp true <+: run pointer indices hasSNodeOp false
  refined : ∀ pointer hasSNodeOp, Pointer (leaf :: ancestors) pointer hasSNodeOp →
    ∀ indices, leaf.InBounds indices →
      leaf.physicalIndexPosition.map (refineAlong (run pointer indices hasSNodeOp false)) = indices
  enumerated : ∀ snode, Looped (leaf :: ancestors) snode →
    ∀ loop, maybeConvert snode = some loop →
      (∀ v < loop.endValue, leaf.InBounds (loop.newLoopVars v)) ∧
      ∀ indices, leaf.InBounds indices →
        ∃! v, v < loop.endValue ∧ loop.newLoopVars v = indices

def DivideOnce (divisions : List (Axis × ℤ)) : Prop :=
  divisions.Pairwise fun first second => first.1 = second.1 → first.2 = 1

def Creation.DividesOnce (c : Creation) : Prop :=
  DivideOnce (c.axes.zip c.broadcastSizes)

end Quadrants.Addressing
