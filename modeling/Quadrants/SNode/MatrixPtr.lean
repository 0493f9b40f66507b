import Mathlib.Algebra.BigOperators.Group.List.Basic
import Mathlib.Tactic.Ring
import Quadrants.SNode.Addressing

/-!
The pointers that `lower_matrix_ptr`, `lower_access` and `FuseMatrixPtr` make for the components of
a matrix field. An SNode is the list of the child numbers from it up to the root, with the number of
the tree last.
-/

namespace Quadrants.MatrixPtr

open List Addressing

abbrev Location : Type :=
  List ℕ

/-- `lookupElement` stands for the nodes that find their cells at run time. -/
structure Forest where
  node : Location → SNode
  one_lt_of_dense (snode : Location) : (node snode).type = .dense → 1 < snode.length
  isQuant : Location → Bool
  numChildren : Location → ℕ
  cellSizeBytes : Location → ℕ
  offsetBytesInParentCell : Location → ℤ
  offset_root (tree : ℕ) : offsetBytesInParentCell [tree] = 0
  root : Location → ℤ
  lookupElement : Location → ℤ → ℕ → ℤ

variable (forest : Forest)

def lookup (snode : Location) (container : ℤ) (number : ℕ) : ℤ :=
  match (forest.node snode).type with
  | .root => container + number
  | .dense => container + forest.cellSizeBytes snode * number
  | _ => forest.lookupElement snode container number

/-- The numbers are those of the cells above, the nearest first. -/
def container : Location → List ℕ → ℤ
  | child :: above :: rest, numbers =>
    lookup forest (above :: rest) (container (above :: rest) numbers.tail) (numbers.headD 0) +
      forest.offsetBytesInParentCell (child :: above :: rest)
  | snode, _ => forest.root snode

/-- `ScalarPointerLowerer::run` at a place below `parent`. -/
def numbers (parent : Location) (indices : List ℕ) : List ℕ :=
  ((run ((forest.node parent).insertChildren .place :: parent.tails.dropLast.map forest.node)
    indices false false).map Prod.snd).reverse

/-- The address of a cell of a field. -/
def globalPtr (snode : Location) (indices : List ℕ) : ℤ :=
  container forest snode (numbers forest snode.tail indices)

def pathFromRoot (snode : Location) (i : ℕ) : Location :=
  snode.drop (snode.length - 1 - i)

variable (snodes : List Location)

def first : Location :=
  snodes.headD []

def depthBelowLca : Option ℕ :=
  (range (first snodes).length).find? fun i =>
    snodes.any fun snode => pathFromRoot snode i ≠ pathFromRoot (first snodes) i

def SameBelow (depth : ℕ) : Prop :=
  ∀ i < (first snodes).length - 1, depth ≤ i → ∀ snode ∈ snodes,
    (forest.node (pathFromRoot snode i)).type = .dense ∧
      forest.cellSizeBytes (pathFromRoot snode i) =
        forest.cellSizeBytes (pathFromRoot (first snodes) i) ∧
      forest.offsetBytesInParentCell (pathFromRoot snode (i + 1)) =
        forest.offsetBytesInParentCell (pathFromRoot (first snodes) (i + 1))

instance (depth : ℕ) : Decidable (SameBelow forest snodes depth) :=
  inferInstanceAs (Decidable (∀ i < _, depth ≤ i → ∀ snode ∈ snodes, _ ∧ _))

def memberOffset (depth : ℕ) (snode : Location) : ℤ :=
  forest.offsetBytesInParentCell (pathFromRoot snode depth)

def calcDynamicIndexStride : Option ℤ :=
  match snodes with
  | [] => none
  | [_] => some 0
  | first :: second :: rest =>
    let snodes := first :: second :: rest
    if ∃ snode ∈ snodes, snode.length ≠ first.length ∨ forest.isQuant snode then none
    else
      (depthBelowLca snodes).bind fun depth =>
        let stride := memberOffset forest depth second - memberOffset forest depth first
        if SameBelow forest snodes depth ∧
            (snodes.map (memberOffset forest depth)).IsChain (fun last next => stride = next - last)
        then some stride
        else none

def isAosMatrixOfGlobalPtr : Bool :=
  snodes.all fun snode =>
    snode.tail = (first snodes).tail && (forest.node (first snodes).tail).type = .dense

/-- Whether `LowerAOSGlobalPtrStmt` replaces the field by its first component. `offsetsConst` tells
which of the matrix pointers into the field have a constant offset. -/
def lowersAos (forceScalarize : Bool) (offsetsConst : List Bool) : Bool :=
  !forceScalarize && isAosMatrixOfGlobalPtr forest snodes &&
    offsetsConst.all fun isConst => isConst && !forest.isQuant (first snodes)

theorem component_mem (k : Fin snodes.length) : snodes[k.1] ∈ snodes :=
  getElem_mem k.2

inductive Lowered where
  | pointer (address : ℤ)
  | notDynamicIndexable
  | noChild

def lower (forceScalarize : Bool) (offsetsConst : List Bool) (isConst : Bool)
    (k : Fin snodes.length) (indices : List ℕ) : Lowered :=
  if isConst then
    if lowersAos forest snodes forceScalarize offsetsConst then
      let parent := (first snodes).tail
      let chid := (first snodes).headD 0 + k
      if chid < forest.numChildren parent then
        .pointer (container forest (chid :: parent) (numbers forest parent indices))
      else .noChild
    else .pointer (globalPtr forest snodes[k.1] indices)
  else
    match calcDynamicIndexStride forest snodes with
    | none => .notDynamicIndexable
    | some stride =>
      .pointer (globalPtr forest (first snodes) indices + (k * stride : ℤ).bmod (2 ^ 32))

/-- The address of a container without the offsets in parent cells from `depth` on. -/
def row (depth : ℕ) : Location → List ℕ → ℤ
  | _ :: above :: rest, numbers =>
    if rest.length < depth then
      lookup forest (above :: rest) (container forest (above :: rest) numbers.tail)
        (numbers.headD 0)
    else row depth (above :: rest) numbers.tail +
      forest.cellSizeBytes (above :: rest) * numbers.headD 0
  | snode, _ => forest.root snode

def offsetsBelow (depth : ℕ) : Location → ℤ
  | [] => 0
  | child :: parent =>
    if parent.length < depth then 0
    else offsetsBelow depth parent + forest.offsetBytesInParentCell (child :: parent)

def rowOf (snode : Location) (indices : List ℕ) : ℤ :=
  row forest ((depthBelowLca snodes).getD 0) snode (numbers forest snode.tail indices)

/-- Component `k` is where the lowering looks: `k` children behind the first component, or in the
first one's row, with a byte offset that fits. -/
def InPlace (forceScalarize : Bool) (offsetsConst : List Bool) (isConst : Bool)
    (k : Fin snodes.length) (indices : List ℕ) : Prop :=
  if isConst then
    lowersAos forest snodes forceScalarize offsetsConst = true →
      (first snodes).headD 0 + k < forest.numChildren (first snodes).tail ∧
        forest.offsetBytesInParentCell
          (((first snodes).headD 0 + k) :: (first snodes).tail) =
          forest.offsetBytesInParentCell snodes[k.1]
  else
    ∀ stride, calcDynamicIndexStride forest snodes = some stride →
      (k * stride : ℤ).bmod (2 ^ 32) - k * stride =
        rowOf forest snodes snodes[k.1] indices - rowOf forest snodes (first snodes) indices

variable {forest snodes}

theorem path_cons {child i : ℕ} {parent : Location} (h : i < parent.length) :
    pathFromRoot (child :: parent) i = pathFromRoot parent i := by
  have hdrop : (child :: parent).length - 1 - i = parent.length - 1 - i + 1 := by
    rw [length_cons]
    omega
  rw [pathFromRoot, hdrop, drop_succ_cons, pathFromRoot]

theorem path_self (child : ℕ) (parent : Location) :
    pathFromRoot (child :: parent) parent.length = child :: parent := by
  simp [pathFromRoot]

variable {depth : ℕ}

theorem offsetsBelow_eq_zero : ∀ {snode : Location}, snode.length ≤ depth →
    offsetsBelow forest depth snode = 0
  | [], _ => rfl
  | _ :: _, h => if_pos h

/-- Below the common ancestor all nodes are dense, and the offsets come on top of the row. -/
theorem container_eq : ∀ (snode : Location) (numbers : List ℕ), depth < snode.length →
    (∀ i < snode.length - 1, depth ≤ i → (forest.node (pathFromRoot snode i)).type = .dense) →
    container forest snode numbers =
      row forest depth snode numbers + offsetsBelow forest depth snode
  | [tree], numbers, hdepth, _ => by
    have hzero : ¬0 < depth := by simpa using hdepth
    simp [container, row, offsetsBelow, hzero, forest.offset_root]
  | child :: above :: rest, numbers, hdepth, hdense => by
    simp only [length_cons] at hdepth
    have hlength : ¬(above :: rest).length < depth := by
      rw [length_cons]
      omega
    rw [container, row, offsetsBelow, if_neg hlength]
    by_cases hrest : rest.length < depth
    · rw [if_pos hrest, offsetsBelow_eq_zero (by rw [length_cons]; omega), zero_add]
    · have habove := container_eq (above :: rest) numbers.tail (by rw [length_cons]; omega)
        fun i hi hle => by
          have hi' : i < (above :: rest).length := by omega
          have hchild := hdense i (by rwa [length_cons, Nat.add_sub_cancel]) hle
          rwa [path_cons hi'] at hchild
      have htype := hdense rest.length (by simp) (by omega)
      rw [path_cons (by simp), path_self] at htype
      rw [if_neg hrest, lookup, htype, habove]
      ring

theorem offsetsBelow_sub : ∀ (snode other : Location), snode.length = other.length →
    depth < snode.length →
    (∀ i < other.length - 1, depth ≤ i →
      forest.offsetBytesInParentCell (pathFromRoot snode (i + 1)) =
        forest.offsetBytesInParentCell (pathFromRoot other (i + 1))) →
    offsetsBelow forest depth snode - offsetsBelow forest depth other =
      memberOffset forest depth snode - memberOffset forest depth other
  | child :: parent, child' :: parent', hlength, hdepth, hsame => by
    simp only [length_cons, Nat.add_right_cancel_iff] at hlength hdepth
    rw [offsetsBelow, offsetsBelow, if_neg (by omega), if_neg (by omega)]
    rcases (Nat.lt_succ_iff_lt_or_eq.1 hdepth) with hlt | rfl
    · have hparent := offsetsBelow_sub parent parent' hlength hlt fun i hi hle => by
        have hsucc := hsame i (by rw [length_cons]; omega) hle
        rwa [path_cons (by omega), path_cons (by omega)] at hsucc
      have hlast := hsame (parent'.length - 1) (by rw [length_cons]; omega) (by omega)
      rw [Nat.sub_add_cancel (by omega), path_self, ← hlength, path_self] at hlast
      rw [memberOffset, memberOffset, path_cons hlt, path_cons (by omega)]
      rw [memberOffset, memberOffset] at hparent
      omega
    · rw [offsetsBelow_eq_zero le_rfl, offsetsBelow_eq_zero hlength.ge, memberOffset, memberOffset,
        path_self, hlength, path_self]
      ring

variable {stride : ℤ}

theorem add_mul_of_isChain : ∀ {first : ℤ} {offsets : List ℤ} (k : ℕ)
    (hk : k < (first :: offsets).length),
    (first :: offsets).IsChain (fun last next => stride = next - last) →
    (first :: offsets)[k] = first + k * stride
  | first, _, 0, _, _ => by simp
  | first, second :: rest, k + 1, hk, hchain => by
    rw [isChain_cons_cons] at hchain
    rw [getElem_cons_succ, add_mul_of_isChain k (Nat.lt_of_succ_lt_succ hk) hchain.2, hchain.1]
    push_cast
    ring

theorem calcDynamicIndexStride_cases (h : calcDynamicIndexStride forest snodes = some stride) :
    (∃ snode, snodes = [snode]) ∨ ∃ depth, depthBelowLca snodes = some depth ∧
      (∀ snode ∈ snodes, snode.length = (first snodes).length) ∧ SameBelow forest snodes depth ∧
      (snodes.map (memberOffset forest depth)).IsChain fun last next => stride = next - last := by
  match snodes with
  | [snode] => exact .inl ⟨snode, rfl⟩
  | head :: second :: rest =>
    rw [calcDynamicIndexStride] at h
    split at h
    · cases h
    · rename_i hmembers
      obtain ⟨depth, hdepth, h⟩ := Option.bind_eq_some_iff.1 h
      refine .inr ⟨depth, hdepth, fun snode hsnode => ?_, ?_⟩
      · by_contra hlength
        exact hmembers ⟨snode, hsnode, .inl hlength⟩
      · dsimp only at h
        split at h
        · cases h
          assumption
        · cases h

theorem lt_of_depthBelowLca (h : depthBelowLca snodes = some depth) :
    depth < (first snodes).length :=
  mem_range.1 (mem_of_find?_eq_some h)

theorem globalPtr_eq (hdepth : depthBelowLca snodes = some depth)
    (hlength : ∀ snode ∈ snodes, snode.length = (first snodes).length)
    (hsame : SameBelow forest snodes depth) {snode : Location} (hsnode : snode ∈ snodes)
    (indices : List ℕ) : globalPtr forest snode indices =
      rowOf forest snodes snode indices + offsetsBelow forest depth snode := by
  rw [globalPtr, rowOf, hdepth]
  refine container_eq snode _ (by rw [hlength snode hsnode]; exact lt_of_depthBelowLca hdepth) ?_
  intro i hi hle
  rw [hlength snode hsnode] at hi
  exact (hsame i hi hle snode hsnode).1

/-- Up to the rows, component `k` lies `k` strides behind the first. -/
theorem globalPtr_sub (h : calcDynamicIndexStride forest snodes = some stride)
    (k : Fin snodes.length) (indices : List ℕ) :
    globalPtr forest snodes[k.1] indices - globalPtr forest (first snodes) indices =
      rowOf forest snodes snodes[k.1] indices - rowOf forest snodes (first snodes) indices +
        k * stride := by
  rcases calcDynamicIndexStride_cases h with ⟨snode, rfl⟩ | ⟨depth, hdepth, hlength, hsame, hchain⟩
  · simp [first]
  · have hmem := component_mem snodes k
    have hfirst : first snodes ∈ snodes := by
      cases snodes with
      | nil => exact k.elim0
      | cons head rest => exact mem_cons_self
    have hoffsets := offsetsBelow_sub snodes[k.1] (first snodes) (hlength _ hmem)
      ((lt_of_depthBelowLca hdepth).trans_eq (hlength _ hmem).symm)
      fun i hi hle => (hsame i hi hle _ hmem).2.2
    have hstride : memberOffset forest depth snodes[k.1] =
        memberOffset forest depth (first snodes) + k * stride := by
      cases snodes with
      | nil => exact k.elim0
      | cons head rest =>
        have hk : k.1 < (rest.map (memberOffset forest depth)).length + 1 := by
          rw [length_map]
          exact k.2
        have hget := add_mul_of_isChain k hk hchain
        simp only [← map_cons, getElem_map] at hget
        exact hget
    rw [globalPtr_eq hdepth hlength hsame hmem, globalPtr_eq hdepth hlength hsame hfirst]
    omega

theorem tail_of_lowersAos {forceScalarize : Bool} {offsetsConst : List Bool}
    (h : lowersAos forest snodes forceScalarize offsetsConst = true) (k : Fin snodes.length) :
    snodes[k.1].tail = (first snodes).tail ∧ 1 < (first snodes).tail.length := by
  simp only [lowersAos, isAosMatrixOfGlobalPtr, Bool.and_eq_true, all_eq_true, decide_eq_true_eq]
    at h
  obtain ⟨htail, hdense⟩ := h.1.2 _ (getElem_mem k.2)
  exact ⟨htail, forest.one_lt_of_dense _ hdense⟩

/-- The pointer is to component `k` if and only if the component is where the lowering looks. -/
theorem lower_iff_inPlace (forest : Forest) (snodes : List Location) (forceScalarize : Bool)
    (offsetsConst : List Bool) (isConst : Bool) (k : Fin snodes.length) (indices : List ℕ) :
    lower forest snodes forceScalarize offsetsConst isConst k indices = .notDynamicIndexable ∨
        lower forest snodes forceScalarize offsetsConst isConst k indices =
          .pointer (globalPtr forest snodes[k.1] indices) ↔
      InPlace forest snodes forceScalarize offsetsConst isConst k indices := by
  rw [lower, InPlace]
  cases isConst with
  | true =>
    by_cases haos : lowersAos forest snodes forceScalarize offsetsConst = true
    · obtain ⟨htail, hlength⟩ := tail_of_lowersAos haos k
      generalize snodes[k.1] = snode at htail ⊢
      generalize (first snodes).headD 0 + k = chid
      generalize (first snodes).tail = parent at htail hlength ⊢
      obtain ⟨above, rest, rfl⟩ := exists_cons_of_length_pos (Nat.zero_lt_of_lt hlength)
      obtain ⟨child, rfl⟩ : ∃ child, snode = child :: above :: rest := by
        cases snode with
        | nil => cases htail
        | cons child parent => exact ⟨child, congrArg _ htail⟩
      by_cases hchild : chid < forest.numChildren (above :: rest)
      · simp [haos, hchild, globalPtr, container]
      · simp [haos, hchild]
    · simp [haos]
  | false =>
    rw [if_neg Bool.false_ne_true, if_neg Bool.false_ne_true]
    cases hstride : calcDynamicIndexStride forest snodes with
    | none => simp
    | some stride =>
      have hsub := globalPtr_sub hstride k indices
      simp only [Lowered.pointer.injEq, Option.some.injEq, forall_eq', reduceCtorEq, false_or]
      omega

/-- The second child of a dense node is another field. -/
theorem lower_interleaved :
    ¬∀ (forest : Forest) (snodes : List Location) (forceScalarize : Bool) (offsetsConst : List Bool)
      (isConst : Bool) (k : Fin snodes.length) (indices : List ℕ),
      lower forest snodes forceScalarize offsetsConst isConst k indices = .notDynamicIndexable ∨
        lower forest snodes forceScalarize offsetsConst isConst k indices =
          .pointer (globalPtr forest snodes[k.1] indices) := by
  intro h
  let dense : Forest :=
    { node := fun snode => { rootSNode with type := if snode = [0, 0] then .dense else .root }
      one_lt_of_dense := by simp +contextual
      isQuant := fun _ => false
      numChildren := fun _ => 3
      cellSizeBytes := fun _ => 12
      offsetBytesInParentCell := fun snode => if 1 < snode.length then 4 * snode.headD 0 else 0
      offset_root := by simp
      root := fun _ => 0
      lookupElement := fun _ container _ => container }
  have hplace := h dense [[0, 0, 0], [2, 0, 0]] false [true] true 1 []
  simp [lower, lowersAos, isAosMatrixOfGlobalPtr, globalPtr, container, dense, first] at hplace

end Quadrants.MatrixPtr
