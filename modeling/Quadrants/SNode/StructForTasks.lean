import Mathlib.Data.List.Basic
import Mathlib.Order.Lattice
import Mathlib.Data.Nat.Notation
import Mathlib.Tactic.Common

/-!
The element lists of the LLVM runtime on CPUs: which pieces of which containers
`element_listgen_root` and `element_listgen_nonroot` append. The numbers do not overflow.
-/

namespace Quadrants.SNode

open List

def listgenMaxElementSize : ℕ :=
  1024

abbrev Container : Type :=
  List ℕ

structure CellRange where
  element : Container
  lower : ℕ
  upper : ℕ
  deriving DecidableEq

namespace CellRange

def Has (r : CellRange) (c : Container) (i : ℕ) : Prop :=
  r.element = c ∧ r.lower ≤ i ∧ i < r.upper

def Disjoint (r r' : CellRange) : Prop :=
  ∀ c i, r.Has c i → ¬r'.Has c i

end CellRange

structure Element (π : Type) extends CellRange where
  pcoord : π

structure StructMeta (π : Type) where
  getNumElements : Container → ℕ
  isActive : Container → ℕ → Bool
  refineCoordinates : π → ℕ → π

variable {π : Type}

def pieces (numElements elementSize lower : ℕ) : List (ℕ × ℕ) :=
  if lower < numElements ∧ 0 < elementSize then
    (lower, min (lower + elementSize) numElements) ::
      pieces numElements elementSize (lower + elementSize)
  else []
termination_by numElements - lower

def rootPieces (numElements elementSize c : ℕ) : List (ℕ × ℕ) :=
  if c * elementSize < numElements ∧ 0 < elementSize then
    (c * elementSize, min ((c + 1) * elementSize) numElements) ::
      rootPieces numElements elementSize (c + 1)
  else []
termination_by numElements - c * elementSize
decreasing_by
  rw [Nat.add_mul]
  omega

def elementListgenRoot (child : StructMeta π) (parentList : List (Element π)) :
    List (Element π) :=
  match parentList with
  | [] => []
  | element :: _ =>
    let chElement := 0 :: element.element
    let chNumElements := child.getNumElements chElement
    let chElementSize := min chNumElements listgenMaxElementSize
    (rootPieces chNumElements chElementSize 0).map fun bounds =>
      ⟨⟨chElement, bounds.1, bounds.2⟩, element.pcoord⟩

def listChild (parent child : StructMeta π) (element : Element π) (j : ℕ) : List (Element π) :=
  let refinedCoord := parent.refineCoordinates element.pcoord j
  if parent.isActive element.element j then
    let chElement := j :: element.element
    let chNumElements := child.getNumElements chElement
    let chElementSize := min chNumElements listgenMaxElementSize
    (pieces chNumElements chElementSize 0).map fun bounds =>
      ⟨⟨chElement, bounds.1, bounds.2⟩, refinedCoord⟩
  else []

def elementListgenNonroot (parent child : StructMeta π) (parentList : List (Element π)) :
    List (Element π) :=
  parentList.flatMap fun element =>
    (range' element.lower (element.upper - element.lower)).flatMap fun j =>
      listChild parent child element j

inductive Built : StructMeta π → List (Element π) → Prop
  | root (child : StructMeta π) (pcoord : π) :
      Built child (elementListgenRoot child [⟨⟨[], 0, 1⟩, pcoord⟩])
  | nonroot {parent : StructMeta π} {list : List (Element π)} (child : StructMeta π) :
      Built parent list → Built child (elementListgenNonroot parent child list)

section Pieces

variable {numElements elementSize : ℕ}

theorem rootPieces_eq (numElements elementSize c : ℕ) :
    rootPieces numElements elementSize c = pieces numElements elementSize (c * elementSize) := by
  fun_induction rootPieces numElements elementSize c with
  | case1 c h ih =>
    rw [pieces, if_pos h, ih, Nat.add_mul, Nat.one_mul]
  | case2 c h => rw [pieces, if_neg h]

variable {lower : ℕ}

theorem mem_pieces {bounds : ℕ × ℕ} (h : bounds ∈ pieces numElements elementSize lower) :
    lower ≤ bounds.1 ∧ bounds.1 < bounds.2 ∧ bounds.2 ≤ numElements ∧
      bounds.2 ≤ bounds.1 + elementSize := by
  fun_induction pieces numElements elementSize lower with
  | case1 lower hlt ih =>
    rcases List.mem_cons.1 h with rfl | htail
    · omega
    · have := ih htail
      omega
  | case2 lower hlt => exact absurd h List.not_mem_nil

theorem pieces_pairwise (numElements elementSize lower : ℕ) :
    (pieces numElements elementSize lower).Pairwise fun b b' => b.2 ≤ b'.1 := by
  fun_induction pieces numElements elementSize lower with
  | case1 lower hlt ih =>
    refine pairwise_cons.2 ⟨fun bounds hbounds => ?_, ih⟩
    have := mem_pieces hbounds
    omega
  | case2 lower hlt => exact List.Pairwise.nil

theorem exists_piece {i : ℕ} (hsize : 0 < elementSize) (hlower : lower ≤ i) (hi : i < numElements) :
    ∃ bounds ∈ pieces numElements elementSize lower, bounds.1 ≤ i ∧ i < bounds.2 := by
  fun_induction pieces numElements elementSize lower with
  | case1 lower hlt ih =>
    by_cases hnext : i < lower + elementSize
    · exact ⟨_, List.mem_cons_self, hlower, by simp only; omega⟩
    · obtain ⟨bounds, hmem, hbounds⟩ := ih (by omega)
      exact ⟨bounds, mem_cons_of_mem _ hmem, hbounds⟩
  | case2 lower hlt => exact absurd ⟨by omega, hsize⟩ hlt

theorem first_mem_pieces (hpos : 0 < numElements) : (0, min numElements listgenMaxElementSize) ∈
      pieces numElements (min numElements listgenMaxElementSize) 0 := by
  have hsize : 0 < min numElements listgenMaxElementSize := by
    unfold listgenMaxElementSize
    omega
  rw [pieces, if_pos ⟨hpos, hsize⟩]
  refine List.mem_cons.2 (.inl ?_)
  rw [Prod.mk.injEq]
  omega

end Pieces

/-- The elements are disjoint and small enough, and they hold all cells of their containers. -/
structure Tiled (snode : StructMeta π) (list : List (Element π)) : Prop where
  pairwise : list.Pairwise fun e e' => e.Disjoint e'.toCellRange
  upper_le : ∀ e ∈ list, e.upper ≤ snode.getNumElements e.element
  size_le : ∀ e ∈ list,
    e.upper ≤ e.lower + min (snode.getNumElements e.element) listgenMaxElementSize
  all : ∀ e ∈ list, ∀ i < snode.getNumElements e.element, ∃ e' ∈ list, e'.Has e.element i
  full : ∀ e ∈ list, ∃ e' ∈ list, e'.element = e.element ∧ e'.lower = 0 ∧
    e'.upper = min (snode.getNumElements e.element) listgenMaxElementSize

variable {list : List (Element π)} {snode : StructMeta π}

theorem Tiled.eq_of_has (h : Tiled snode list)
    {e e' : Element π} (he : e ∈ list) (he' : e' ∈ list) {c : Container} {i : ℕ} (hi : e.Has c i)
    (hi' : e'.Has c i) : e = e' := by
  obtain ⟨k, hk, rfl⟩ := List.getElem_of_mem he
  obtain ⟨k', hk', rfl⟩ := List.getElem_of_mem he'
  have hpairwise := List.pairwise_iff_getElem.1 h.pairwise
  rcases Nat.lt_trichotomy k k' with hlt | rfl | hlt
  · exact absurd hi' (hpairwise k k' hk hk' hlt c i hi)
  · rfl
  · exact absurd hi (hpairwise k' k hk' hk hlt c i hi')

theorem pieces_tiled (snode : StructMeta π) (c : Container) (pcoord : π) :
    Tiled snode ((pieces (snode.getNumElements c)
      (min (snode.getNumElements c) listgenMaxElementSize) 0).map fun bounds =>
        ⟨⟨c, bounds.1, bounds.2⟩, pcoord⟩) where
  pairwise := by
    rw [pairwise_map]
    refine (pieces_pairwise _ _ _).imp fun hle c' i hi hi' => ?_
    have := hi.2
    have := hi'.2
    simp only at *
    omega
  upper_le := by
    intro e he
    obtain ⟨bounds, hbounds, rfl⟩ := mem_map.1 he
    exact (mem_pieces hbounds).2.2.1
  size_le := by
    intro e he
    obtain ⟨bounds, hbounds, rfl⟩ := mem_map.1 he
    exact (mem_pieces hbounds).2.2.2
  all := by
    intro e he i hi
    obtain ⟨bounds, hbounds, rfl⟩ := mem_map.1 he
    have hpiece := mem_pieces hbounds
    obtain ⟨bounds', hbounds', hle, hlt⟩ :=
      @exists_piece _ (min (snode.getNumElements c) listgenMaxElementSize) 0 i
        (by omega) (Nat.zero_le i) hi
    exact ⟨_, mem_map.2 ⟨bounds', hbounds', rfl⟩, rfl, hle, hlt⟩
  full := by
    intro e he
    obtain ⟨bounds, hbounds, rfl⟩ := mem_map.1 he
    have hpiece := mem_pieces hbounds
    exact ⟨_, mem_map.2 ⟨_, first_mem_pieces (by omega), rfl⟩, rfl, rfl, rfl⟩

theorem tiled_nil (snode : StructMeta π) : Tiled snode [] where
  pairwise := List.Pairwise.nil
  upper_le := fun _ he => absurd he List.not_mem_nil
  size_le := fun _ he => absurd he List.not_mem_nil
  all := fun _ he => absurd he List.not_mem_nil
  full := fun _ he => absurd he List.not_mem_nil

theorem Tiled.flatMap {α : Type} {l : List α} {f : α → List (Element π)}
    (h : ∀ a ∈ l, Tiled snode (f a))
    (hdisjoint : l.Pairwise fun a b => ∀ e ∈ f a, ∀ e' ∈ f b, e.element ≠ e'.element) :
    Tiled snode (l.flatMap f) where
  pairwise := by
    rw [pairwise_flatMap]
    refine ⟨fun a ha => (h a ha).pairwise, hdisjoint.imp fun hne e he e' he' c i hi hi' => ?_⟩
    exact hne e he e' he' (hi.1.trans hi'.1.symm)
  upper_le := by
    intro e he
    obtain ⟨a, ha, he⟩ := mem_flatMap.1 he
    exact (h a ha).upper_le e he
  size_le := by
    intro e he
    obtain ⟨a, ha, he⟩ := mem_flatMap.1 he
    exact (h a ha).size_le e he
  all := by
    intro e he i hi
    obtain ⟨a, ha, he⟩ := mem_flatMap.1 he
    obtain ⟨e', he', hhas⟩ := (h a ha).all e he i hi
    exact ⟨e', mem_flatMap.2 ⟨a, ha, he'⟩, hhas⟩
  full := by
    intro e he
    obtain ⟨a, ha, he⟩ := mem_flatMap.1 he
    obtain ⟨e', he', hfull⟩ := (h a ha).full e he
    exact ⟨e', mem_flatMap.2 ⟨a, ha, he'⟩, hfull⟩

section Children

variable {parent child : StructMeta π}

theorem listChild_tiled (parent child : StructMeta π) (element : Element π) (j : ℕ) :
    Tiled child (listChild parent child element j) := by
  unfold listChild
  split
  · exact pieces_tiled child (j :: element.element) _
  · exact tiled_nil child

theorem element_of_mem_listChild {element e : Element π} {j : ℕ}
    (h : e ∈ listChild parent child element j) : e.element = j :: element.element := by
  unfold listChild at h
  split at h
  · obtain ⟨bounds, -, rfl⟩ := mem_map.1 h
    rfl
  · exact absurd h List.not_mem_nil

theorem elementListgenNonroot_tiled {list : List (Element π)} (h : Tiled parent list) :
    Tiled child (elementListgenNonroot parent child list) := by
  refine Tiled.flatMap (fun element _ => Tiled.flatMap
    (fun j _ => listChild_tiled parent child element j) ?_) (h.pairwise.imp ?_)
  · refine List.Pairwise.imp (fun hlt e he e' he' heq => ?_) pairwise_lt_range'
    rw [element_of_mem_listChild he, element_of_mem_listChild he'] at heq
    exact absurd (cons_eq_cons.1 heq).1 (Nat.ne_of_lt hlt)
  · intro element element' hdisjoint e he e' he' heq
    obtain ⟨j, hj, he⟩ := mem_flatMap.1 he
    obtain ⟨j', hj', he'⟩ := mem_flatMap.1 he'
    rw [element_of_mem_listChild he, element_of_mem_listChild he'] at heq
    obtain ⟨rfl, hcontainer⟩ := cons_eq_cons.1 heq
    rw [List.mem_range'_1] at hj hj'
    exact hdisjoint element.element j ⟨rfl, by omega, by omega⟩
      ⟨hcontainer.symm, by omega, by omega⟩

end Children

theorem built_tiled (h : Built snode list) : Tiled snode list := by
  induction h with
  | root child pcoord =>
    simp only [elementListgenRoot, rootPieces_eq, Nat.zero_mul]
    exact pieces_tiled child [0] pcoord
  | nonroot child _ ih => exact elementListgenNonroot_tiled ih

end Quadrants.SNode

/-!
How `parallel_struct_for` cuts the elements of a list into the ranges that the body of a struct-for
runs on, and when the ranges hold all cells.
-/

namespace Quadrants.SNode

variable {π : Type}

def listElementSize (maxNumElements : ℕ) : ℕ :=
  min maxNumElements listgenMaxElementSize

def numSplits (blockDim listElementSize : ℕ) : ℕ :=
  max 1 (listElementSize / blockDim + if listElementSize % blockDim ≠ 0 then 1 else 0)

def cpuStructForBlockHelper (list : List (Element π)) (elementSize elementSplit taskId : ℕ) :
    Option CellRange :=
  let elementId := taskId / elementSplit
  let partSize := elementSize / elementSplit
  let partId := taskId % elementSplit
  match list[elementId]? with
  | none => none
  | some e =>
    let lower := e.lower + partId * partSize
    let upper := min (e.lower + (partId + 1) * partSize) e.upper
    if lower < upper then some ⟨e.element, lower, upper⟩ else none

def parallelStructFor (list : List (Element π)) (elementSize elementSplit : ℕ) : List CellRange :=
  (List.range (list.length * elementSplit)).filterMap
    (cpuStructForBlockHelper list elementSize elementSplit)

/-- The ranges of a struct-for over an SNode with at most `maxNumElements` cells in a container. -/
def structFor (maxNumElements blockDim : ℕ) (list : List (Element π)) : List CellRange :=
  parallelStructFor list (listElementSize maxNumElements)
    (numSplits blockDim (listElementSize maxNumElements))

def VisitsEachOnce (snode : StructMeta π) (list : List (Element π)) (ranges : List CellRange) :
    Prop :=
  ranges.Pairwise CellRange.Disjoint ∧
    ∀ c i, (∃ r ∈ ranges, r.Has c i) ↔ (∃ e ∈ list, e.element = c) ∧ i < snode.getNumElements c

section Tasks

variable {list : List (Element π)} {elementSize elementSplit taskId : ℕ} {r : CellRange}

theorem blockHelper_eq_some
    (h : cpuStructForBlockHelper list elementSize elementSplit taskId = some r) :
    ∃ e, list[taskId / elementSplit]? = some e ∧ r.element = e.element ∧
      r.lower = e.lower + taskId % elementSplit * (elementSize / elementSplit) ∧
      r.upper ≤ e.lower + (taskId % elementSplit + 1) * (elementSize / elementSplit) ∧
      r.upper ≤ e.upper := by
  simp only [cpuStructForBlockHelper] at h
  split at h
  · cases h
  · next e he =>
      split at h
      · cases h
        exact ⟨e, he, rfl, rfl, min_le_left _ _, min_le_right _ _⟩
      · cases h

theorem has_of_blockHelper
    (h : cpuStructForBlockHelper list elementSize elementSplit taskId = some r) {c : Container}
    {i : ℕ} (hi : r.Has c i) : ∃ e, list[taskId / elementSplit]? = some e ∧ e.Has c i ∧
      e.lower + taskId % elementSplit * (elementSize / elementSplit) ≤ i ∧
      i < e.lower + (taskId % elementSplit + 1) * (elementSize / elementSplit) := by
  obtain ⟨e, he, helement, hlower, hupper, hupper'⟩ := blockHelper_eq_some h
  obtain ⟨rfl, hle, hlt⟩ := hi
  exact ⟨e, he, ⟨helement.symm, by omega, by omega⟩, by omega, by omega⟩

theorem blockHelper_disjoint (hpairwise : list.Pairwise fun e e' => e.Disjoint e'.toCellRange)
    {taskId' : ℕ} {r' : CellRange} (hlt : taskId < taskId')
    (h : cpuStructForBlockHelper list elementSize elementSplit taskId = some r)
    (h' : cpuStructForBlockHelper list elementSize elementSplit taskId' = some r') :
    r.Disjoint r' := by
  intro c i hi hi'
  obtain ⟨e, he, hhas, -, hupper⟩ := has_of_blockHelper h hi
  obtain ⟨e', he', hhas', hlower, -⟩ := has_of_blockHelper h' hi'
  rcases Nat.lt_or_eq_of_le (Nat.div_le_div_right (c := elementSplit) hlt.le) with hdiv | hdiv
  · obtain ⟨hid, rfl⟩ := List.getElem?_eq_some_iff.1 he
    obtain ⟨hid', rfl⟩ := List.getElem?_eq_some_iff.1 he'
    exact List.pairwise_iff_getElem.1 hpairwise _ _ hid hid' hdiv c i hhas hhas'
  · -- two parts of one element
    rw [hdiv] at he
    cases he.symm.trans he'
    have hmod : taskId % elementSplit + 1 ≤ taskId' % elementSplit := by
      have := Nat.div_add_mod taskId elementSplit
      have := Nat.div_add_mod taskId' elementSplit
      rw [hdiv] at *
      omega
    have := Nat.mul_le_mul_right (elementSize / elementSplit) hmod
    omega

theorem parallelStructFor_pairwise
    (hpairwise : list.Pairwise fun e e' => e.Disjoint e'.toCellRange) :
    (parallelStructFor list elementSize elementSplit).Pairwise CellRange.Disjoint := by
  refine List.Pairwise.filterMap _ ?_ List.pairwise_lt_range
  intro taskId taskId' hlt r h r' h'
  exact blockHelper_disjoint hpairwise hlt h h'

theorem parallelStructFor_has_iff (hsplit : 0 < elementSplit) (c : Container) (i : ℕ) :
    (∃ r ∈ parallelStructFor list elementSize elementSplit, r.Has c i) ↔
      ∃ e ∈ list, e.Has c i ∧ i < e.lower + elementSplit * (elementSize / elementSplit) := by
  constructor
  · rintro ⟨r, hr, hi⟩
    obtain ⟨taskId, -, h⟩ := List.mem_filterMap.1 hr
    obtain ⟨e, he, hhas, -, hupper⟩ := has_of_blockHelper h hi
    refine ⟨e, List.mem_of_getElem? he, hhas, ?_⟩
    have hle : (taskId % elementSplit + 1) * (elementSize / elementSplit) ≤
        elementSplit * (elementSize / elementSplit) :=
      Nat.mul_le_mul_right _ (Nat.mod_lt taskId hsplit)
    omega
  · rintro ⟨e, he, ⟨rfl, hle, hlt⟩, hbehind⟩
    obtain ⟨elementId, hid, rfl⟩ := List.getElem_of_mem he
    generalize hsize : elementSize / elementSplit = partSize at hbehind
    -- the part that holds the cell
    have hpos : 0 < partSize := Nat.pos_of_ne_zero fun hzero => by
      rw [hzero] at hbehind
      omega
    generalize hpart : (i - list[elementId].lower) / partSize = partId
    have hpartLt : partId < elementSplit := by
      rw [← hpart, Nat.div_lt_iff_lt_mul hpos]
      omega
    have hlow : partId * partSize ≤ i - list[elementId].lower := by
      rw [← hpart]
      exact Nat.div_mul_le_self _ _
    have hup : i - list[elementId].lower < (partId + 1) * partSize := by
      rw [← hpart, Nat.mul_comm]
      exact Nat.lt_mul_div_succ _ hpos
    have hdiv : (elementId * elementSplit + partId) / elementSplit = elementId := by
      rw [Nat.mul_comm, Nat.mul_add_div hsplit, Nat.div_eq_of_lt hpartLt, Nat.add_zero]
    have hmod : (elementId * elementSplit + partId) % elementSplit = partId := by
      rw [Nat.mul_comm, Nat.mul_add_mod, Nat.mod_eq_of_lt hpartLt]
    have htask : elementId * elementSplit + partId < list.length * elementSplit := by
      have hle : (elementId + 1) * elementSplit ≤ list.length * elementSplit :=
        Nat.mul_le_mul_right _ hid
      rw [Nat.succ_mul] at hle
      omega
    refine ⟨⟨list[elementId].element, list[elementId].lower + partId * partSize,
      min (list[elementId].lower + (partId + 1) * partSize) list[elementId].upper⟩,
      List.mem_filterMap.2 ⟨_, List.mem_range.2 htask, ?_⟩, rfl, ?_, ?_⟩
    · simp only [cpuStructForBlockHelper, hdiv, hmod, hsize, List.getElem?_eq_getElem hid]
      exact if_pos (by omega)
    · simp only
      omega
    · simp only
      omega

end Tasks

theorem numSplits_pos (blockDim size : ℕ) : 0 < numSplits blockDim size :=
  lt_of_lt_of_le Nat.one_pos (le_max_left _ _)

def oneContainer (numElements : ℕ) : StructMeta Unit :=
  ⟨fun _ => numElements, fun _ _ => true, fun p _ => p⟩

def oneContainerList (numElements : ℕ) : List (Element Unit) :=
  elementListgenRoot (oneContainer numElements) [⟨⟨[], 0, 1⟩, ()⟩]

end Quadrants.SNode
