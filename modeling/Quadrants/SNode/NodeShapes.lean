import Quadrants.Library.MixedRadix
import Quadrants.SNode.Addressing

/-!
What the extractors of the nodes on a path say: the shapes of each level, and when their products
are the numbers of elements that are counted from the root.
-/

namespace Quadrants.Addressing

open Quadrants.Library.MixedRadix List

theorem nodup_allAxes : allAxes.Nodup :=
  nodup_finRange _

@[simp] theorem mem_allAxes (a : Axis) : a ∈ allAxes :=
  mem_finRange a

namespace SNode

def shape (s : SNode) (a : Axis) : ℕ :=
  (s.extractors a).shape

def numElements (s : SNode) (a : Axis) : ℕ :=
  (s.extractors a).numElementsFromRoot

def Active (s : SNode) (a : Axis) : Prop :=
  (s.extractors a).active = true

/-- What holds of a node while its axes are divided, where `base` is the new child. -/
structure Divided (base node : SNode) : Prop where
  type : node.type = base.type
  pos : ∀ a, 0 < node.shape a
  inactive : ∀ a, ¬node.Active a → node.shape a = 1 ∧ node.numElements a = base.numElements a
  nodup : node.physicalIndexPosition.Nodup
  mem : ∀ a, a ∈ node.physicalIndexPosition ↔ a ∈ base.physicalIndexPosition ∨ node.Active a
  le : ∀ a, base.numElements a * node.shape a ≤ node.numElements a

section Divide

variable {base node node' : SNode} {ind a : Axis} {size : ℕ} {divisions : List (Axis × ℤ)}

@[simp] theorem shape_divide (node : SNode) (ind a : Axis) (size : ℕ) :
    (node.divide ind size).shape a = if a = ind then size else node.shape a := by
  by_cases h : a = ind
  · simp [divide, shape, h]
  · simp [divide, shape, h]

@[simp] theorem numElements_divide (node : SNode) (ind a : Axis) (size : ℕ) :
    (node.divide ind size).numElements a =
      if a = ind then node.numElements ind * size else node.numElements a := by
  by_cases h : a = ind
  · simp [divide, numElements, h]
  · simp [divide, numElements, h]

@[simp] theorem active_divide (node : SNode) (ind a : Axis) (size : ℕ) :
    (node.divide ind size).Active a ↔ a = ind ∨ node.Active a := by
  by_cases h : a = ind
  · simp [divide, Active, h]
  · simp [divide, Active, h]

theorem mem_divide (node : SNode) (ind a : Axis) (size : ℕ) :
    a ∈ (node.divide ind size).physicalIndexPosition ↔
      a = ind ∨ a ∈ node.physicalIndexPosition := by
  by_cases h : ind ∈ node.physicalIndexPosition
  · simp only [divide, if_pos h]
    exact ⟨Or.inr, fun hor => hor.elim (fun heq => heq ▸ h) id⟩
  · simp [divide, if_neg h, or_comm]

theorem nodup_divide (h : node.physicalIndexPosition.Nodup) (ind : Axis) (size : ℕ) :
    (node.divide ind size).physicalIndexPosition.Nodup := by
  by_cases hmem : ind ∈ node.physicalIndexPosition
  · simpa only [divide, if_pos hmem] using h
  · simp only [divide, if_neg hmem]
    refine nodup_append.2 ⟨h, nodup_singleton ind, fun a ha b hb heq => ?_⟩
    rw [mem_singleton.1 hb] at heq
    exact hmem (heq ▸ ha)

theorem Divided.le_numElements (h : Divided base node) (a : Axis) :
    base.numElements a ≤ node.numElements a :=
  (Nat.le_mul_of_pos_right _ (h.pos a)).trans (h.le a)

theorem Divided.divide (h : Divided base node) (ind : Axis) (hsize : 0 < size) :
    Divided base (node.divide ind size) where
  type := h.type
  pos a := by
    rw [shape_divide]
    split
    · exact hsize
    · exact h.pos a
  inactive a ha := by
    obtain ⟨hne, hinactive⟩ := not_or.1 (mt (active_divide node ind a size).2 ha)
    rw [shape_divide, numElements_divide, if_neg hne, if_neg hne]
    exact h.inactive a hinactive
  nodup := nodup_divide h.nodup ind size
  mem a := by
    rw [mem_divide, active_divide, h.mem a, or_left_comm]
  le a := by
    rw [shape_divide, numElements_divide]
    split
    · next heq => exact heq ▸ Nat.mul_le_mul_right _ (h.le_numElements a)
    · exact h.le a

theorem divideAll_cons {ind : Axis} {size : ℤ} {rest : List (Axis × ℤ)}
    (h : node.divideAll ((ind, size) :: rest) = some node') :
    0 < size.toNat ∧ (size.toNat = 1 → size = 1) ∧
      (node.divide ind size.toNat).divideAll rest = some node' := by
  rw [divideAll] at h
  split at h
  · contradiction
  · exact ⟨by omega, by omega, h⟩

theorem Divided.divideAll (h : Divided base node)
    (hall : node.divideAll divisions = some node') : Divided base node' := by
  induction divisions generalizing node with
  | nil => exact Option.some.inj hall ▸ h
  | cons division rest ih =>
    obtain ⟨hpos, -, hrest⟩ := divideAll_cons hall
    exact ih (h.divide division.1 hpos) hrest

def Excess (base node : SNode) (a : Axis) : Prop :=
  base.numElements a * node.shape a < node.numElements a

theorem Excess.divideAll (hd : Divided base node) (h : Excess base node a)
    (hall : node.divideAll divisions = some node') : Excess base node' a := by
  induction divisions generalizing node with
  | nil => exact Option.some.inj hall ▸ h
  | cons division rest ih =>
    obtain ⟨hpos, -, hrest⟩ := divideAll_cons hall
    refine ih (hd.divide division.1 hpos) ?_ hrest
    rw [Excess, shape_divide, numElements_divide]
    split
    · next heq =>
        have hlt := (Nat.le_mul_of_pos_right _ (hd.pos a)).trans_lt h
        exact heq ▸ Nat.mul_lt_mul_of_pos_right hlt hpos
    · exact h

theorem excess_of_again (hd : Divided base node) (hlt : base.numElements a < node.numElements a)
    (ha : a ∈ divisions.map Prod.fst) (hall : node.divideAll divisions = some node') :
    Excess base node' a := by
  induction divisions generalizing node with
  | nil => exact absurd ha not_mem_nil
  | cons division rest ih =>
    obtain ⟨hpos, -, hrest⟩ := divideAll_cons hall
    have hstep := hd.divide division.1 hpos
    by_cases heq : a = division.1
    · refine Excess.divideAll hstep ?_ hrest
      rw [Excess, shape_divide, numElements_divide, if_pos heq, if_pos heq, ← heq]
      exact Nat.mul_lt_mul_of_pos_right hlt hpos
    · refine ih hstep ?_ ((mem_cons.1 ha).resolve_left heq) hrest
      rwa [numElements_divide, if_neg heq]

theorem exists_excess (hd : Divided base node) (hpos : ∀ a, 0 < base.numElements a)
    (hnot : ¬DivideOnce divisions) (hall : node.divideAll divisions = some node') :
    ∃ a, Excess base node' a := by
  induction divisions generalizing node with
  | nil => exact absurd List.Pairwise.nil hnot
  | cons division rest ih =>
    obtain ⟨hsize, hone, hrest⟩ := divideAll_cons hall
    have hstep := hd.divide division.1 hsize
    by_cases htail : DivideOnce rest
    · have hhead : ¬∀ second ∈ rest, division.1 = second.1 → division.2 = 1 :=
        fun h => hnot (pairwise_cons.2 ⟨h, htail⟩)
      push Not at hhead
      obtain ⟨second, hmem, heq, hne⟩ := hhead
      have hmany : 1 < division.2.toNat := by
        omega
      refine ⟨division.1, excess_of_again hstep ?_ (mem_map.2 ⟨second, hmem, heq.symm⟩) hrest⟩
      rw [numElements_divide, if_pos rfl]
      exact ((Nat.lt_mul_iff_one_lt_right (hpos _)).2 hmany).trans_le
        (Nat.mul_le_mul_right _ (hd.le_numElements _))
    · exact ih hstep htail hrest

theorem numElements_of_divideOnce (hnum : ∀ a, node.numElements a =
      base.numElements a * node.shape a)
    (hshape : ∀ division ∈ divisions, node.shape division.1 = 1) (honce : DivideOnce divisions)
    (hall : node.divideAll divisions = some node') (a : Axis) :
    node'.numElements a = base.numElements a * node'.shape a := by
  induction divisions generalizing node with
  | nil => exact Option.some.inj hall ▸ hnum a
  | cons division rest ih =>
    obtain ⟨hsize, -, hrest⟩ := divideAll_cons hall
    obtain ⟨hfirst, htail⟩ := pairwise_cons.1 honce
    refine ih (fun b => ?_) (fun second hsecond => ?_) htail hrest
    · rw [shape_divide, numElements_divide]
      split
      · next heq =>
          rw [hnum division.1, hshape division mem_cons_self, heq, Nat.mul_one]
      · exact hnum b
    · rw [shape_divide]
      split
      · next heq => rw [hfirst second hsecond heq.symm, Int.toNat_one]
      · exact hshape second (mem_cons_of_mem _ hsecond)

end Divide

structure Shaped (s : SNode) : Prop where
  pos : ∀ a, 0 < s.shape a
  inactive : ∀ a, ¬s.Active a → s.shape a = 1
  accShape : ∀ a, (s.extractors a).accShape = place s.shape allAxes a
  cells : s.numCellsPerContainer = capacity s.shape allAxes

theorem inferExtractors_fst {l : List Axis} (hl : l.Nodup) (extractors : Axis → AxisExtractor)
    (a : Axis) : (inferExtractors extractors l).1 a = { extractors a with
      accShape := if a ∈ l then place (fun b => (extractors b).shape) l a
        else (extractors a).accShape } ∧
    (inferExtractors extractors l).2 = capacity (fun b => (extractors b).shape) l := by
  induction l generalizing a with
  | nil => simp [inferExtractors]
  | cons i rest ih =>
    obtain ⟨hi, hrest⟩ := nodup_cons.1 hl
    have hshape : ((inferExtractors extractors rest).1 i).shape = (extractors i).shape := by
      rw [(ih hrest i).1]
    constructor
    · by_cases ha : a = i
      · subst ha
        simp [inferExtractors, place, (ih hrest a).1, (ih hrest a).2]
      · simp [inferExtractors, place, ha, (ih hrest a).1]
    · rw [inferExtractors, capacity_cons, hshape, (ih hrest i).2, Nat.mul_comm]

theorem inferred_extractors (node : SNode) (a : Axis) : node.inferred.extractors a =
      { node.extractors a with accShape := place node.shape allAxes a } := by
  have h := (inferExtractors_fst nodup_allAxes node.extractors a).1
  rwa [if_pos (mem_allAxes a)] at h

theorem shape_inferred (node : SNode) : node.inferred.shape = node.shape := by
  funext a
  rw [shape, inferred_extractors]
  rfl

theorem numElements_inferred (node : SNode) : node.inferred.numElements = node.numElements := by
  funext a
  rw [numElements, inferred_extractors]
  rfl

theorem active_inferred (node : SNode) (a : Axis) : node.inferred.Active a ↔ node.Active a := by
  rw [Active, inferred_extractors]
  rfl

theorem Divided.shaped {base node : SNode} (h : Divided base node) : node.inferred.Shaped where
  pos a := shape_inferred node ▸ h.pos a
  inactive a ha := by
    rw [shape_inferred]
    exact (h.inactive a (mt (active_inferred node a).2 ha)).1
  accShape a := by
    rw [inferred_extractors, shape_inferred]
  cells := by
    exact (inferExtractors_fst nodup_allAxes node.extractors 0).2

end SNode

theorem eq_filter_allAxes {l : List Axis} (hsorted : l.Pairwise (· < ·)) {p : Axis → Bool}
    (hp : ∀ a, a ∈ l ↔ p a = true) : l = allAxes.filter p := by
  refine hsorted.eq_of_mem_iff ?_ fun a => ?_
  · exact (sortedLT_finRange _).pairwise.sublist filter_sublist
  · simp [hp a]

theorem pairwise_lt_insertionSort {l : List Axis} (h : l.Nodup) :
    (l.insertionSort (· ≤ ·)).Pairwise (· < ·) := by
  have hnodup := (perm_insertionSort (· ≤ ·) l).nodup_iff.2 h
  exact (pairwise_insertionSort (· ≤ ·) l).imp₂ (fun a b hle hne => lt_of_le_of_ne hle hne)
    hnodup

section Chain

variable {leaf node : SNode} {ancestors : List SNode} {c : Creation}

def shapes (chain : List SNode) : List (Axis → ℕ) :=
  chain.reverse.map SNode.shape

theorem extent_shapes_cons (node : SNode) (chain : List SNode) (a : Axis) :
    extent (shapes (node :: chain)) a = extent (shapes chain) a * node.shape a := by
  simp [shapes, extent_append]

structure WellFormed (leaf : SNode) (ancestors : List SNode) : Prop where
  shaped : ∀ s ∈ leaf :: ancestors, s.Shaped
  physical : leaf.physicalIndexPosition =
    allAxes.filter fun a => (leaf :: ancestors).any fun s => (s.extractors a).active
  rooted : ∃ nodes, leaf :: ancestors = nodes ++ [rootSNode] ∧ ∀ s ∈ nodes, s.type ≠ .root
  unused : ∀ a, a ∉ leaf.physicalIndexPosition → leaf.numElements a = 1
  le : ∀ a, extent (shapes (leaf :: ancestors)) a ≤ leaf.numElements a

namespace WellFormed

theorem mem_physical (h : WellFormed leaf ancestors) (a : Axis) :
    a ∈ leaf.physicalIndexPosition ↔ ∃ s ∈ leaf :: ancestors, s.Active a := by
  rw [h.physical]
  simp [SNode.Active]

theorem nodup_physical (h : WellFormed leaf ancestors) : leaf.physicalIndexPosition.Nodup := by
  rw [h.physical]
  exact nodup_allAxes.filter _

theorem positive (h : WellFormed leaf ancestors) : Positive (shapes (leaf :: ancestors)) := by
  intro shape hshape
  obtain ⟨s, hs, rfl⟩ := mem_map.1 hshape
  exact (h.shaped s (mem_reverse.1 hs)).pos

theorem numElements_pos (h : WellFormed leaf ancestors) (a : Axis) : 0 < leaf.numElements a :=
  (h.positive.extent_pos a).trans_le (h.le a)

end WellFormed

theorem wellFormed_root : WellFormed rootSNode [] where
  shaped s hs := by
    rw [mem_singleton.1 hs]
    exact ⟨fun _ => Nat.one_pos, fun _ _ => rfl, fun a => (place_one allAxes a).symm,
      (capacity_one allAxes).symm⟩
  physical := rfl
  rooted := ⟨[], rfl, fun s hs => absurd hs not_mem_nil⟩
  unused _ _ := rfl
  le _ := le_rfl

theorem divided_insertChildren (h : WellFormed leaf ancestors) (type : SNodeType) :
    SNode.Divided (leaf.insertChildren type) (leaf.insertChildren type) where
  type := rfl
  pos _ := Nat.one_pos
  inactive _ _ := ⟨rfl, rfl⟩
  nodup := h.nodup_physical
  mem a := ⟨Or.inl, fun hor => hor.elim id fun hactive => absurd hactive (by simp [SNode.Active,
    SNode.insertChildren])⟩
  le a := (Nat.mul_one _).le

theorem wellFormed_child (h : WellFormed leaf ancestors) {type : SNodeType}
    (htype : type ≠ .root) (hd : SNode.Divided (leaf.insertChildren type) node) :
    WellFormed node.inferred (leaf :: ancestors) where
  shaped s hs := by
    rcases mem_cons.1 hs with rfl | hmem
    · exact hd.shaped
    · exact h.shaped s hmem
  physical := by
    refine eq_filter_allAxes (pairwise_lt_insertionSort hd.nodup) fun a => ?_
    have hmem : a ∈ node.physicalIndexPosition.insertionSort (· ≤ ·) ↔
        a ∈ leaf.physicalIndexPosition ∨ node.Active a :=
      (mem_insertionSort _).trans (hd.mem a)
    have hactive := node.active_inferred a
    rw [hmem, h.mem_physical, any_cons, Bool.or_eq_true, any_eq_true, or_comm]
    exact or_congr hactive.symm Iff.rfl
  rooted := by
    obtain ⟨nodes, heq, hnodes⟩ := h.rooted
    refine ⟨node.inferred :: nodes, by rw [heq, cons_append], fun s hs => ?_⟩
    rcases mem_cons.1 hs with rfl | hmem
    · exact fun hroot => htype (hd.type.symm.trans hroot)
    · exact hnodes s hmem
  unused a ha := by
    have hmem : a ∉ node.physicalIndexPosition := mt (mem_insertionSort _).2 ha
    rw [hd.mem, not_or] at hmem
    rw [SNode.numElements_inferred, (hd.inactive a hmem.2).2]
    exact h.unused a hmem.1
  le a := by
    rw [extent_shapes_cons, SNode.shape_inferred, SNode.numElements_inferred]
    exact (Nat.mul_le_mul_right _ (h.le a)).trans (hd.le a)

theorem inferred_insertChildren (h : WellFormed leaf ancestors) (type : SNodeType) :
    (leaf.insertChildren type).inferred = leaf.insertChildren type := by
  have hsorted : leaf.physicalIndexPosition.Pairwise (· ≤ ·) := by
    rw [h.physical]
    exact ((sortedLT_finRange _).pairwise.sublist filter_sublist).imp le_of_lt
  have hextractors :
      (leaf.insertChildren type).inferred.extractors = (leaf.insertChildren type).extractors := by
    funext a
    rw [SNode.inferred_extractors]
    exact congrArg (AxisExtractor.mk _ _ · _) (place_one allAxes a)
  have hcells : (leaf.insertChildren type).inferred.numCellsPerContainer = 1 :=
    (SNode.inferExtractors_fst nodup_allAxes _ 0).2.trans (capacity_one allAxes)
  have hphysical : leaf.physicalIndexPosition.insertionSort (· ≤ ·) =
      leaf.physicalIndexPosition :=
    hsorted.insertionSort_eq
  rw [SNode.inferred] at hextractors hcells ⊢
  simp only at hextractors hcells
  rw [hextractors, hcells]
  simp only [SNode.insertChildren, hphysical]

theorem wellFormed_place (h : WellFormed leaf ancestors) :
    WellFormed (leaf.insertChildren .place) (leaf :: ancestors) := by
  have hd := divided_insertChildren h .place
  rw [← inferred_insertChildren h]
  exact wellFormed_child h (by decide) hd

theorem createNode_cases (h : createNode (leaf :: ancestors) c = some node) :
    ∃ divided, (leaf.insertChildren c.type).divideAll (c.axes.zip c.broadcastSizes) =
        some divided ∧ node = divided.inferred ∧ c.type ≠ .root ∧
      (c.type = .dynamic → node.acceptsDynamic (leaf :: ancestors) = true) := by
  rw [createNode] at h
  split at h
  · contradiction
  split at h
  · contradiction
  split at h
  · contradiction
  next hroot =>
  split at h
  · contradiction
  next divided hdivided =>
  split at h
  · contradiction
  next hdynamic =>
  obtain rfl := Option.some.inj h
  refine ⟨divided, hdivided, rfl, hroot, fun htype => ?_⟩
  exact Bool.not_eq_false _ ▸ fun hfalse => hdynamic ⟨htype, hfalse⟩

theorem wellFormed_createNode (h : WellFormed leaf ancestors)
    (hnode : createNode (leaf :: ancestors) c = some node) :
    WellFormed node (leaf :: ancestors) := by
  obtain ⟨divided, hdivided, rfl, htype, -⟩ := createNode_cases hnode
  exact wellFormed_child h htype ((divided_insertChildren h c.type).divideAll hdivided)

/-- The elements that are counted from the root are those of the levels. -/
def Tight (leaf : SNode) (ancestors : List SNode) : Prop :=
  ∀ a, extent (shapes (leaf :: ancestors)) a = leaf.numElements a

theorem tight_createNode_iff (h : WellFormed leaf ancestors)
    (hnode : createNode (leaf :: ancestors) c = some node) :
    Tight node (leaf :: ancestors) ↔ Tight leaf ancestors ∧ c.DividesOnce := by
  obtain ⟨divided, hdivided, rfl, -, -⟩ := createNode_cases hnode
  have hbase := divided_insertChildren h c.type
  have hd := hbase.divideAll hdivided
  have hiff : Tight divided.inferred (leaf :: ancestors) ↔
      ∀ a, extent (shapes (leaf :: ancestors)) a * divided.shape a = divided.numElements a := by
    refine forall_congr' fun a => ?_
    rw [extent_shapes_cons, SNode.shape_inferred, SNode.numElements_inferred]
  rw [hiff]
  constructor
  · intro htight
    constructor
    · intro a
      by_contra hne
      have hlt : extent (shapes (leaf :: ancestors)) a < leaf.numElements a :=
        lt_of_le_of_ne (h.le a) hne
      have hless := (Nat.mul_lt_mul_of_pos_right hlt (hd.pos a)).trans_le (hd.le a)
      exact hless.ne (htight a)
    · by_contra hnot
      obtain ⟨a, ha⟩ := SNode.exists_excess hbase h.numElements_pos hnot hdivided
      exact ((Nat.mul_le_mul_right _ (h.le a)).trans_lt ha).ne (htight a)
  · rintro ⟨htight, honce⟩ a
    rw [htight a, SNode.numElements_of_divideOnce (fun b => (Nat.mul_one _).symm)
      (fun _ _ => rfl) honce hdivided a]
    rfl

theorem wellFormed_createBelow {creations : List Creation} {chain : List SNode}
    (h : WellFormed leaf ancestors)
    (hchain : createBelow (leaf :: ancestors) creations = some chain) :
    ∃ leaf' ancestors', chain = leaf' :: ancestors' ∧ WellFormed leaf' ancestors' ∧
      (Tight leaf' ancestors' ↔ Tight leaf ancestors ∧ ∀ c ∈ creations, c.DividesOnce) := by
  induction creations generalizing leaf ancestors with
  | nil =>
    obtain rfl := Option.some.inj hchain
    exact ⟨leaf, ancestors, rfl, h, by simp⟩
  | cons c rest ih =>
    rw [createBelow] at hchain
    split at hchain
    · contradiction
    · next node hnode =>
        obtain ⟨leaf', ancestors', heq, hwell, hiff⟩ :=
          ih (wellFormed_createNode h hnode) hchain
        refine ⟨leaf', ancestors', heq, hwell, ?_⟩
        rw [hiff, tight_createNode_iff h hnode, forall_mem_cons, and_assoc]

theorem wellFormed_createChain {creations : List Creation} {leaf : SNode} {ancestors : List SNode}
    (h : createChain creations = some (leaf :: ancestors)) :
    WellFormed leaf ancestors ∧ (Tight leaf ancestors ↔ ∀ c ∈ creations, c.DividesOnce) := by
  obtain ⟨leaf', ancestors', heq, hwell, hiff⟩ := wellFormed_createBelow wellFormed_root h
  obtain ⟨rfl, rfl⟩ := List.cons.inj heq
  have hroot : Tight rootSNode [] := fun _ => rfl
  exact ⟨hwell, hiff.trans (and_iff_right hroot)⟩

end Chain

end Quadrants.Addressing
