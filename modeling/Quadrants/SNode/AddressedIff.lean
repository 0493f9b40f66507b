import Quadrants.SNode.AddressingExact

/-!
The cells of a node are addressed by its index tuples exactly when no level gives an axis a size
above one and then a size again.
-/

namespace Quadrants.Addressing

open Quadrants.Library.MixedRadix List Function Prod

variable {leaf : SNode} {ancestors : List SNode}

section Pointers

theorem exists_map_eq {r : Axis → ℕ → Prop} {axes : List Axis} {indices : List ℕ}
    (haxes : axes.Nodup) (h : List.Forall₂ r axes indices) :
    ∃ x : Axis → ℕ, indices = axes.map x ∧ (∀ a ∈ axes, r a (x a)) ∧ ∀ a ∉ axes, x a = 0 := by
  induction h with
  | nil => exact ⟨fun _ => 0, rfl, fun a ha => absurd ha not_mem_nil, fun _ _ => rfl⟩
  | @cons a index axes indices hr hrest ih =>
    obtain ⟨hnot, haxes⟩ := nodup_cons.1 haxes
    obtain ⟨x, rfl, hx, hzero⟩ := ih haxes
    refine ⟨update x a index, ?_, ?_, ?_⟩
    · rw [map_cons, update_self]
      refine congrArg _ (map_congr_left fun b hb => ?_)
      rw [update_of_ne (ne_of_mem_of_not_mem hb hnot)]
    · intro b hb
      by_cases heq : b = a
      · rwa [heq, update_self]
      · rw [update_of_ne heq]
        exact hx b ((mem_cons.1 hb).resolve_left heq)
    · intro b hb
      obtain ⟨hne, hb⟩ := not_or.1 (mt mem_cons.2 hb)
      rw [update_of_ne hne, hzero b hb]

theorem inBounds_map_iff (leaf : SNode) (x : Axis → ℕ) :
    leaf.InBounds (leaf.physicalIndexPosition.map x) ↔
      ∀ a ∈ leaf.physicalIndexPosition, x a < leaf.numElements a := by
  rw [SNode.InBounds, forall₂_map_right_iff, forall₂_same]
  rfl

theorem run_cell (leaf : SNode) (ancestors : List SNode) (x : Axis → ℕ) (isBitVectorized : Bool) :
    run (leaf :: ancestors) (leaf.physicalIndexPosition.map x) true isBitVectorized =
      runLevels isBitVectorized (indexed leaf.physicalIndexPosition x) none
        (leaf :: ancestors).reverse ⟨totalShape (leaf :: ancestors).reverse, fun _ => true⟩ := by
  have htake : (leaf :: ancestors).reverse.take ((leaf :: ancestors).reverse.length - 1 + 1) =
      (leaf :: ancestors).reverse :=
    take_of_length_le (by omega)
  rw [run]
  simp only [if_true, htake, getLast?_reverse, head?_cons, zip_map_self]

theorem run_child (child leaf : SNode) (ancestors : List SNode) (x : Axis → ℕ)
    (isBitVectorized : Bool) :
    run (child :: leaf :: ancestors) (leaf.physicalIndexPosition.map x) false isBitVectorized =
      runLevels isBitVectorized (indexed leaf.physicalIndexPosition x) none
        (leaf :: ancestors).reverse
        ⟨totalShape (child :: leaf :: ancestors).reverse, fun _ => true⟩ := by
  have htake : (child :: leaf :: ancestors).reverse.take
      ((child :: leaf :: ancestors).reverse.length - 1 + 0) = (leaf :: ancestors).reverse := by
    rw [reverse_cons, take_left']
    simp
  rw [run]
  simp only [Bool.false_eq_true, if_false, htake, getLast?_reverse, head?_cons, zip_map_self]

theorem shape_dynamic (h : WellFormed leaf ancestors) {c : Creation} {node : SNode}
    (htype : c.type = .dynamic) (hnode : createNode (leaf :: ancestors) c = some node) {a : Axis}
    (ha : a ∈ leaf.physicalIndexPosition) : node.shape a = 1 := by
  obtain ⟨s, hs, hactive⟩ := (h.mem_physical a).1 ha
  obtain ⟨-, -, -, -, haccepts⟩ := createNode_cases hnode
  have hshaped := (wellFormed_createNode h hnode).shaped node mem_cons_self
  refine hshaped.inactive a fun hnodeActive => ?_
  have hall := (Bool.and_eq_true _ _ ▸ haccepts htype).1
  have hothers := all_eq_true.1 hall a (mem_allAxes a)
  rw [hnodeActive, Bool.not_true] at hothers
  have := all_eq_true.1 hothers s hs
  rw [hactive] at this
  contradiction

variable {hasSNodeOp : Bool} {pointer : List SNode} {x : Axis → ℕ}

theorem exists_run_eq (h : WellFormed leaf ancestors)
    (hp : Pointer (leaf :: ancestors) pointer hasSNodeOp)
    (hx : ∀ a ∈ leaf.physicalIndexPosition, x a < extent (shapes (leaf :: ancestors)) a) :
    ∃ state : Extraction,
      state.Before leaf.physicalIndexPosition x (shapes (leaf :: ancestors)) ∧
      ∀ isBitVectorized,
        run pointer (leaf.physicalIndexPosition.map x) hasSNodeOp isBitVectorized =
          runLevels isBitVectorized (indexed leaf.physicalIndexPosition x) none
            (leaf :: ancestors).reverse state := by
  have hchild : ∀ child : SNode, (∀ a ∈ leaf.physicalIndexPosition, child.shape a = 1) →
      Extraction.Before ⟨totalShape (child :: leaf :: ancestors).reverse, fun _ => true⟩
        leaf.physicalIndexPosition x (shapes (leaf :: ancestors)) := by
    refine fun child hone => ⟨fun a ha => ?_, fun a ha _ => hx a ha⟩
    have hextent := extent_shapes_cons child (leaf :: ancestors) a
    rw [hone a ha, Nat.mul_one] at hextent
    exact (totalShape_eq _ _).trans hextent
  cases hp with
  | cell =>
    exact ⟨_, ⟨fun a _ => totalShape_eq _ _, fun a ha _ => hx a ha⟩, run_cell leaf ancestors x⟩
  | place =>
    exact ⟨_, hchild _ fun _ _ => rfl, run_child _ leaf ancestors x⟩
  | dynamic htype hnode =>
    exact ⟨_, hchild _ fun _ ha => shape_dynamic h htype hnode ha, run_child _ leaf ancestors x⟩

theorem run_eq_zip (h : WellFormed leaf ancestors)
    (hp : Pointer (leaf :: ancestors) pointer hasSNodeOp)
    (hx : ∀ a ∈ leaf.physicalIndexPosition, x a < extent (shapes (leaf :: ancestors)) a) :
    run pointer (leaf.physicalIndexPosition.map x) hasSNodeOp false =
        (leaf :: ancestors).reverse.zip (cells allAxes (shapes (leaf :: ancestors)) x) ∧
      run pointer (leaf.physicalIndexPosition.map x) hasSNodeOp true <+:
        run pointer (leaf.physicalIndexPosition.map x) hasSNodeOp false := by
  obtain ⟨state, hstate, hrun⟩ := exists_run_eq h hp hx
  rw [hrun false, hrun true]
  refine ⟨?_, runLevels_bitVectorized _ _ _ _⟩
  rw [h.physical] at hstate ⊢
  refine runLevels_eq none (fun s hs => h.shaped s (mem_reverse.1 hs)) ?_ hstate
  exact fun s hs a hactive => any_eq_true.2 ⟨s, mem_reverse.1 hs, hactive⟩

theorem run_inRange (h : WellFormed leaf ancestors)
    (hp : Pointer (leaf :: ancestors) pointer hasSNodeOp)
    (hx : ∀ a ∈ leaf.physicalIndexPosition, x a < extent (shapes (leaf :: ancestors)) a)
    {isBitVectorized : Bool} {cell : SNode × ℕ}
    (hcell : cell ∈ run pointer (leaf.physicalIndexPosition.map x) hasSNodeOp isBitVectorized) :
    cell.2 < cell.1.numCellsPerContainer := by
  obtain ⟨hrun, hprefix⟩ := run_eq_zip h hp hx
  have hmem : cell ∈ run pointer (leaf.physicalIndexPosition.map x) hasSNodeOp false := by
    cases isBitVectorized with
    | false => exact hcell
    | true => exact hprefix.subset hcell
  rw [hrun] at hmem
  have hlt : List.Forall₂ (fun shape cell => cell < capacity shape allAxes)
      (shapes (leaf :: ancestors)) (cells allAxes (shapes (leaf :: ancestors)) x) :=
    cells_lt h.positive x
  rw [shapes, forall₂_map_left_iff] at hlt
  rw [(h.shaped cell.1 (mem_reverse.1 (of_mem_zip hmem).1)).cells]
  exact (forall₂_iff_zip.1 hlt).2 hmem

theorem refineAlong_run (h : WellFormed leaf ancestors)
    (hp : Pointer (leaf :: ancestors) pointer hasSNodeOp)
    (hx : ∀ a ∈ leaf.physicalIndexPosition, x a < extent (shapes (leaf :: ancestors)) a) :
    leaf.physicalIndexPosition.map
        (refineAlong (run pointer (leaf.physicalIndexPosition.map x) hasSNodeOp false)) =
      leaf.physicalIndexPosition.map x := by
  refine map_congr_left fun a ha => ?_
  rw [(run_eq_zip h hp hx).1, refineAlong,
    foldl_refineCoordinates fun s hs => h.shaped s (mem_reverse.1 hs)]
  refine (refineAll_cells nodup_allAxes h.positive x _ (mem_allAxes a)).trans ?_
  rw [Nat.zero_mul, Nat.zero_add, Nat.mod_eq_of_lt (hx a ha)]

end Pointers

section Loops

variable {loop : RangeFor} {nodes : List SNode}

theorem extent_below_root (hchain : leaf :: ancestors = nodes ++ [rootSNode]) (a : Axis) :
    extent (shapes (leaf :: ancestors)) a = extent (nodes.reverse.map SNode.shape) a := by
  rw [hchain, shapes, reverse_append, reverse_singleton, singleton_append, map_cons]
  exact Nat.one_mul _

theorem convertToRangeFor_eq (h : WellFormed leaf ancestors)
    (hchain : leaf :: ancestors = nodes ++ [rootSNode]) (hnodes : ∀ s ∈ nodes, s.type ≠ .root)
    (hloop : convertToRangeFor (leaf :: ancestors) = some loop) :
    loop.endValue = volume allAxes (nodes.reverse.map SNode.shape) ∧
      ∀ v < loop.endValue, loop.newLoopVars v =
        leaf.physicalIndexPosition.map (point allAxes (nodes.reverse.map SNode.shape) v) := by
  have hbelow : (leaf :: ancestors).takeWhile (fun s => s.type ≠ .root) = nodes := by
    rw [hchain, takeWhile_append_of_pos fun s hs => decide_eq_true (hnodes s hs)]
    exact append_nil nodes
  have hphysical : physicalIndices nodes.reverse = leaf.physicalIndexPosition := by
    rw [physicalIndices, getLast?_reverse]
    cases nodes with
    | nil =>
      obtain ⟨rfl, -⟩ := List.cons.inj hchain
      rfl
    | cons node nodes =>
      obtain ⟨rfl, -⟩ := List.cons.inj hchain
      rfl
  have hmem : ∀ s ∈ nodes.reverse, s ∈ leaf :: ancestors := fun s hs =>
    hchain ▸ mem_append_left _ (mem_reverse.1 hs)
  have hshaped : ∀ s ∈ nodes.reverse, s.Shaped := fun s hs => h.shaped s (hmem s hs)
  rw [convertToRangeFor, hbelow, hphysical] at hloop
  simp only [volume_shapes hshaped, Nat.one_mul] at hloop
  split at hloop
  · obtain rfl := Option.some.inj hloop
    refine ⟨rfl, fun v hv => ?_⟩
    simp only
    rw [h.physical, loopVarsFrom_eq hshaped
      (fun s hs a hactive => any_eq_true.2 ⟨s, hmem s hs, hactive⟩)
      (fun a _ => totalShape_eq _ a) (fun _ => hv)]
    simp
  · contradiction

theorem enumerated_of_tight (h : WellFormed leaf ancestors) (htight : Tight leaf ancestors)
    (hloop : maybeConvert (leaf :: ancestors) = some loop) :
    (∀ v < loop.endValue, leaf.InBounds (loop.newLoopVars v)) ∧
      ∀ indices, leaf.InBounds indices →
        ∃! v, v < loop.endValue ∧ loop.newLoopVars v = indices := by
  obtain ⟨nodes, hchain, hnodes⟩ := h.rooted
  have hconvert : convertToRangeFor (leaf :: ancestors) = some loop := by
    rw [maybeConvert] at hloop
    split at hloop
    · exact hloop
    · contradiction
  obtain ⟨hend, hvars⟩ := convertToRangeFor_eq h hchain hnodes hconvert
  have hextent : ∀ a, extent (nodes.reverse.map SNode.shape) a = leaf.numElements a :=
    fun a => (extent_below_root hchain a).symm.trans (htight a)
  have hpos : Positive (nodes.reverse.map SNode.shape) := by
    intro shape hshape
    obtain ⟨s, hs, rfl⟩ := mem_map.1 hshape
    exact (h.shaped s (hchain ▸ mem_append_left _ (mem_reverse.1 hs))).pos
  constructor
  · intro v hv
    rw [hvars v hv, inBounds_map_iff]
    intro a _
    rw [← hextent a]
    exact point_lt hpos v
  · intro indices hindices
    obtain ⟨x, rfl, hx, hzero⟩ := exists_map_eq h.nodup_physical hindices
    have hpoint : ∀ v, leaf.physicalIndexPosition.map
          (point allAxes (nodes.reverse.map SNode.shape) v) =
        leaf.physicalIndexPosition.map x ↔
        ∀ a ∈ allAxes, point allAxes (nodes.reverse.map SNode.shape) v a = x a := by
      refine fun v => map_inj_left.trans ⟨fun heq a _ => ?_, fun heq a _ => heq a (by simp)⟩
      by_cases ha : a ∈ leaf.physicalIndexPosition
      · exact heq a ha
      · -- an axis that no level divides has one element
        have hlt : point allAxes (nodes.reverse.map SNode.shape) v a < _ := point_lt hpos v
        rw [hextent a, h.unused a ha] at hlt
        rw [hzero a ha]
        omega
    have hbelow : ∀ a ∈ allAxes, x a < extent (nodes.reverse.map SNode.shape) a := by
      intro a _
      by_cases ha : a ∈ leaf.physicalIndexPosition
      · rw [hextent a]
        exact hx a ha
      · rw [hzero a ha]
        exact hpos.extent_pos a
    obtain ⟨v, ⟨hv, heq⟩, hunique⟩ := existsUnique_point nodup_allAxes hpos hbelow
    rw [← hend] at hv
    refine ⟨v, ⟨hv, (hvars v hv).trans ((hpoint v).2 heq)⟩, ?_⟩
    rintro w ⟨hw, hweq⟩
    rw [hvars w hw] at hweq
    exact hunique w ⟨hend ▸ hw, (hpoint w).1 hweq⟩

end Loops

theorem addressed_of_tight (h : WellFormed leaf ancestors) (htight : Tight leaf ancestors) :
    Addressed leaf ancestors := by
  have hindices : ∀ indices, leaf.InBounds indices →
      ∃ x, indices = leaf.physicalIndexPosition.map x ∧
        ∀ a ∈ leaf.physicalIndexPosition, x a < extent (shapes (leaf :: ancestors)) a := by
    intro indices hin
    obtain ⟨x, heq, hx, -⟩ := exists_map_eq h.nodup_physical hin
    refine ⟨x, heq, fun a ha => ?_⟩
    rw [htight a]
    exact hx a ha
  constructor
  · intro pointer hasSNodeOp hp indices hin isBitVectorized cell hcell
    obtain ⟨x, rfl, hx⟩ := hindices indices hin
    exact run_inRange h hp hx hcell
  · intro pointer hasSNodeOp hp indices hin
    obtain ⟨x, rfl, hx⟩ := hindices indices hin
    obtain ⟨hrun, hprefix⟩ := run_eq_zip h hp hx
    refine ⟨?_, hprefix⟩
    rw [hrun, map_fst_zip]
    rw [cells_length, shapes, length_map]
  · intro pointer hasSNodeOp hp indices hin
    obtain ⟨x, rfl, hx⟩ := hindices indices hin
    exact refineAlong_run h hp hx
  · intro snode hlooped loop hloop
    cases hlooped with
    | node => exact enumerated_of_tight h htight hloop
    | place =>
      have htight' : Tight (leaf.insertChildren .place) (leaf :: ancestors) := by
        intro a
        rw [extent_shapes_cons, htight a]
        exact Nat.mul_one _
      exact @enumerated_of_tight (leaf.insertChildren .place) (leaf :: ancestors) loop
        (wellFormed_place h) htight' hloop

theorem tight_of_addressed (h : WellFormed leaf ancestors) (haddressed : Addressed leaf ancestors) :
    Tight leaf ancestors := by
  intro a
  by_contra hne
  have hlt : extent (shapes (leaf :: ancestors)) a < leaf.numElements a :=
    lt_of_le_of_ne (h.le a) hne
  have hmem : a ∈ leaf.physicalIndexPosition := by
    by_contra hnot
    have hpos := h.positive.extent_pos a
    rw [h.unused a hnot] at hlt
    omega
  -- the first index that the levels have no cell for
  let x : Axis → ℕ := fun b => if b = a then extent (shapes (leaf :: ancestors)) a else 0
  have hin : leaf.InBounds (leaf.physicalIndexPosition.map x) := by
    rw [inBounds_map_iff]
    intro b _
    by_cases heq : b = a
    · simpa only [x, heq, if_pos] using hlt
    · simpa only [x, heq, if_false] using h.numElements_pos b
  have hp := Pointer.cell (leaf :: ancestors)
  have hlevels := (haddressed.levels _ _ hp _ hin).1
  have hrefined := map_inj_left.1 (haddressed.refined _ _ hp _ hin) a hmem
  set cells := run (leaf :: ancestors) (leaf.physicalIndexPosition.map x) true false
  have hzip : cells = (leaf :: ancestors).reverse.zip (cells.map snd) := by
    rw [← hlevels]
    exact zip_of_prod rfl rfl
  have hlen : (cells.map snd).length = (shapes (leaf :: ancestors)).length := by
    rw [shapes, length_map, length_map, ← hlevels, length_map]
  rw [hzip, refineAlong,
    foldl_refineCoordinates fun s hs => h.shaped s (mem_reverse.1 hs)] at hrefined
  have hbound : refineAll allAxes (shapes (leaf :: ancestors)) (cells.map snd)
      (fun _ => 0) a < (0 + 1) * extent (shapes (leaf :: ancestors)) a :=
    refineAll_lt h.positive (cells.map snd) _ hlen
  refine hbound.ne (hrefined.trans ?_)
  simp [x]

theorem addressed_iff_dividesOnce {creations : List Creation}
    (h : createChain creations = some (leaf :: ancestors)) :
    Addressed leaf ancestors ↔ ∀ c ∈ creations, c.DividesOnce := by
  obtain ⟨hwell, htight⟩ := wellFormed_createChain h
  rw [← htight]
  exact ⟨tight_of_addressed hwell, addressed_of_tight hwell⟩

/-- Two levels that divide the second axis by three and by four. -/
theorem addressed_twoLevels : ∃ leaf ancestors,
      createChain [⟨[1, 0], [3, 5], .dense⟩, ⟨[1, 2], [4], .dense⟩] = some (leaf :: ancestors) ∧
        Addressed leaf ancestors := by
  have h : createChain [⟨[1, 0], [3, 5], .dense⟩, ⟨[1, 2], [4], .dense⟩] = some (_ :: _) := rfl
  refine ⟨_, _, h, (addressed_iff_dividesOnce h).2 ?_⟩
  simp [Creation.DividesOnce, DivideOnce, Creation.broadcastSizes, replicate]

/-- Six elements are counted along the axis, and there are three cells. -/
theorem sameAxis_not_addressed :
    ∃ leaf ancestors, createChain [⟨[0, 0], [2, 3], .dense⟩] = some (leaf :: ancestors) ∧
      ¬Addressed leaf ancestors := by
  refine ⟨_, _, rfl, fun h => ?_⟩
  have hrange := h.inRange _ true (.cell _) [3] (.cons (by decide) .nil) false
  have hall := all_eq_true.2 fun cell hcell => decide_eq_true (hrange cell hcell)
  exact absurd hall (by decide)

end Quadrants.Addressing
