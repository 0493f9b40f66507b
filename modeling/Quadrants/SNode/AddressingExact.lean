import Quadrants.SNode.NodeShapes
import Mathlib.Data.Nat.Bitwise

/-!
The cell numbers of `ScalarPointerLowerer::run`, the refined coordinates and the demoted loops are
those of one mixed-radix numbering, so they undo each other.
-/

namespace Quadrants.Addressing

open Quadrants.Library.MixedRadix List Nat Function

theorem eq_two_pow_log2 {y : ℕ} (h : isPowerOfTwo y = true) : y = 2 ^ y.log2 := by
  obtain ⟨hne, hand⟩ : y ≠ 0 ∧ y &&& (y - 1) = 0 := by simpa [isPowerOfTwo] using h
  obtain ⟨k, rfl⟩ := (and_sub_one_eq_zero_iff_isPowerOfTwo hne).1 hand
  rw [log2_two_pow]

@[simp] theorem generateMod_eq (x y : ℕ) : generateMod x y = x % y := by
  rw [generateMod]
  split
  · next h =>
      rw [eq_two_pow_log2 h]
      exact and_two_pow_sub_one_eq_mod _ _
  · rfl

@[simp] theorem generateDiv_eq (x y : ℕ) : generateDiv x y = x / y := by
  rw [generateDiv]
  split
  · next h => rw [shiftRight_eq_div_pow, ← eq_two_pow_log2 h]
  · rfl

section Lowered

variable {snode : SNode} {axes : List Axis} {x : Axis → ℕ}

def indexed (axes : List Axis) (x : Axis → ℕ) : List (Axis × ℕ) :=
  axes.map fun a => (a, x a)

theorem zip_map_self (axes : List Axis) (x : Axis → ℕ) :
    axes.zip (axes.map x) = indexed axes x := by
  induction axes with
  | nil => rfl
  | cons a axes ih => rw [map_cons, zip_cons_cons, ih, indexed, indexed, map_cons]

theorem foldl_shapes (snodes : List SNode) (a : Axis) (n : ℕ) :
    snodes.foldl (fun total s => total * (s.extractors a).shape) n =
      n * extent (snodes.map SNode.shape) a := by
  induction snodes generalizing n with
  | nil => simp
  | cons s snodes ih =>
    rw [foldl_cons, ih, map_cons, Nat.mul_assoc]
    rfl

theorem totalShape_eq (snodes : List SNode) (a : Axis) :
    totalShape snodes a = extent (snodes.map SNode.shape) a := by
  rw [totalShape, foldl_shapes, Nat.one_mul]

def extractedAt (snode : SNode) (x : Axis → ℕ) (state : Extraction) (a : Axis) : ℕ :=
  (if state.isFirstExtraction a then x a else x a % state.totalShape a) /
    (state.totalShape a / snode.shape a)

variable {a : Axis} {inner : List (Axis → ℕ)} {p : Axis → Bool} {state : Extraction}

theorem extractedAt_congr {state' : Extraction} (htotal : state.totalShape a = state'.totalShape a)
    (hfirst : state.isFirstExtraction a = state'.isFirstExtraction a) :
    extractedAt snode x state a = extractedAt snode x state' a := by
  rw [extractedAt, extractedAt, htotal, hfirst]

theorem extractIndices_fst (haxes : axes.Nodup) (state : Extraction) :
    (extractIndices snode (indexed axes x) state).1 =
      (axes.filter fun a => (snode.extractors a).active).map fun a =>
        (extractedAt snode x state a, snode.shape a) := by
  induction axes generalizing state with
  | nil => rfl
  | cons k axes ih =>
    obtain ⟨hk, hrest⟩ := nodup_cons.1 haxes
    rw [indexed, map_cons, extractIndices]
    split
    · next hactive =>
        rw [filter_cons, if_pos hactive]
        simp only [generateDiv_eq, generateMod_eq]
        refine congrArg₂ List.cons rfl ?_
        refine (ih hrest _).trans (map_congr_left fun a ha => ?_)
        have hne : a ≠ k := fun heq => hk (heq ▸ (mem_filter.1 ha).1)
        rw [extractedAt_congr (update_of_ne hne _ _) (update_of_ne hne _ _)]
    · next hactive =>
        rw [filter_cons, if_neg hactive]
        exact ih hrest state

theorem extractIndices_snd (hinactive : ∀ a, ¬snode.Active a → snode.shape a = 1)
    (haxes : axes.Nodup) (state : Extraction) (a : Axis) :
    (extractIndices snode (indexed axes x) state).2.totalShape a =
        (if a ∈ axes then state.totalShape a / snode.shape a else state.totalShape a) ∧
      ((extractIndices snode (indexed axes x) state).2.isFirstExtraction a = true →
        state.isFirstExtraction a = true ∧ (a ∈ axes → ¬snode.Active a)) := by
  induction axes generalizing state with
  | nil => simp [indexed, extractIndices]
  | cons k axes ih =>
    obtain ⟨hk, hrest⟩ := nodup_cons.1 haxes
    rw [indexed, map_cons, extractIndices]
    split
    · next hactive =>
        obtain ⟨htotal, hfirst⟩ := ih hrest
          ⟨update state.totalShape k (state.totalShape k / (snode.extractors k).shape),
            update state.isFirstExtraction k false⟩
        rw [indexed] at htotal hfirst
        by_cases ha : a = k
        · subst ha
          simp only [update_self, if_neg hk] at htotal hfirst
          refine ⟨by rw [htotal, if_pos mem_cons_self]; rfl, fun h => ?_⟩
          exact absurd (hfirst h).1 Bool.false_ne_true
        · simp only [update_of_ne ha] at htotal hfirst
          simp only [mem_cons, ha, false_or]
          exact ⟨htotal, hfirst⟩
    · next hactive =>
        obtain ⟨htotal, hfirst⟩ := ih hrest state
        by_cases ha : a = k
        · subst ha
          rw [if_neg hk] at htotal
          rw [if_pos mem_cons_self, hinactive a hactive, Nat.div_one]
          exact ⟨htotal, fun h => ⟨(hfirst h).1, fun _ => hactive⟩⟩
        · simp only [mem_cons, ha, false_or]
          exact ⟨htotal, hfirst⟩

theorem linearize_map (l : List Axis) (s d : Axis → ℕ) :
    linearize (l.map fun a => (d a, s a)) = value s d l := by
  rw [linearize, foldl_map, value]

theorem filter_active (hcover : ∀ a, snode.Active a → p a = true) :
    (allAxes.filter p).filter (fun a => (snode.extractors a).active) =
      allAxes.filter fun a => (snode.extractors a).active := by
  rw [filter_filter]
  refine filter_congr fun a _ => ?_
  cases hactive : (snode.extractors a).active with
  | true => rw [hcover a hactive, Bool.and_true]
  | false => rfl

/-- The state before a level: the shapes of the levels from there on, and whether the index is
still whole. -/
structure Extraction.Before (state : Extraction) (axes : List Axis) (x : Axis → ℕ)
    (levels : List (Axis → ℕ)) : Prop where
  total : ∀ a ∈ axes, state.totalShape a = extent levels a
  first : ∀ a ∈ axes, state.isFirstExtraction a = true → x a < extent levels a

theorem extractedAt_eq
    (hs : snode.Shaped) (hstate : state.Before axes x (snode.shape :: inner)) (ha : a ∈ axes) :
    extractedAt snode x state a = coordinate snode.shape inner x a := by
  have htotal : state.totalShape a = snode.shape a * extent inner a :=
    (hstate.total a ha).trans (extent_cons _ _ _)
  have hinner : state.totalShape a / snode.shape a = extent inner a := by
    rw [htotal, Nat.mul_div_cancel_left _ (hs.pos a)]
  rw [extractedAt, coordinate, hinner, ← htotal]
  split
  · next hfirst =>
      have hlt := hstate.first a ha hfirst
      rw [← hstate.total a ha] at hlt
      rw [mod_eq_of_lt hlt]
  · rfl

theorem coordinate_eq_zero {shape : Axis → ℕ} (h : shape a = 1)
    (inner : List (Axis → ℕ)) : coordinate shape inner x a = 0 := by
  rw [coordinate, h, Nat.one_mul, mod_div_self]

theorem linearize_extractIndices (hs : snode.Shaped) (hcover : ∀ a, snode.Active a → p a = true)
    (hstate : state.Before (allAxes.filter p) x (snode.shape :: inner)) :
    linearize (extractIndices snode (indexed (allAxes.filter p) x) state).1 =
      value snode.shape (coordinate snode.shape inner x) allAxes := by
  have hinactive : ∀ a ∈ allAxes, (snode.extractors a).active = false →
      snode.shape a = 1 ∧ coordinate snode.shape inner x a = 0 := by
    intro a _ hactive
    have hone := hs.inactive a (Bool.eq_false_iff.1 hactive)
    exact ⟨hone, coordinate_eq_zero hone inner⟩
  rw [extractIndices_fst (nodup_allAxes.filter p), linearize_map, ← (value_filter hinactive).1,
    filter_active hcover]
  refine value_congr fun a ha => extractedAt_eq hs hstate ?_
  rw [← filter_active hcover] at ha
  exact (mem_filter.1 ha).1

theorem before_extractIndices (hs : snode.Shaped)
    (hstate : state.Before (allAxes.filter p) x (snode.shape :: inner)) :
    (extractIndices snode (indexed (allAxes.filter p) x) state).2.Before
      (allAxes.filter p) x inner where
  total a ha := by
    rw [(extractIndices_snd hs.inactive (nodup_allAxes.filter p) state a).1, if_pos ha,
      hstate.total a ha, extent_cons, Nat.mul_div_cancel_left _ (hs.pos a)]
  first a ha hfirst := by
    obtain ⟨hwhole, hinactive⟩ :=
      (extractIndices_snd hs.inactive (nodup_allAxes.filter p) state a).2 hfirst
    have hlt := hstate.first a ha hwhole
    rwa [extent_cons, hs.inactive a (hinactive ha), Nat.one_mul] at hlt

theorem runLevels_eq {levels : List SNode} (above : Option SNodeType) (hs : ∀ s ∈ levels, s.Shaped)
    (hcover : ∀ s ∈ levels, ∀ a, s.Active a → p a = true)
    (hstate : state.Before (allAxes.filter p) x (levels.map SNode.shape)) :
    runLevels false (indexed (allAxes.filter p) x) above levels state =
      levels.zip (cells allAxes (levels.map SNode.shape) x) := by
  induction levels generalizing above state with
  | nil => rfl
  | cons snode rest ih =>
    obtain ⟨hsnode, hsrest⟩ := forall_mem_cons.1 hs
    obtain ⟨hactive, hcrest⟩ := forall_mem_cons.1 hcover
    rw [runLevels, map_cons, cells, ← linearize_extractIndices hsnode hactive hstate]
    exact congrArg (List.cons _) (ih _ hsrest hcrest (before_extractIndices hsnode hstate))

theorem runLevels_bitVectorized (indices : List (Axis × ℕ)) (above : Option SNodeType)
    (levels : List SNode) (state : Extraction) :
    runLevels true indices above levels state <+: runLevels false indices above levels state := by
  induction levels generalizing above state with
  | nil => exact prefix_rfl
  | cons snode rest ih =>
    rw [runLevels]
    split
    · next hskip =>
        have hrest : rest = [] := by
          simp only [Bool.and_eq_true, List.isEmpty_iff] at hskip
          exact hskip.1.2
        rw [hrest]
        exact nil_prefix
    · exact (prefix_cons_inj _).2 (ih _ _)

end Lowered

theorem refineCoordinates_eq {snode : SNode} (hs : snode.Shaped) (y : Axis → ℕ) (l : ℕ) :
    refineCoordinates snode y l = refine allAxes snode.shape y l := by
  funext a
  have hacc := hs.accShape a
  have hpos := hs.pos a
  rw [SNode.shape] at hpos
  rw [refineCoordinates, refine, digit, SNode.shape, hacc, Nat.mul_comm (place _ _ _)]
  split
  · rfl
  · next hone =>
      rw [show (snode.extractors a).shape = 1 by omega, Nat.one_mul, mod_div_self]

theorem foldl_refineCoordinates {levels : List SNode} (hs : ∀ s ∈ levels, s.Shaped)
    (ncells : List ℕ) (y : Axis → ℕ) :
    (levels.zip ncells).foldl (fun coords cell => refineCoordinates cell.1 coords cell.2) y =
      refineAll allAxes (levels.map SNode.shape) ncells y := by
  induction levels generalizing ncells y with
  | nil => rfl
  | cons snode rest ih =>
    obtain ⟨hsnode, hrest⟩ := forall_mem_cons.1 hs
    cases ncells with
    | nil => rfl
    | cons cell ncells =>
      rw [zip_cons_cons, foldl_cons, ih hrest, refineCoordinates_eq hsnode, map_cons, refineAll]

section Looped

variable {snode : SNode} {axes : List Axis} {e : ℕ}

def FirstBounded (snode : SNode) (e : ℕ) (axes : List Axis) : Prop :=
  ∀ outer a inner, axes = outer ++ a :: inner → (∀ b ∈ outer, ¬snode.Active b) →
    snode.Active a → e < snode.shape a * place snode.shape allAxes a

variable {a : Axis} {levels : List SNode} {p : Axis → Bool}

theorem FirstBounded.tail (h : FirstBounded snode e (a :: axes))
    (ha : ¬snode.Active a) : FirstBounded snode e axes := by
  intro outer b inner heq houter
  exact h (a :: outer) b inner (by rw [heq, cons_append]) (forall_mem_cons.2 ⟨ha, houter⟩)

theorem firstBounded_filter (hs : snode.Shaped)
    (hcover : ∀ a, snode.Active a → p a = true) (he : e < snode.numCellsPerContainer) :
    FirstBounded snode e (allAxes.filter p) := by
  intro outer a inner heq houter _
  obtain ⟨outer', inner', hall⟩ := append_of_mem (mem_allAxes a)
  have hsorted : (outer' ++ a :: inner').Pairwise (· < ·) :=
    hall ▸ (sortedLT_finRange _).pairwise
  have hfiltered : (outer ++ a :: inner).Pairwise (· < ·) :=
    heq ▸ (sortedLT_finRange _).pairwise.sublist filter_sublist
  have hbelow : ∀ b ∈ outer', b < a := fun b hb =>
    (pairwise_append.1 hsorted).2.2 b hb a mem_cons_self
  have hone : ∀ b ∈ outer', snode.shape b = 1 := by
    intro b hb
    refine hs.inactive b fun hactive => ?_
    have hmem : b ∈ outer ++ a :: inner :=
      heq ▸ mem_filter.2 ⟨mem_allAxes b, hcover b hactive⟩
    rcases mem_append.1 hmem with hmem | hmem
    · exact houter b hmem hactive
    · rcases mem_cons.1 hmem with rfl | hinner
      · exact lt_irrefl _ (hbelow b hb)
      · have := (pairwise_cons.1 (pairwise_append.1 hfiltered).2.1).1 b hinner
        exact lt_asymm this (hbelow b hb)
  have hnot : a ∉ outer' := fun ha => lt_irrefl _ (hbelow a ha)
  rw [hs.cells, hall] at he
  rw [hall, mul_place_eq_capacity hnot hone]
  exact he

theorem digit_eq_zero (hs : snode.Shaped) (ha : ¬snode.Active a) (e : ℕ) :
    digit snode.shape allAxes e a = 0 := by
  have hlt := digit_lt (l := allAxes) (hs.pos a) e
  rw [hs.inactive a ha] at hlt
  omega

theorem extractLoopVars_eq (hs : snode.Shaped) (haxes : axes.Nodup) (y : Axis → ℕ)
    (totalShape : Axis → ℕ) {isFirstExtraction : Bool}
    (hfirst : isFirstExtraction = true → FirstBounded snode e axes) :
    (extractLoopVars snode e (indexed axes y) totalShape isFirstExtraction).1 =
        axes.map (fun a =>
          y a + digit snode.shape allAxes e a * (totalShape a / snode.shape a)) ∧
      ∀ a, (extractLoopVars snode e (indexed axes y) totalShape isFirstExtraction).2 a =
        if a ∈ axes then totalShape a / snode.shape a else totalShape a := by
  induction axes generalizing totalShape isFirstExtraction with
  | nil => simp [indexed, extractLoopVars]
  | cons p axes ih =>
    obtain ⟨hp, hrest⟩ := nodup_cons.1 haxes
    rw [indexed, map_cons, extractLoopVars]
    split
    · next hactive =>
        obtain ⟨hvars, htotal⟩ := ih hrest
          (update totalShape p (totalShape p / snode.shape p))
          fun hf => absurd hf Bool.false_ne_true
        have hindex : generateDiv (if isFirstExtraction then e else generateMod e
            ((snode.extractors p).accShape * (snode.extractors p).shape))
              (snode.extractors p).accShape = digit snode.shape allAxes e p := by
          rw [generateDiv_eq, generateMod_eq, hs.accShape p, digit, Nat.mul_comm (place _ _ _)]
          split
          · next hf =>
              have hlt := hfirst hf [] p axes rfl (by simp) hactive
              rw [mod_eq_of_lt hlt]
          · rfl
        constructor
        · refine congrArg₂ List.cons ?_ (hvars.trans (map_congr_left fun a ha => ?_))
          · rw [hindex]
            rfl
          · rw [update_of_ne (ne_of_mem_of_not_mem ha hp)]
        · intro a
          refine (htotal a).trans ?_
          by_cases ha : a = p
          · rw [ha, if_neg hp, update_self, if_pos mem_cons_self]
          · simp [ha]
    · next hactive =>
        obtain ⟨hvars, htotal⟩ :=
          ih hrest totalShape fun hf => (hfirst hf).tail hactive
        constructor
        · rw [map_cons, digit_eq_zero hs hactive, Nat.zero_mul]
          exact congrArg _ hvars
        · intro a
          refine (htotal a).trans ?_
          by_cases ha : a = p
          · rw [ha, if_neg hp, if_pos mem_cons_self, hs.inactive p hactive, Nat.div_one]
          · simp [ha]

theorem volume_shapes (hs : ∀ s ∈ levels, s.Shaped) (n : ℕ) :
    levels.foldl (fun total s => total * s.numCellsPerContainer) n =
      n * volume allAxes (levels.map SNode.shape) := by
  induction levels generalizing n with
  | nil => simp
  | cons snode rest ih =>
    obtain ⟨hsnode, hrest⟩ := forall_mem_cons.1 hs
    rw [foldl_cons, ih hrest, map_cons, volume_cons, hsnode.cells, Nat.mul_assoc]

theorem loopVarsFrom_eq {v : ℕ} {isFirst : Bool}
    {totalShape : Axis → ℕ} (hs : ∀ s ∈ levels, s.Shaped)
    (hcover : ∀ s ∈ levels, ∀ a, s.Active a → p a = true)
    (htotal : ∀ a ∈ allAxes.filter p, totalShape a = extent (levels.map SNode.shape) a)
    (hfirst : isFirst = true → v < volume allAxes (levels.map SNode.shape)) (y : Axis → ℕ) :
    loopVarsFrom (allAxes.filter p) v isFirst levels
        (volume allAxes (levels.map SNode.shape)) totalShape ((allAxes.filter p).map y) =
      (allAxes.filter p).map fun a => y a + point allAxes (levels.map SNode.shape) v a := by
  induction levels generalizing isFirst totalShape y with
  | nil => rfl
  | cons snode rest ih =>
    obtain ⟨hsnode, hsrest⟩ := forall_mem_cons.1 hs
    obtain ⟨hactive, hcrest⟩ := forall_mem_cons.1 hcover
    have hpos : 0 < capacity snode.shape allAxes := capacity_pos fun a _ => hsnode.pos a
    have hnext : volume allAxes ((snode :: rest).map SNode.shape) / snode.numCellsPerContainer =
        volume allAxes (rest.map SNode.shape) := by
      rw [map_cons, volume_cons, hsnode.cells, Nat.mul_div_cancel_left _ hpos]
    have hmod : (if isFirst then v else
          generateMod v (volume allAxes ((snode :: rest).map SNode.shape))) =
        v % (capacity snode.shape allAxes * volume allAxes (rest.map SNode.shape)) := by
      rw [generateMod_eq, ← volume_cons, ← map_cons]
      split
      · next hf => rw [mod_eq_of_lt (hfirst hf)]
      · rfl
    have hlt : v % (capacity snode.shape allAxes * volume allAxes (rest.map SNode.shape)) /
        volume allAxes (rest.map SNode.shape) < snode.numCellsPerContainer := by
      rw [hsnode.cells]
      exact mod_mul_div_lt hpos
    obtain ⟨hvars, htotals⟩ := extractLoopVars_eq hsnode (nodup_allAxes.filter p) y totalShape
      fun _ => firstBounded_filter hsnode hactive hlt
    have hrest : ∀ a ∈ allAxes.filter p,
        totalShape a / snode.shape a = extent (rest.map SNode.shape) a := by
      intro a ha
      rw [htotal a ha, map_cons, extent_cons, Nat.mul_div_cancel_left _ (hsnode.pos a)]
    rw [loopVarsFrom]
    simp only [hnext, hmod, generateDiv_eq, zip_map_self]
    rw [hvars, ih hsrest hcrest (fun a ha => ?_) fun hf => absurd hf Bool.false_ne_true]
    · refine map_congr_left fun a ha => ?_
      rw [hrest a ha, map_cons, point, Nat.add_assoc]
    · rw [htotals, if_pos ha, hrest a ha]

end Looped

end Quadrants.Addressing
