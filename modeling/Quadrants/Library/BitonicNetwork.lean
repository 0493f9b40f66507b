import Mathlib.Data.Nat.Bitwise
import Mathlib.Data.Set.Monotone
import Mathlib.Order.Interval.Set.Basic
import Quadrants.Library.SortingNetwork

/-!
Batcher's bitonic sorter on aligned blocks of `2 ^ n` cells. In a layer every cell is compared with
the one whose index differs in a single bit.
-/

namespace Quadrants.Library.BitonicNetwork

open Quadrants.Library.SortingNetwork List Nat Bool

variable {α β : Type} [LinearOrder α] [LinearOrder β]

def layer (up : ℕ → Bool) (j : ℕ) (x : ℕ → α) (i : ℕ) : α :=
  if (!i.testBit j) = up i then min (x i) (x (i ^^^ 2 ^ j)) else max (x i) (x (i ^^^ 2 ^ j))

def merge (up : ℕ → Bool) : ℕ → (ℕ → α) → ℕ → α
  | 0, x => x
  | j + 1, x => merge up j (layer up j x)

def sort (up : ℕ → ℕ → Bool) : ℕ → (ℕ → α) → ℕ → α
  | 0, x => x
  | k + 1, x => merge (up (k + 1)) (k + 1) (sort up k x)

section Cells

variable {j q i : ℕ}

theorem testBit_low (hi : i < 2 ^ j) : (2 * q * 2 ^ j + i).testBit j = false := by
  rw [testBit_eq_decide_div_mod_eq, Nat.add_comm, add_mul_div_right _ _ (Nat.two_pow_pos j),
    div_eq_of_lt hi, decide_eq_false_iff_not]
  omega

theorem testBit_high (hi : i < 2 ^ j) : ((2 * q + 1) * 2 ^ j + i).testBit j = true := by
  rw [testBit_eq_decide_div_mod_eq, Nat.add_comm, add_mul_div_right _ _ (Nat.two_pow_pos j),
    div_eq_of_lt hi, decide_eq_true_iff]
  omega

theorem xor_low (hi : i < 2 ^ j) : (2 * q * 2 ^ j + i) ^^^ 2 ^ j = (2 * q + 1) * 2 ^ j + i := by
  have hdiv : ((2 * q * 2 ^ j + i) ^^^ 2 ^ j) / 2 ^ j = 2 * q + 1 := by
    rw [xor_div_two_pow, Nat.div_self (Nat.two_pow_pos j), Nat.add_comm,
      add_mul_div_right _ _ (Nat.two_pow_pos j), div_eq_of_lt hi, Nat.zero_add,
      xor_one_of_even (even_two_mul q)]
  have hmod : ((2 * q * 2 ^ j + i) ^^^ 2 ^ j) % 2 ^ j = i := by
    rw [xor_mod_two_pow, mod_self, xor_zero, mul_add_mod', mod_eq_of_lt hi]
  rw [← div_add_mod' ((2 * q * 2 ^ j + i) ^^^ 2 ^ j) (2 ^ j), hdiv, hmod]

theorem xor_high (hi : i < 2 ^ j) : ((2 * q + 1) * 2 ^ j + i) ^^^ 2 ^ j = 2 * q * 2 ^ j + i := by
  rw [← xor_low hi, xor_xor_cancel_right]

end Cells

section Layer

variable {up : ℕ → Bool} {j : ℕ}

theorem layer_low {q i : ℕ} (hi : i < 2 ^ j) (x : ℕ → α) : layer up j x (2 * q * 2 ^ j + i) =
      if up (2 * q * 2 ^ j + i) then
        min (x (2 * q * 2 ^ j + i)) (x ((2 * q + 1) * 2 ^ j + i))
      else max (x (2 * q * 2 ^ j + i)) (x ((2 * q + 1) * 2 ^ j + i)) := by
  rw [layer, testBit_low hi, xor_low hi]
  cases up (2 * q * 2 ^ j + i) <;> rfl

theorem layer_high {q i : ℕ} (hi : i < 2 ^ j) (x : ℕ → α) : layer up j x ((2 * q + 1) * 2 ^ j + i) =
      if up ((2 * q + 1) * 2 ^ j + i) then
        max (x ((2 * q + 1) * 2 ^ j + i)) (x (2 * q * 2 ^ j + i))
      else min (x ((2 * q + 1) * 2 ^ j + i)) (x (2 * q * 2 ^ j + i)) := by
  rw [layer, testBit_high hi, xor_high hi]
  cases up ((2 * q + 1) * 2 ^ j + i) <;> rfl

theorem layer_comp {f : α → β} (hf : Monotone f) (x : ℕ → α) :
    layer up j (f ∘ x) = f ∘ layer up j x := by
  funext i
  rw [Function.comp_apply, layer, layer]
  split
  · exact (hf.map_min).symm
  · exact (hf.map_max).symm

theorem layer_not (y : ℕ → Bool) :
    layer (fun i => !up i) j (fun i => !y i) = fun i => !layer up j y i := by
  funext i
  rw [layer, layer]
  cases up i <;> cases i.testBit j <;> cases y i <;> cases y (i ^^^ 2 ^ j) <;> rfl

end Layer

theorem merge_comp {f : α → β} (hf : Monotone f) (up : ℕ → Bool) (j : ℕ) (x : ℕ → α) :
    merge up j (f ∘ x) = f ∘ merge up j x := by
  induction j generalizing x with
  | zero => rfl
  | succ j ih => rw [merge, layer_comp hf, ih, merge]

theorem sort_comp {f : α → β} (hf : Monotone f) (up : ℕ → ℕ → Bool) (k : ℕ) (x : ℕ → α) :
    sort up k (f ∘ x) = f ∘ sort up k x := by
  induction k with
  | zero => rfl
  | succ k ih => rw [sort, ih, merge_comp hf, sort]

theorem merge_not (up : ℕ → Bool) (j : ℕ) (y : ℕ → Bool) :
    merge (fun i => !up i) j (fun i => !y i) = fun i => !merge up j y i := by
  induction j generalizing y with
  | zero => rfl
  | succ j ih => rw [merge, layer_not, ih, merge]

section Blocks

omit [LinearOrder α]

def block (j q : ℕ) (x : ℕ → α) (i : ℕ) : α :=
  x (q * 2 ^ j + i)

variable {i j : ℕ}

theorem block_low {q : ℕ} (x : ℕ → α) : block (j + 1) q x i = block j (2 * q) x i := by
  rw [block, block, Nat.pow_succ', ← Nat.mul_assoc, Nat.mul_comm q 2]

theorem block_high {q : ℕ} (x : ℕ → α) :
    block (j + 1) q x (2 ^ j + i) = block j (2 * q + 1) x i := by
  rw [block, block, Nat.pow_succ', ← Nat.mul_assoc, Nat.mul_comm q 2, ← Nat.add_assoc, Nat.add_mul,
    Nat.one_mul]

theorem lt_pow_succ (hi : i < 2 ^ (j + 1)) : i < 2 ^ j ∨ ∃ r < 2 ^ j, i = 2 ^ j + r := by
  rcases Nat.lt_or_ge i (2 ^ j) with h | h
  · exact .inl h
  · exact .inr ⟨i - 2 ^ j, by omega, by omega⟩

end Blocks

section Constant

variable {up : ℕ → Bool}

theorem merge_const {a : α} {j q : ℕ} {x : ℕ → α} (hx : ∀ i < 2 ^ j, block j q x i = a) :
    ∀ i < 2 ^ j, block j q (merge up j x) i = a := by
  induction j generalizing q x with
  | zero => exact hx
  | succ j ih =>
    have hlow : ∀ i < 2 ^ j, x (2 * q * 2 ^ j + i) = a := by
      intro i hi
      have hcell := hx i (by rw [Nat.pow_succ']; omega)
      rwa [block_low] at hcell
    have hhigh : ∀ i < 2 ^ j, x ((2 * q + 1) * 2 ^ j + i) = a := by
      intro i hi
      have hcell := hx (2 ^ j + i) (by rw [Nat.pow_succ']; omega)
      rwa [block_high] at hcell
    intro i hi
    rcases lt_pow_succ hi with hi | ⟨r, hr, rfl⟩
    · rw [block_low]
      refine ih (fun i hi => ?_) i hi
      rw [block, layer_low hi, hlow i hi, hhigh i hi, min_self, max_self, ite_self]
    · rw [block_high]
      refine ih (fun i hi => ?_) r hr
      rw [block, layer_high hi, hlow i hi, hhigh i hi, min_self, max_self, ite_self]

end Constant

section Bits

def Window (y : ℕ → Bool) (n : ℕ) : Prop :=
  ∃ a b c, ∀ i < n, (y i = c ↔ a ≤ i ∧ i < b)

variable {n : ℕ} {y : ℕ → Bool}

theorem Window.of_const {c : Bool} (h : ∀ i < n, y i = c) : Window y n :=
  ⟨0, n, c, fun i hi => iff_of_true (h i hi) ⟨Nat.zero_le i, hi⟩⟩

theorem Window.congr {z : ℕ → Bool} (h : Window y n) (hyz : ∀ i < n, z i = y i) : Window z n := by
  obtain ⟨a, b, c, h⟩ := h
  exact ⟨a, b, c, fun i hi => by rw [hyz i hi, h i hi]⟩

theorem Window.not (h : Window y n) : Window (fun i => !y i) n := by
  obtain ⟨a, b, c, h⟩ := h
  refine ⟨a, b, !c, fun i hi => ?_⟩
  rw [← h i hi]
  exact not_inj_iff

theorem halves_of_interval {a b h : ℕ} (hy : ∀ i < 2 * h, (y i = true ↔ a ≤ i ∧ i < b)) :
    (∀ i < h, (y i && y (h + i)) = false) ∧ Window (fun i => y i || y (h + i)) h ∨
      Window (fun i => y i && y (h + i)) h ∧ ∀ i < h, (y i || y (h + i)) = true := by
  have hlow : ∀ i < h, (y i = true ↔ a ≤ i ∧ i < b) := fun i hi => hy i (by omega)
  have hhigh : ∀ i < h, (y (h + i) = true ↔ a ≤ h + i ∧ h + i < b) := fun i hi => hy _ (by omega)
  by_cases hfull : h ≤ b ∧ a ≤ b - h ∧ a ≤ h
  · right
    refine ⟨⟨a, b - h, true, fun i hi => ?_⟩, fun i hi => ?_⟩
    · rw [and_eq_true, hlow i hi, hhigh i hi]
      omega
    · rw [or_eq_true, hlow i hi, hhigh i hi]
      omega
  · left
    refine ⟨fun i hi => ?_, ?_⟩
    · rw [← not_eq_true, and_eq_true, hlow i hi, hhigh i hi]
      omega
    · by_cases hspan : a < h ∧ h < b
      · refine ⟨b - h, a, false, fun i hi => ?_⟩
        rw [← not_eq_true, or_eq_true, hlow i hi, hhigh i hi]
        omega
      · refine ⟨if a < h then a else a - h, if a < h then b else b - h, true, fun i hi => ?_⟩
        rw [or_eq_true, hlow i hi, hhigh i hi]
        split <;> omega

theorem Window.halves {h : ℕ} (hy : Window y (2 * h)) :
    (∀ i < h, (y i && y (h + i)) = false) ∧ Window (fun i => y i || y (h + i)) h ∨
      Window (fun i => y i && y (h + i)) h ∧ ∀ i < h, (y i || y (h + i)) = true := by
  obtain ⟨a, b, c, hy⟩ := hy
  cases c with
  | true => exact halves_of_interval hy
  | false =>
    have hnot : ∀ i < 2 * h, ((!y i) = true ↔ a ≤ i ∧ i < b) := by
      intro i hi
      rw [not_eq_true', hy i hi]
    rcases halves_of_interval hnot with ⟨hand, hor⟩ | ⟨hand, hor⟩
    · right
      refine ⟨?_, fun i hi => ?_⟩
      · simpa using hor.not
      · have hcell := hand i hi
        rwa [← Bool.not_or, not_eq_false'] at hcell
    · left
      refine ⟨fun i hi => ?_, ?_⟩
      · have hcell := hor i hi
        rwa [← Bool.not_and, not_eq_true'] at hcell
      · simpa using hand.not

theorem exists_threshold (hy : MonotoneOn y (Set.Iio n)) :
    ∃ t ≤ n, ∀ i < n, (y i = true ↔ t ≤ i) := by
  induction n with
  | zero => exact ⟨0, le_rfl, fun i hi => absurd hi (Nat.not_lt_zero i)⟩
  | succ n ih =>
    obtain ⟨t, ht, hbits⟩ := ih (hy.mono (Set.Iio_subset_Iio (le_succ n)))
    cases hlast : y n with
    | true =>
      refine ⟨t, ht.trans (le_succ n), fun i hi => ?_⟩
      rcases Nat.lt_or_eq_of_le (le_of_lt_succ hi) with hi | rfl
      · exact hbits i hi
      · exact iff_of_true hlast ht
    | false =>
      refine ⟨n + 1, le_rfl, fun i hi => iff_of_false ?_ (Nat.not_le.2 hi)⟩
      have hle := hy (Set.mem_Iio.2 hi) (Set.mem_Iio.2 n.lt_succ_self) (le_of_lt_succ hi)
      rw [hlast] at hle
      exact fun h => Bool.false_ne_true (hle h)

end Bits

section Sorted

variable {up : ℕ → Bool}

variable {j q : ℕ} {y : ℕ → Bool}

theorem monotoneOn_of_halves (hlow : MonotoneOn (block j (2 * q) y) (Set.Iio (2 ^ j)))
    (hhigh : MonotoneOn (block j (2 * q + 1) y) (Set.Iio (2 ^ j)))
    (hconst : (∀ i < 2 ^ j, block j (2 * q) y i = false) ∨
      ∀ i < 2 ^ j, block j (2 * q + 1) y i = true) :
    MonotoneOn (block (j + 1) q y) (Set.Iio (2 ^ (j + 1))) := by
  intro a ha b hb hab
  rcases lt_pow_succ ha with ha | ⟨r, hr, rfl⟩
  · rcases lt_pow_succ hb with hb | ⟨s, hs, rfl⟩
    · rw [block_low, block_low]
      exact hlow ha hb hab
    · rw [block_low, block_high]
      rcases hconst with hfalse | htrue
      · rw [hfalse a ha]
        exact Bool.false_le _
      · rw [htrue s hs]
        exact Bool.le_true _
  · rcases lt_pow_succ hb with hb | ⟨s, hs, rfl⟩
    · omega
    · rw [block_high, block_high]
      exact hhigh hr hs (Nat.le_of_add_le_add_left hab)

theorem merge_monotoneOn (hup : ∀ i < 2 ^ j, up (q * 2 ^ j + i) = true)
    (hy : Window (block j q y) (2 ^ j)) :
    MonotoneOn (block j q (merge up j y)) (Set.Iio (2 ^ j)) := by
  induction j generalizing q y with
  | zero =>
    intro a ha b hb _
    rw [Set.mem_Iio, Nat.pow_zero, lt_one_iff] at ha hb
    rw [ha, hb]
  | succ j ih =>
    have huplow : ∀ i < 2 ^ j, up (2 * q * 2 ^ j + i) = true := fun i hi =>
      (block_low up).symm.trans (hup i (by rw [Nat.pow_succ']; omega))
    have huphigh : ∀ i < 2 ^ j, up ((2 * q + 1) * 2 ^ j + i) = true := fun i hi =>
      (block_high up).symm.trans (hup (2 ^ j + i) (by rw [Nat.pow_succ']; omega))
    have hlow : ∀ i < 2 ^ j, block j (2 * q) (layer up j y) i =
        (block (j + 1) q y i && block (j + 1) q y (2 ^ j + i)) := by
      intro i hi
      rw [block, layer_low hi, if_pos (huplow i hi), block_low, block_high]
      rfl
    have hhigh : ∀ i < 2 ^ j, block j (2 * q + 1) (layer up j y) i =
        (block (j + 1) q y i || block (j + 1) q y (2 ^ j + i)) := by
      intro i hi
      rw [block, layer_high hi, if_pos (huphigh i hi), block_low, block_high, max_comm]
      rfl
    rw [Nat.pow_succ'] at hy
    -- one half has the same bit everywhere, so nothing is left to do between the halves
    rcases hy.halves with ⟨hconst, hwindow⟩ | ⟨hwindow, hconst⟩
    · have hfalse : ∀ i < 2 ^ j, block j (2 * q) (layer up j y) i = false := fun i hi =>
        (hlow i hi).trans (hconst i hi)
      refine monotoneOn_of_halves (ih huplow (.of_const hfalse))
        (ih huphigh (hwindow.congr hhigh)) (.inl (merge_const hfalse))
    · have htrue : ∀ i < 2 ^ j, block j (2 * q + 1) (layer up j y) i = true := fun i hi =>
        (hhigh i hi).trans (hconst i hi)
      refine monotoneOn_of_halves (ih huplow (hwindow.congr hlow))
        (ih huphigh (.of_const htrue)) (.inr (merge_const htrue))

theorem merge_antitoneOn (hup : ∀ i < 2 ^ j, up (q * 2 ^ j + i) = false)
    (hy : Window (block j q y) (2 ^ j)) :
    AntitoneOn (block j q (merge up j y)) (Set.Iio (2 ^ j)) := by
  have hmono : MonotoneOn (block j q (merge (fun i => !up i) j fun i => !y i))
      (Set.Iio (2 ^ j)) := by
    refine merge_monotoneOn (fun i hi => ?_) hy.not
    rw [hup i hi, Bool.not_false]
  rw [merge_not] at hmono
  intro a ha b hb hab
  exact compl_le_compl_iff_le.1 (hmono ha hb hab)

theorem window_of_halves {k : ℕ} (hlow : MonotoneOn (block k (2 * q) y) (Set.Iio (2 ^ k)))
    (hhigh : AntitoneOn (block k (2 * q + 1) y) (Set.Iio (2 ^ k))) :
    Window (block (k + 1) q y) (2 ^ (k + 1)) := by
  obtain ⟨t, ht, hup⟩ := exists_threshold hlow
  have hnot : MonotoneOn (fun i => !block k (2 * q + 1) y i) (Set.Iio (2 ^ k)) := by
    intro a ha b hb hab
    exact compl_le_compl (hhigh ha hb hab)
  obtain ⟨u, hu, hdown⟩ := exists_threshold hnot
  refine ⟨t, 2 ^ k + u, true, fun i hi => ?_⟩
  rcases lt_pow_succ hi with hi | ⟨r, hr, rfl⟩
  · rw [block_low, hup i hi]
    omega
  · have hbit := hdown r hr
    rw [not_eq_true'] at hbit
    rw [block_high, ← not_eq_false, hbit]
    omega

theorem sort_bits {up : ℕ → ℕ → Bool} {n : ℕ} (hdir : ∀ k < n, ∀ i, up k i = !i.testBit k)
    (y : ℕ → Bool) : ∀ k < n, ∀ q, MonotoneOn (block k (2 * q) (sort up k y)) (Set.Iio (2 ^ k)) ∧
      AntitoneOn (block k (2 * q + 1) (sort up k y)) (Set.Iio (2 ^ k)) := by
  intro k
  induction k with
  | zero =>
    intro hn q
    constructor
    · intro a ha b hb _
      rw [Set.mem_Iio, Nat.pow_zero, lt_one_iff] at ha hb
      rw [ha, hb]
    · intro a ha b hb _
      rw [Set.mem_Iio, Nat.pow_zero, lt_one_iff] at ha hb
      rw [ha, hb]
  | succ k ih =>
    intro hk q
    have hwindow : ∀ r, Window (block (k + 1) r (sort up k y)) (2 ^ (k + 1)) := fun r =>
      window_of_halves (ih (by omega) r).1 (ih (by omega) r).2
    constructor
    · refine merge_monotoneOn (fun i hi => ?_) (hwindow (2 * q))
      rw [hdir (k + 1) hk, testBit_low hi, Bool.not_false]
    · refine merge_antitoneOn (fun i hi => ?_) (hwindow (2 * q + 1))
      rw [hdir (k + 1) hk, testBit_high hi, Bool.not_true]

theorem sort_monotoneOn {up : ℕ → ℕ → Bool} {n : ℕ} (hdir : ∀ k < n, ∀ i, up k i = !i.testBit k)
    (hlast : ∀ i, up n i = true) (x : ℕ → α) (q : ℕ) :
    MonotoneOn (block n q (sort up n x)) (Set.Iio (2 ^ n)) := by
  refine sorted_of_bits (fun x => block n q (sort up n x)) (fun y => block n q (sort up n y))
    (fun f hf x => ?_) (fun y => ?_) x
  · rw [sort_comp hf]
    rfl
  · cases n with
    | zero =>
      intro a ha b hb _
      rw [Set.mem_Iio, Nat.pow_zero, lt_one_iff] at ha hb
      rw [ha, hb]
    | succ k =>
      have hblocks := sort_bits hdir y k k.lt_succ_self q
      exact merge_monotoneOn (fun i _ => hlast _) (window_of_halves hblocks.1 hblocks.2)

end Sorted

section Permutation

variable {n q j : ℕ}

theorem xor_block (hj : j < n) {i : ℕ} (hi : i < 2 ^ n) :
    (q * 2 ^ n + i) ^^^ 2 ^ j = q * 2 ^ n + (i ^^^ 2 ^ j) := by
  have hpow : 2 ^ j < 2 ^ n := Nat.pow_lt_pow_right (by decide) hj
  have hdiv : ((q * 2 ^ n + i) ^^^ 2 ^ j) / 2 ^ n = q := by
    rw [xor_div_two_pow, div_eq_of_lt hpow, xor_zero, Nat.add_comm,
      add_mul_div_right _ _ (Nat.two_pow_pos n), div_eq_of_lt hi, Nat.zero_add]
  have hmod : ((q * 2 ^ n + i) ^^^ 2 ^ j) % 2 ^ n = i ^^^ 2 ^ j := by
    rw [xor_mod_two_pow, mod_eq_of_lt hpow, mul_add_mod', mod_eq_of_lt hi]
  rw [← div_add_mod' ((q * 2 ^ n + i) ^^^ 2 ^ j) (2 ^ n), hdiv, hmod]

theorem testBit_xor_self (j i : ℕ) : (i ^^^ 2 ^ j).testBit j = !i.testBit j := by
  rw [testBit_xor, testBit_two_pow_self, Bool.xor_true]

def Takes (up : ℕ → Bool) (j : ℕ) (x : ℕ → α) (i : ℕ) : Prop :=
  if (!i.testBit j) = up i then x (i ^^^ 2 ^ j) < x i else x i < x (i ^^^ 2 ^ j)

instance (up : ℕ → Bool) (j : ℕ) (x : ℕ → α) (i : ℕ) : Decidable (Takes up j x i) :=
  inferInstanceAs (Decidable (ite _ _ _))

theorem layer_eq (up : ℕ → Bool) (j : ℕ) (x : ℕ → α) (i : ℕ) :
    layer up j x i = if Takes up j x i then x (i ^^^ 2 ^ j) else x i := by
  rw [layer]
  unfold Takes
  split
  · rw [min_comm, min_def_lt]
  · rw [max_def_lt]

variable {up : ℕ → Bool}

theorem takes_xor (hup : ∀ i, up (i ^^^ 2 ^ j) = up i) (x : ℕ → α) (i : ℕ) :
    Takes up j x (i ^^^ 2 ^ j) ↔ Takes up j x i := by
  unfold Takes
  rw [testBit_xor_self, hup, xor_xor_cancel_right]
  cases i.testBit j <;> cases up i <;> rfl

theorem layer_perm (hup : ∀ i, up (i ^^^ 2 ^ j) = up i) (hj : j < n) (x : ℕ → α) :
    ((range (2 ^ n)).map (block n q (layer up j x))).Perm
      ((range (2 ^ n)).map (block n q x)) := by
  have hpow : 2 ^ j < 2 ^ n := Nat.pow_lt_pow_right (by decide) hj
  have heq : (range (2 ^ n)).map (block n q (layer up j x)) =
      (range (2 ^ n)).map (block n q x ∘ fun i =>
        if Takes up j x (q * 2 ^ n + i) then i ^^^ 2 ^ j else i) := by
    refine map_congr_left fun i hi => ?_
    rw [block, layer_eq, xor_block hj (mem_range.1 hi), Function.comp_apply]
    split <;> rfl
  rw [heq]
  refine perm_of_involutive (fun i hi => ?_) _
  by_cases htakes : Takes up j x (q * 2 ^ n + i)
  · have hback : Takes up j x (q * 2 ^ n + (i ^^^ 2 ^ j)) := by
      rwa [← xor_block hj hi, takes_xor hup]
    rw [if_pos htakes, if_pos hback]
    exact ⟨xor_lt_two_pow hi hpow, xor_xor_cancel_right _ _⟩
  · rw [if_neg htakes, if_neg htakes]
    exact ⟨hi, rfl⟩

theorem merge_perm (hup : ∀ i < j, ∀ m, up (m ^^^ 2 ^ i) = up m) (hj : j ≤ n) (x : ℕ → α) :
    ((range (2 ^ n)).map (block n q (merge up j x))).Perm
      ((range (2 ^ n)).map (block n q x)) := by
  induction j generalizing x with
  | zero => exact .refl _
  | succ j ih =>
    refine (ih (fun i hi => hup i (by omega)) (by omega) _).trans ?_
    exact layer_perm (hup j j.lt_succ_self) hj x

theorem sort_perm {up : ℕ → ℕ → Bool} {k : ℕ}
    (hup : ∀ m ≤ k, ∀ i < m, ∀ l, up m (l ^^^ 2 ^ i) = up m l) (hk : k ≤ n) (x : ℕ → α) :
    ((range (2 ^ n)).map (block n q (sort up k x))).Perm
      ((range (2 ^ n)).map (block n q x)) := by
  induction k with
  | zero => exact .refl _
  | succ k ih =>
    refine (merge_perm (hup (k + 1) le_rfl) hk _).trans ?_
    exact ih (fun m hm => hup m (by omega)) (by omega)

end Permutation

section Locality

variable {n q j : ℕ} {x x' : ℕ → α}

theorem layer_congr (up : ℕ → Bool) (hj : j < n)
    (hx : ∀ i < 2 ^ n, block n q x i = block n q x' i) :
    ∀ i < 2 ^ n, block n q (layer up j x) i = block n q (layer up j x') i := by
  intro i hi
  have hpow : 2 ^ j < 2 ^ n := Nat.pow_lt_pow_right (by decide) hj
  have hsame : x (q * 2 ^ n + i) = x' (q * 2 ^ n + i) := hx i hi
  have hpartner : x (q * 2 ^ n + (i ^^^ 2 ^ j)) = x' (q * 2 ^ n + (i ^^^ 2 ^ j)) :=
    hx _ (xor_lt_two_pow hi hpow)
  rw [block, block, layer, layer, xor_block hj hi, hsame, hpartner]

theorem merge_congr (up : ℕ → Bool) (hj : j ≤ n)
    (hx : ∀ i < 2 ^ n, block n q x i = block n q x' i) :
    ∀ i < 2 ^ n, block n q (merge up j x) i = block n q (merge up j x') i := by
  induction j generalizing x x' with
  | zero => exact hx
  | succ j ih => exact ih (by omega) (layer_congr up hj hx)

theorem sort_congr (up : ℕ → ℕ → Bool) {k : ℕ} (hk : k ≤ n)
    (hx : ∀ i < 2 ^ n, block n q x i = block n q x' i) :
    ∀ i < 2 ^ n, block n q (sort up k x) i = block n q (sort up k x') i := by
  induction k with
  | zero => exact hx
  | succ k ih => exact merge_congr (up (k + 1)) hk (ih (by omega))

end Locality

end Quadrants.Library.BitonicNetwork
