import Mathlib.Algebra.Ring.Parity
import Mathlib.Tactic.Ring
import Quadrants.Library.SortingNetwork

/-!
Batcher's odd-even merge on bits. The cells of distance `k` to each other are a column, and a layer
compares neighbours in each column. How many `false` a column has follows from where the two sorted
halves change.
-/

namespace Quadrants.Library.OddEvenMerge

open Nat Bool

/-- Cell `i` is the low end of a comparator of layer `k` in the merge of runs of `p` cells. -/
def Compares (p k i : ℕ) : Prop :=
  k % p ≤ i ∧ (i - k % p) / k % 2 = 0 ∧ i / (2 * p) = (i + k) / (2 * p)

instance (p k i : ℕ) : Decidable (Compares p k i) :=
  inferInstanceAs (Decidable (_ ∧ _))

def layer (p k : ℕ) (y : ℕ → Bool) (i : ℕ) : Bool :=
  if Compares p k i then y i && y (i + k)
  else if k ≤ i ∧ Compares p k (i - k) then y (i - k) || y i
  else y i

def layers (p : ℕ) : ℕ → (ℕ → Bool) → ℕ → Bool
  | 0, y => layer p 1 y
  | t + 1, y => layers p t (layer p (2 ^ (t + 1)) y)

def Runs (p : ℕ) (y : ℕ → Bool) : Prop :=
  ∀ q, ∃ z ≤ p, ∀ m < p, (y (p * q + m) = true ↔ z ≤ m)

section Columns

def rank (k z r : ℕ) : ℕ :=
  (z + k - 1 - r) / k

variable {k r : ℕ}

theorem rank_split (hr : r < k) (z : ℕ) :
    rank k z r = rank (2 * k) z r + rank (2 * k) z (r + k) := by
  have hhigh : z + 2 * k - 1 - (r + k) = z + k - 1 - r := by omega
  have hlow : z + 2 * k - 1 - r = z + k - 1 - r + k := by omega
  rw [rank, rank, rank, hhigh, hlow, Nat.mul_comm 2 k, ← Nat.div_div_eq_div_mul,
    ← Nat.div_div_eq_div_mul, add_div_right _ (by omega)]
  omega

theorem rank_close (hr : r < k) (z : ℕ) : rank (2 * k) z (r + k) ≤ rank (2 * k) z r ∧
      rank (2 * k) z r ≤ rank (2 * k) z (r + k) + 1 := by
  have hhigh : z + 2 * k - 1 - (r + k) = z + k - 1 - r := by omega
  have hlow : z + 2 * k - 1 - r = z + k - 1 - r + k := by omega
  rw [rank, rank, hhigh, hlow, Nat.mul_comm 2 k, ← Nat.div_div_eq_div_mul,
    ← Nat.div_div_eq_div_mul, add_div_right _ (by omega)]
  omega

theorem rank_le (hr : r < k) {z n : ℕ} (hz : z ≤ k * n) : rank k z r ≤ n := by
  refine le_of_lt_succ ((Nat.div_lt_iff_lt_mul (by omega)).2 ?_)
  rw [succ_mul, Nat.mul_comm n k]
  omega

theorem rank_self (hr : r < k) {z : ℕ} (hz : z ≤ k) : rank k z r = if r < z then 1 else 0 := by
  split
  · refine Nat.div_eq_of_lt_le ?_ ?_ <;> omega
  · exact div_eq_of_lt (by omega)

theorem rank_one (z : ℕ) : rank 1 z 0 = z := by
  rw [rank, Nat.div_one, Nat.add_sub_cancel, Nat.sub_zero]

end Columns

theorem threshold_odd {w w' : ℕ → Bool} {M a b : ℕ} (heven : ∀ i < M, (w (2 * i) = true ↔ a ≤ i))
    (hodd : ∀ i < M, (w (2 * i + 1) = true ↔ b ≤ i)) (hba : b ≤ a) (hab : a ≤ b + 2) (ha : a ≤ M)
    (hcompare : ∀ i, i + 1 < M → w' (2 * i + 1) = (w (2 * i + 1) && w (2 * (i + 1))) ∧
      w' (2 * (i + 1)) = (w (2 * i + 1) || w (2 * (i + 1))))
    (hfirst : w' 0 = w 0) (hlast : ∀ i, i + 1 = M → w' (2 * i + 1) = w (2 * i + 1)) :
    ∀ m < 2 * M, (w' m = true ↔ a + b ≤ m) := by
  intro m hm
  rcases even_or_odd' m with ⟨i, rfl | rfl⟩
  · cases i with
    | zero =>
      rw [Nat.mul_zero, hfirst, heven 0 (by omega)]
      omega
    | succ i =>
      rw [(hcompare i (by omega)).2, or_eq_true, heven _ (by omega), hodd i (by omega)]
      omega
  · rcases Nat.lt_or_ge (i + 1) M with hi | hi
    · rw [(hcompare i hi).1, and_eq_true, heven _ hi, hodd i (by omega)]
      omega
    · rw [hlast i (by omega), hodd i (by omega)]
      omega

section Layers

variable {p k r : ℕ}

theorem div_column (hr : r < k) (n : ℕ) : (k * n + r) / k = n := by
  rw [mul_add_div (by omega), div_eq_of_lt hr, Nat.add_zero]

theorem compares_top (hr : r < p) (n : ℕ) : Compares p p (p * n + r) ↔ n % 2 = 0 := by
  have hnext : p * n + r + p = p * (n + 1) + r := by
    rw [mul_succ]
    omega
  rw [Compares, mod_self, Nat.sub_zero, hnext, Nat.mul_comm 2 p, ← Nat.div_div_eq_div_mul,
    ← Nat.div_div_eq_div_mul, div_column hr, div_column hr]
  omega

theorem compares_column (hr : r < k) {L : ℕ} (hL : 0 < L) (n : ℕ) :
    Compares (k * (2 * L)) k (k * n + r) ↔ n % 2 = 1 ∧ n / (4 * L) = (n + 1) / (4 * L) := by
  have hwidth : 2 * (k * (2 * L)) = k * (4 * L) := by ring
  have hmod : k % (k * (2 * L)) = k := by
    refine mod_eq_of_lt ?_
    calc k = k * 1 := (Nat.mul_one k).symm
      _ < k * (2 * L) := Nat.mul_lt_mul_of_pos_left (by omega) (by omega)
  have hnext : k * n + r + k = k * (n + 1) + r := by
    rw [mul_succ]
    omega
  rw [Compares, hmod, hwidth, hnext, ← Nat.div_div_eq_div_mul _ k (4 * L),
    ← Nat.div_div_eq_div_mul _ k (4 * L), div_column hr, div_column hr]
  cases n with
  | zero => omega
  | succ n =>
    have hback : k * (n + 1) + r - k = k * n + r := by
      rw [mul_succ]
      omega
    rw [hback, div_column hr, mul_succ]
    omega

def column (k r : ℕ) (y : ℕ → Bool) (n : ℕ) : Bool :=
  y (k * n + r)

variable {y : ℕ → Bool} {n : ℕ}

theorem column_next (k r n : ℕ) (y : ℕ → Bool) : y (k * n + r + k) = column k r y (n + 1) := by
  rw [column, mul_succ, Nat.add_right_comm]

theorem column_prev (k r n : ℕ) : k * (n + 1) + r - k = k * n + r := by
  rw [mul_succ]
  omega

theorem column_layer_low (h : Compares p k (k * n + r)) :
    column k r (layer p k y) n = (column k r y n && column k r y (n + 1)) := by
  rw [column, layer, if_pos h, column_next k r n y]
  rfl

theorem column_layer_high (hnot : ¬Compares p k (k * (n + 1) + r)) (h : Compares p k (k * n + r)) :
    column k r (layer p k y) (n + 1) = (column k r y n || column k r y (n + 1)) := by
  have hle : k ≤ k * (n + 1) + r := by
    rw [mul_succ]
    omega
  rw [column, layer, if_neg hnot, column_prev, if_pos ⟨hle, h⟩]
  rfl

theorem column_layer_same (hnot : ¬Compares p k (k * n + r))
    (hprev : ∀ m, n = m + 1 → ¬Compares p k (k * m + r)) (hr : r < k) :
    column k r (layer p k y) n = column k r y n := by
  rw [column, layer, if_neg hnot, if_neg]
  · rfl
  · rintro ⟨hle, h⟩
    cases n with
    | zero => omega
    | succ n =>
      rw [column_prev] at h
      exact hprev n rfl h

end Layers

section Merge

variable {k : ℕ} {y : ℕ → Bool}

/-- In block `q` of `2 * p` cells every column is sorted; `z₀` and `z₁` are where the two runs
changed before the merge. -/
def Sorted (p k q z₀ z₁ : ℕ) (y : ℕ → Bool) : Prop :=
  ∀ r < k, ∀ m < 2 * (p / k),
    (column k r y (2 * (p / k) * q + m) = true ↔ rank k z₀ r + rank k z₁ r ≤ m)

theorem sorted_top {p q z₀ z₁ : ℕ} (hp : 0 < p) (h₀ : z₀ ≤ p) (h₁ : z₁ ≤ p)
    (hlow : ∀ m < p, (y (p * (2 * q) + m) = true ↔ z₀ ≤ m))
    (hhigh : ∀ m < p, (y (p * (2 * q + 1) + m) = true ↔ z₁ ≤ m)) :
    Sorted p p q z₀ z₁ (layer p p y) := by
  intro r hr m hm
  rw [Nat.div_self hp] at hm ⊢
  have hclow : column p r y (2 * q) = true ↔ z₀ ≤ r := hlow r hr
  have hchigh : column p r y (2 * q + 1) = true ↔ z₁ ≤ r := hhigh r hr
  rw [rank_self hr h₀, rank_self hr h₁]
  rcases Nat.lt_or_ge m 1 with hm | hm
  · have hzero : m = 0 := by omega
    rw [hzero, Nat.add_zero, column_layer_low ((compares_top hr _).2 (by omega)), and_eq_true,
      hclow, hchigh]
    split <;> split <;> omega
  · have hone : m = 1 := by omega
    rw [hone, column_layer_high (fun h => absurd ((compares_top hr _).1 h) (by omega))
      ((compares_top hr _).2 (by omega)), or_eq_true, hclow, hchigh]
    split <;> split <;> omega

theorem column_even (k r n : ℕ) (y : ℕ → Bool) : column k r y (2 * n) = column (2 * k) r y n := by
  rw [column, column]
  ring_nf

theorem column_odd (k r n : ℕ) (y : ℕ → Bool) :
    column k r y (2 * n + 1) = column (2 * k) (r + k) y n := by
  rw [column, column]
  ring_nf

theorem compares_block {L r : ℕ} (hr : r < k) (hL : 0 < L) (q : ℕ) {m : ℕ} (hm : m < 4 * L) :
    Compares (k * (2 * L)) k (k * (4 * L * q + m) + r) ↔ m % 2 = 1 ∧ m + 1 < 4 * L := by
  have hmod : (4 * L * q + m) % 2 = m % 2 := by
    rw [Nat.mul_assoc, show 4 * (L * q) = 2 * (2 * (L * q)) by ring, mul_add_mod]
  rw [compares_column hr hL, hmod, mul_add_div (by omega), div_eq_of_lt hm, Nat.add_assoc,
    mul_add_div (by omega)]
  refine and_congr_right fun _ => ?_
  rcases Nat.lt_or_ge (m + 1) (4 * L) with hlt | hge
  · exact iff_of_true (by rw [div_eq_of_lt hlt]) hlt
  · have hone : (m + 1) / (4 * L) = 1 := Nat.div_eq_of_lt_le (by omega) (by omega)
    omega

theorem not_compares_before {L r : ℕ} (hr : r < k) (hL : 0 < L) {q n : ℕ} (hn : 4 * L * q = n + 1) :
    ¬Compares (k * (2 * L)) k (k * n + r) := by
  rw [compares_column hr hL, ← hn, Nat.mul_div_cancel_left _ (by omega)]
  rintro ⟨-, hdiv⟩
  have hlt : n / (4 * L) < q := by
    rw [Nat.div_lt_iff_lt_mul (by omega), Nat.mul_comm q]
    omega
  omega

theorem sorted_step {L q z₀ z₁ : ℕ} (hk : 0 < k) (hL : 0 < L) (h₀ : z₀ ≤ k * (2 * L))
    (h₁ : z₁ ≤ k * (2 * L)) (hy : Sorted (k * (2 * L)) (2 * k) q z₀ z₁ y) :
    Sorted (k * (2 * L)) k q z₀ z₁ (layer (k * (2 * L)) k y) := by
  intro r hr
  have hwidth : k * (2 * L) / (2 * k) = L := by
    rw [← Nat.mul_assoc, Nat.mul_comm k 2, Nat.mul_div_cancel_left _ (by omega)]
  have hdouble : 2 * k * L = k * (2 * L) := by ring
  have hstart : 2 * (2 * L) * q = 4 * L * q := by ring
  rw [Sorted, hwidth] at hy
  rw [Nat.mul_div_cancel_left _ hk, rank_split hr z₀, rank_split hr z₁, hstart]
  have hclose₀ := rank_close hr z₀
  have hclose₁ := rank_close hr z₁
  have hle₀ : rank (2 * k) z₀ r ≤ L := rank_le (by omega) (hdouble ▸ h₀)
  have hle₁ : rank (2 * k) z₁ r ≤ L := rank_le (by omega) (hdouble ▸ h₁)
  have heven : ∀ i < 2 * L, (column k r y (4 * L * q + 2 * i) = true ↔
      rank (2 * k) z₀ r + rank (2 * k) z₁ r ≤ i) := by
    intro i hi
    rw [show 4 * L * q + 2 * i = 2 * (2 * L * q + i) by ring, column_even]
    exact hy r (by omega) i hi
  have hodd : ∀ i < 2 * L, (column k r y (4 * L * q + (2 * i + 1)) = true ↔
      rank (2 * k) z₀ (r + k) + rank (2 * k) z₁ (r + k) ≤ i) := by
    intro i hi
    rw [show 4 * L * q + (2 * i + 1) = 2 * (2 * L * q + i) + 1 by ring, column_odd]
    exact hy (r + k) (by omega) i hi
  have hcompare : ∀ i, i + 1 < 2 * L →
      column k r (layer (k * (2 * L)) k y) (4 * L * q + (2 * i + 1)) =
        (column k r y (4 * L * q + (2 * i + 1)) && column k r y (4 * L * q + 2 * (i + 1))) ∧
      column k r (layer (k * (2 * L)) k y) (4 * L * q + 2 * (i + 1)) =
        (column k r y (4 * L * q + (2 * i + 1)) || column k r y (4 * L * q + 2 * (i + 1))) := by
    intro i hi
    have hlow := (compares_block hr hL q (m := 2 * i + 1) (by omega)).2 (by omega)
    have hhigh : ¬Compares (k * (2 * L)) k (k * (4 * L * q + (2 * i + 1) + 1) + r) := by
      rw [Nat.add_assoc, compares_block hr hL q (by omega)]
      omega
    exact ⟨column_layer_low hlow, column_layer_high hhigh hlow⟩
  have hfirst : column k r (layer (k * (2 * L)) k y) (4 * L * q + 0) =
      column k r y (4 * L * q + 0) := by
    refine column_layer_same ?_ (fun m hm => not_compares_before hr hL hm) hr
    rw [compares_block hr hL q (by omega)]
    omega
  have hlast : ∀ i, i + 1 = 2 * L → column k r (layer (k * (2 * L)) k y) (4 * L * q + (2 * i + 1)) =
      column k r y (4 * L * q + (2 * i + 1)) := by
    intro i hi
    refine column_layer_same ?_ (fun m hm => ?_) hr
    · rw [compares_block hr hL q (by omega)]
      omega
    · have hprev : m = 4 * L * q + 2 * i := by omega
      rw [hprev, compares_block hr hL q (by omega)]
      omega
  have hbits := @threshold_odd (fun m => column k r y (4 * L * q + m))
    (fun m => column k r (layer (k * (2 * L)) k y) (4 * L * q + m)) (2 * L) _ _ heven hodd
    (by omega) (by omega) (by omega) hcompare hfirst hlast
  intro m hm
  refine (hbits m hm).trans ?_
  omega

theorem layers_sorted {p t L q z₀ z₁ : ℕ} (hp : p = 2 ^ t * (2 * L)) (hL : 0 < L) (h₀ : z₀ ≤ p)
    (h₁ : z₁ ≤ p) (hy : Sorted p (2 ^ (t + 1)) q z₀ z₁ y) : Sorted p 1 q z₀ z₁ (layers p t y) := by
  induction t generalizing L y with
  | zero =>
    subst hp
    exact sorted_step (Nat.two_pow_pos 0) hL h₀ h₁ hy
  | succ t ih =>
    have hstep : Sorted p (2 ^ (t + 1)) q z₀ z₁ (layer p (2 ^ (t + 1)) y) := by
      rw [Nat.pow_succ' (n := t + 1)] at hy
      subst hp
      exact sorted_step (Nat.two_pow_pos (t + 1)) hL h₀ h₁ hy
    refine ih (L := 2 * L) ?_ (by omega) hstep
    rw [hp]
    ring

end Merge

section Phases

variable {y : ℕ → Bool}

theorem sorted_one {p q z₀ z₁ : ℕ} (hy : Sorted p 1 q z₀ z₁ y) :
    ∀ m < 2 * p, (y (2 * p * q + m) = true ↔ z₀ + z₁ ≤ m) := by
  intro m hm
  have hcell := hy 0 Nat.one_pos m (by rwa [Nat.div_one])
  rwa [rank_one, rank_one, column, Nat.div_one, Nat.one_mul] at hcell

theorem runs_one (y : ℕ → Bool) : Runs 1 y := by
  intro q
  cases hbit : y q with
  | false =>
    refine ⟨1, le_rfl, fun m hm => ?_⟩
    rw [lt_one_iff.1 hm, Nat.one_mul, Nat.add_zero, hbit]
    decide
  | true =>
    refine ⟨0, Nat.zero_le 1, fun m hm => ?_⟩
    rw [lt_one_iff.1 hm, Nat.one_mul, Nat.add_zero, hbit]
    decide

theorem Runs.sorted {p : ℕ} (hy : Runs p y) {i j : ℕ} (hij : i ≤ j) (hj : j < p) : y i ≤ y j := by
  obtain ⟨z, -, hbits⟩ := hy 0
  rw [Nat.mul_zero] at hbits
  have hi := hbits i (by omega)
  have hjz := hbits j hj
  rw [Nat.zero_add] at hi hjz
  rw [le_iff_imp, hi, hjz]
  omega

theorem layers_runs (s : ℕ) (hy : Runs (2 ^ s) y) : Runs (2 ^ (s + 1)) (layers (2 ^ s) s y) := by
  intro q
  obtain ⟨z₀, h₀, hlow⟩ := hy (2 * q)
  obtain ⟨z₁, h₁, hhigh⟩ := hy (2 * q + 1)
  have htop := sorted_top (Nat.two_pow_pos s) h₀ h₁ hlow hhigh
  have hsorted : Sorted (2 ^ s) 1 q z₀ z₁ (layers (2 ^ s) s y) := by
    cases s with
    | zero => exact htop
    | succ t =>
      rw [layers]
      refine layers_sorted (L := 1) ?_ Nat.one_pos h₀ h₁ htop
      rw [Nat.pow_succ]
  have hbits := sorted_one hsorted
  rw [Nat.pow_succ']
  exact ⟨z₀ + z₁, by omega, hbits⟩

end Phases

end Quadrants.Library.OddEvenMerge
