import Mathlib.Algebra.Group.Defs
import Mathlib.Data.Nat.Bitwise

/-!
Powers by repeated squaring. The product of the squares need not be associative.
-/

namespace Quadrants.Library.SquareMultiply

section Mul

variable {α : Type} [Mul α]

def square (x : α) : ℕ → α
  | 0 => x
  | k + 1 => square x k * square x k

def digitProduct (x : α) (n : ℕ) : ℕ → Option α
  | 0 => none
  | k + 1 =>
    if n.testBit k then
      some (match digitProduct x n k with
        | none => square x k
        | some r => r * square x k)
    else digitProduct x n k

theorem digitProduct_of_lt {x : α} {n k : ℕ} (h : n < 2 ^ k) (m : ℕ) :
    digitProduct x n (k + m) = digitProduct x n k := by
  induction m with
  | zero => rfl
  | succ m ih =>
    have hle : 2 ^ k ≤ 2 ^ (k + m) := Nat.pow_le_pow_right (by decide) (Nat.le_add_right k m)
    have hbit : n.testBit (k + m) = false := Nat.testBit_lt_two_pow (h.trans_le hle)
    rw [← Nat.add_assoc, digitProduct, hbit, if_neg (by decide), ih]

theorem digitProduct_eq {x : α} {n j k : ℕ} (hj : n < 2 ^ j) (hk : n < 2 ^ k) :
    digitProduct x n j = digitProduct x n k := by
  rcases Nat.le_total j k with h | h
  · obtain ⟨m, rfl⟩ := Nat.exists_eq_add_of_le h
    exact (digitProduct_of_lt hj m).symm
  · obtain ⟨m, rfl⟩ := Nat.exists_eq_add_of_le h
    exact digitProduct_of_lt hk m

theorem digitProduct_isSome {x : α} {n k : ℕ} (hn : 0 < n) (hk : n < 2 ^ k) :
    (digitProduct x n k).isSome = true := by
  have hnone : ∀ k, digitProduct x n k = none → n % 2 ^ k = 0 := by
    intro k
    induction k with
    | zero => exact fun _ => Nat.mod_one n
    | succ k ih =>
      intro h
      rw [digitProduct] at h
      split at h
      · cases h
      · next hbit =>
          rw [Nat.testBit_eq_decide_div_mod_eq, decide_eq_true_eq] at hbit
          rw [Nat.mod_pow_succ, ih h, show n / 2 ^ k % 2 = 0 by omega, Nat.mul_zero]
  cases h : digitProduct x n k with
  | none =>
    have hzero := hnone k h
    rw [Nat.mod_eq_of_lt hk] at hzero
    omega
  | some r => rfl

end Mul

section One

variable {α : Type} [MulOneClass α]

def binaryPower (x : α) (n : ℕ) : α :=
  (digitProduct x n n).getD 1

theorem digitProduct_getD {x : α} {n k : ℕ} (h : n < 2 ^ k) :
    (digitProduct x n k).getD 1 = binaryPower x n := by
  rw [binaryPower, digitProduct_eq h Nat.lt_two_pow_self]

theorem digitProduct_succ (x : α) (n k : ℕ) : (digitProduct x n (k + 1)).getD 1 =
      if n.testBit k then (digitProduct x n k).getD 1 * square x k
      else (digitProduct x n k).getD 1 := by
  rw [digitProduct]
  split
  · cases digitProduct x n k with
    | none => exact (one_mul _).symm
    | some r => rfl
  · rfl

end One

section Monoid

variable {α : Type} [Monoid α]

theorem square_eq_pow (x : α) (k : ℕ) : square x k = x ^ 2 ^ k := by
  induction k with
  | zero => exact (pow_one x).symm
  | succ k ih => rw [square, ih, ← pow_add, Nat.pow_succ, Nat.mul_two]

theorem digitProduct_eq_pow (x : α) (n k : ℕ) : (digitProduct x n k).getD 1 = x ^ (n % 2 ^ k) := by
  induction k with
  | zero => rw [pow_zero, Nat.mod_one, pow_zero, digitProduct, Option.getD_none]
  | succ k ih =>
    rw [digitProduct_succ, ih, square_eq_pow, Nat.mod_pow_succ, Nat.testBit_eq_decide_div_mod_eq]
    rcases Nat.mod_two_eq_zero_or_one (n / 2 ^ k) with hdigit | hdigit
    · rw [hdigit, Nat.mul_zero]
      exact if_neg (by decide)
    · rw [hdigit, Nat.mul_one, pow_add]
      exact if_pos (by decide)

theorem binaryPower_eq_pow (x : α) (n : ℕ) : binaryPower x n = x ^ n := by
  rw [binaryPower, digitProduct_eq_pow, Nat.mod_eq_of_lt Nat.lt_two_pow_self]

end Monoid

end Quadrants.Library.SquareMultiply
