import Mathlib.Data.Int.Notation
import Mathlib.Data.Nat.Log
import Mathlib.Tactic.Ring
import Mathlib.Tactic.Linarith

/-!
Integers rounded to the nearest number with a given count of significant bits, ties to the even one.
-/

namespace Quadrants.Library.BinaryRounding

open Nat Int

def excess (p n : ℕ) : ℕ :=
  n.log2 + 1 - p

/-- The part below the last significant bit is more than a half, or a half with an odd bit above. -/
def RoundsUp (p n : ℕ) : Prop :=
  2 ^ excess p n < 2 * (n % 2 ^ excess p n) ∨
    2 * (n % 2 ^ excess p n) = 2 ^ excess p n ∧ n / 2 ^ excess p n % 2 = 1

instance (p n : ℕ) : Decidable (RoundsUp p n) :=
  inferInstanceAs (Decidable (_ ∨ _))

def roundNat (p n : ℕ) : ℕ :=
  (n / 2 ^ excess p n + if RoundsUp p n then 1 else 0) * 2 ^ excess p n

def round (p : ℕ) (z : ℤ) : ℤ :=
  z.sign * (roundNat p z.natAbs : ℕ)

def Representable (p : ℕ) (z : ℤ) : Prop :=
  2 ^ excess p z.natAbs ∣ z.natAbs

instance (p : ℕ) (z : ℤ) : Decidable (Representable p z) :=
  inferInstanceAs (Decidable (_ ∣ _))

variable {p n : ℕ}

theorem excess_eq_zero (hp : 0 < p) (h : n < 2 ^ p) : excess p n = 0 := by
  by_cases hn : n = 0
  · rw [hn, excess, log2_zero]
    omega
  · have hlog := (log2_lt hn).2 h
    rw [excess]
    omega

theorem log2_eq (h : 0 < excess p n) : n.log2 + 1 = p + excess p n := by
  rw [excess] at h ⊢
  omega

theorem roundNat_parts (p n : ℕ) :
    (RoundsUp p n ∧ roundNat p n + n % 2 ^ excess p n = n + 2 ^ excess p n) ∨
      (¬RoundsUp p n ∧ roundNat p n + n % 2 ^ excess p n = n) := by
  have hdiv := div_add_mod' n (2 ^ excess p n)
  unfold roundNat
  by_cases h : RoundsUp p n
  · rw [if_pos h]
    refine .inl ⟨h, ?_⟩
    rw [Nat.add_mul]
    omega
  · rw [if_neg h]
    refine .inr ⟨h, ?_⟩
    exact hdiv

theorem RoundsUp.le {p n : ℕ} (h : RoundsUp p n) : 2 ^ excess p n ≤ 2 * (n % 2 ^ excess p n) := by
  rcases h with h | h
  · exact h.le
  · exact h.1.ge

theorem roundNat_eq_self_iff (p n : ℕ) : roundNat p n = n ↔ 2 ^ excess p n ∣ n := by
  rcases roundNat_parts p n with ⟨hup, h⟩ | ⟨-, h⟩
  · have hle := hup.le
    omega
  · omega

theorem roundNat_eq_succ_iff (p n : ℕ) : roundNat p n = n + 1 ↔
      0 < excess p n ∧ n % 2 ^ excess p n = 2 ^ excess p n - 1 ∧
        (excess p n = 1 → n / 2 % 2 = 1) := by
  have hlt : n % 2 ^ excess p n < 2 ^ excess p n := mod_lt _ (Nat.two_pow_pos _)
  have hparts := roundNat_parts p n
  unfold RoundsUp at hparts
  rcases Nat.lt_trichotomy (excess p n) 1 with hk | hk | hk
  · have hzero : excess p n = 0 := by omega
    rw [hzero] at hparts hlt ⊢
    omega
  · rw [hk] at hparts hlt ⊢
    omega
  · have hpow : 4 ≤ 2 ^ excess p n := by
      calc 4 = 2 ^ 2 := rfl
        _ ≤ 2 ^ excess p n := Nat.pow_le_pow_right (by decide) hk
    omega

theorem roundNat_error (hp : 0 < p) (n : ℕ) :
    2 ^ p * roundNat p n ≤ 2 ^ p * n + n ∧ 2 ^ p * n ≤ 2 ^ p * roundNat p n + n := by
  have hhalf : roundNat p n * 2 ≤ n * 2 + 2 ^ excess p n ∧ n * 2 ≤ roundNat p n * 2 + 2 ^ excess p n := by
    rcases roundNat_parts p n with ⟨hup, h⟩ | ⟨hdown, h⟩
    · have hle := hup.le
      omega
    · unfold RoundsUp at hdown
      omega
  by_cases hk : excess p n = 0
  · have hsame := (roundNat_eq_self_iff p n).2 (by rw [hk]; exact Nat.one_dvd n)
    rw [hsame]
    omega
  · have hlog := log2_eq (Nat.pos_of_ne_zero hk)
    have hn : n ≠ 0 := by
      rintro rfl
      exact hk (excess_eq_zero hp (Nat.two_pow_pos p))
    have hbig : 2 ^ (p + excess p n - 1) ≤ n := by
      have hself := log2_self_le hn
      rwa [← hlog]
    have hpow : 2 ^ p * 2 ^ excess p n = 2 ^ (p + excess p n - 1) * 2 := by
      rw [← Nat.pow_succ, ← Nat.pow_add]
      congr 1
      omega
    have hup := Nat.mul_le_mul_left (2 ^ p) hhalf.1
    have hdown := Nat.mul_le_mul_left (2 ^ p) hhalf.2
    constructor <;> linarith

theorem two_pow_log2_le_roundNat (hp : 0 < p) (hn : n ≠ 0) : 2 ^ n.log2 ≤ roundNat p n := by
  have hk : excess p n ≤ n.log2 := by
    rw [excess]
    omega
  have hle : 2 ^ (n.log2 - excess p n) ≤ n / 2 ^ excess p n := by
    rw [Nat.le_div_iff_mul_le (Nat.two_pow_pos _), ← Nat.pow_add, Nat.sub_add_cancel hk]
    exact log2_self_le hn
  calc 2 ^ n.log2 = 2 ^ (n.log2 - excess p n) * 2 ^ excess p n := by
        rw [← Nat.pow_add, Nat.sub_add_cancel hk]
    _ ≤ n / 2 ^ excess p n * 2 ^ excess p n := Nat.mul_le_mul_right _ hle
    _ ≤ roundNat p n := Nat.mul_le_mul_right _ (Nat.le_add_right _ _)

theorem two_pow_le_roundNat (hp : 0 < p) {m : ℕ} (h : 2 ^ m ≤ n) : 2 ^ m ≤ roundNat p n := by
  have hn : n ≠ 0 := by
    have hpos := Nat.two_pow_pos m
    omega
  have hm : m ≤ n.log2 := (le_log2 hn).2 h
  exact (Nat.pow_le_pow_right (by decide) hm).trans (two_pow_log2_le_roundNat hp hn)

theorem two_dvd_roundNat (h : 2 ^ p ≤ n) : 2 ∣ roundNat p n := by
  have hn : n ≠ 0 := by
    have hpos := Nat.two_pow_pos p
    omega
  have hlog := (le_log2 hn).2 h
  have hk : excess p n ≠ 0 := by
    rw [excess]
    omega
  exact (dvd_pow_self 2 hk).mul_left _

theorem roundNat_of_lt (hp : 0 < p) (h : n < 2 ^ p) : roundNat p n = n := by
  rw [roundNat_eq_self_iff, excess_eq_zero hp h]
  exact Nat.one_dvd n

theorem roundNat_of_excess_one (hn : 2 ^ p ≤ n) (hlt : n < 2 ^ (p + 1)) :
    roundNat p n = (n / 2 + if n % 4 = 3 then 1 else 0) * 2 := by
  have hpos : n ≠ 0 := by
    omega
  have hlog : n.log2 = p :=
    (log2_eq_iff hpos).2 ⟨hn, hlt⟩
  have hexcess : excess p n = 1 := by
    rw [excess]
    omega
  have hup : RoundsUp p n ↔ n % 4 = 3 := by
    rw [RoundsUp, hexcess]
    omega
  rw [roundNat, hexcess, Nat.pow_one]
  simp only [hup]

theorem div_two_pow_excess_lt (p n : ℕ) : n / 2 ^ excess p n < 2 ^ p := by
  rw [Nat.div_lt_iff_lt_mul (Nat.two_pow_pos _), ← Nat.pow_add]
  refine lt_of_lt_of_le lt_log2_self (Nat.pow_le_pow_right (by decide) ?_)
  rw [excess]
  omega

theorem roundNat_roundNat (hp : 0 < p) (n : ℕ) : roundNat p (roundNat p n) = roundNat p n := by
  rw [roundNat_eq_self_iff]
  have hlt := div_two_pow_excess_lt p n
  have hle : n / 2 ^ excess p n + (if RoundsUp p n then 1 else 0) ≤ 2 ^ p := by
    split <;> omega
  unfold roundNat
  generalize n / 2 ^ excess p n + (if RoundsUp p n then 1 else 0) = q at hle ⊢
  generalize excess p n = k
  rcases Nat.lt_or_ge q (2 ^ p) with hq | hq
  · have hm : q * 2 ^ k < 2 ^ (p + k) := by
      rw [Nat.pow_add]
      exact Nat.mul_lt_mul_of_pos_right hq (Nat.two_pow_pos k)
    have hexcess : excess p (q * 2 ^ k) ≤ k := by
      by_cases hzero : q * 2 ^ k = 0
      · rw [hzero, excess_eq_zero hp (Nat.two_pow_pos p)]
        exact Nat.zero_le k
      · have hlog := (log2_lt hzero).2 hm
        rw [excess]
        omega
    exact (Nat.pow_dvd_pow 2 hexcess).trans (Nat.dvd_mul_left _ _)
  · have hqeq : q = 2 ^ p := le_antisymm hle hq
    rw [hqeq, ← Nat.pow_add, excess, log2_two_pow]
    exact Nat.pow_dvd_pow 2 (by omega)

theorem roundNat_zero (p : ℕ) : roundNat p 0 = 0 := by
  rw [roundNat_eq_self_iff]
  exact Nat.dvd_zero _

variable {z : ℤ}

theorem round_of_nonneg (h : 0 ≤ z) : round p z = roundNat p z.natAbs := by
  rcases h.eq_or_lt with rfl | hpos
  · rw [round, sign_zero, zero_mul, natAbs_zero, roundNat_zero, Int.natCast_zero]
  · rw [round, sign_eq_one_of_pos hpos, one_mul]

theorem round_of_neg (h : z < 0) : round p z = -(roundNat p z.natAbs : ℕ) := by
  rw [round, sign_eq_neg_one_of_neg h, neg_one_mul]

theorem natAbs_round (p : ℕ) (z : ℤ) : (round p z).natAbs = roundNat p z.natAbs := by
  rcases lt_or_ge z 0 with h | h
  · rw [round_of_neg h, natAbs_neg, natAbs_natCast]
  · rw [round_of_nonneg h, natAbs_natCast]

theorem round_eq_self_iff : round p z = z ↔ Representable p z := by
  rw [Representable, ← roundNat_eq_self_iff]
  rcases lt_or_ge z 0 with h | h
  · rw [round_of_neg h]
    omega
  · rw [round_of_nonneg h]
    omega

theorem round_of_natAbs_lt (hp : 0 < p) (h : z.natAbs < 2 ^ p) : round p z = z := by
  rw [round_eq_self_iff, Representable, excess_eq_zero hp h]
  exact Nat.one_dvd _

theorem representable_of_natAbs_lt (hp : 0 < p) (h : z.natAbs < 2 ^ p) : Representable p z :=
  round_eq_self_iff.1 (round_of_natAbs_lt hp h)

theorem round_round (hp : 0 < p) (z : ℤ) : round p (round p z) = round p z := by
  rw [round_eq_self_iff, Representable, natAbs_round, ← roundNat_eq_self_iff]
  exact roundNat_roundNat hp _

theorem round_error (hp : 0 < p) (z : ℤ) : 2 ^ p * (round p z - z).natAbs ≤ z.natAbs := by
  have herror := roundNat_error hp z.natAbs
  have hdiff : (round p z - z).natAbs = roundNat p z.natAbs - z.natAbs ∨
      (round p z - z).natAbs = z.natAbs - roundNat p z.natAbs := by
    rcases lt_or_ge z 0 with h | h
    · rw [round_of_neg h]
      omega
    · rw [round_of_nonneg h]
      omega
  rcases hdiff with hdiff | hdiff
  · rw [hdiff, Nat.mul_sub]
    omega
  · rw [hdiff, Nat.mul_sub]
    omega

theorem round_eq_sub_one_iff (h : z ≤ 0) :
    round p z = z - 1 ↔ roundNat p z.natAbs = z.natAbs + 1 := by
  rcases h.eq_or_lt with rfl | h
  · rw [round_of_nonneg le_rfl, natAbs_zero, roundNat_zero]
    omega
  · rw [round_of_neg h]
    omega

end Quadrants.Library.BinaryRounding
