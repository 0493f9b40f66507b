import Quadrants.Folding.Divisions
import Mathlib.Data.Rat.Floor

/-!
The tree of operations that `demote_ifloordiv` builds is the floor of the quotient.
-/

namespace Quadrants.Folding

open BitVec Int

variable {t : IntType}

theorem number_inRange (a : Value t) : InRange t (number t a) := by
  cases hs : t.isSigned with
  | true =>
    rw [number_signed hs]
    exact toInt_inRange hs a
  | false =>
    rw [number_unsigned hs, InRange, IntType.minValue, IntType.maxValue, hs]
    have hlt : (a.toNat : ℤ) < 2 ^ t.bits := by exact_mod_cast a.isLt
    constructor
    · exact natCast_nonneg _
    · simp only [Bool.false_eq_true, if_false]
      omega

theorem number_ofInt {z : ℤ} (h : InRange t z) : number t (BitVec.ofInt t.bits z) = z := by
  cases hs : t.isSigned with
  | true =>
    rw [inRange_signed hs] at h
    rw [number_signed hs, toInt_ofInt_eq_self (bits_pos t) h.1 h.2]
  | false =>
    simp only [InRange, IntType.minValue, IntType.maxValue, hs, Bool.false_eq_true, if_false] at h
    rw [number_unsigned hs, toNat_ofInt]
    push_cast
    rw [emod_eq_of_lt h.1 (by omega)]
    omega

theorem floor_div_eq_fdiv (x y : ℤ) : ⌊(x : ℚ) / y⌋ = x.fdiv y := by
  rcases le_or_gt 0 y with hy | hy
  · obtain ⟨n, rfl⟩ := eq_ofNat_of_zero_le hy
    rw [fdiv_eq_ediv_of_nonneg _ hy, ← Rat.floor_intCast_div_natCast]
    rfl
  · obtain ⟨n, hn⟩ := eq_ofNat_of_zero_le (show 0 ≤ -y by omega)
    have hneg : (x : ℚ) / y = ((-x : ℤ) : ℚ) / (n : ℚ) := by
      have hcast : (n : ℚ) = -(y : ℚ) := by exact_mod_cast hn.symm
      rw [hcast, cast_neg, neg_div_neg_eq]
    rw [hneg, Rat.floor_intCast_div_natCast, ← Int.neg_fdiv_neg,
      fdiv_eq_ediv_of_nonneg _ (by omega), hn]

theorem inRange_fdiv {a b : Value t} (hb : number t b ≠ 0)
    (hover : t.isSigned = true → ¬IsOverflow t (number t a) (number t b)) :
    InRange t ((number t a).fdiv (number t b)) := by
  have ha := number_inRange a
  have hb' := number_inRange b
  cases hs : t.isSigned with
  | true =>
    rw [inRange_signed hs] at ha ⊢
    refine fdiv_bounds hb ha fun h => hover hs ⟨?_, h.2⟩
    rw [h.1, IntType.minValue, if_pos hs]
  | false =>
    simp only [InRange, IntType.minValue, IntType.maxValue, hs, Bool.false_eq_true,
      if_false] at ha hb' ⊢
    rw [fdiv_eq_ediv_of_nonneg _ hb'.1]
    have hle := ediv_le_self (number t b) ha.1
    exact ⟨ediv_nonneg ha.1 hb'.1, by omega⟩

theorem demoteIfloordiv_eq {a b : Value t} (hb : number t b ≠ 0)
    (hover : t.isSigned = true → ¬IsOverflow t (number t a) (number t b)) :
    demoteIfloordiv t a b = some (BitVec.ofInt t.bits ((number t a).fdiv (number t b))) := by
  cases hs : t.isSigned with
  | true => exact demoteIfloordiv_signed hs a b (hover hs) hb
  | false =>
    rw [demoteIfloordiv_unsigned hs, runDiv_unsigned hs, if_neg hb, number_unsigned hs,
      number_unsigned hs, fdiv_eq_ediv_of_nonneg _ (natCast_nonneg _), ← natCast_ediv]
    apply congrArg some
    apply eq_of_toNat_eq
    exact (Nat.mod_eq_of_lt (lt_of_le_of_lt (Nat.div_le_self _ _) a.isLt)).symm

/-- `a % b = a - (a // b) * b` of the frontend -/
def exprPythonMod (t : IntType) (a b : Value t) : Option (Value t) :=
  (demoteIfloordiv t a b).map fun quotient => a - b * quotient

theorem ofInt_number (a : Value t) : BitVec.ofInt t.bits (number t a) = a := by
  cases hs : t.isSigned with
  | true => rw [number_signed hs, ofInt_toInt]
  | false => rw [number_unsigned hs, ofInt_natCast, BitVec.ofNat_toNat, setWidth_eq]

theorem inRange_fmod {a b : Value t} (hb : number t b ≠ 0) :
    InRange t ((number t a).fmod (number t b)) := by
  obtain ⟨hlow, hhigh⟩ := number_inRange b
  obtain ⟨hzero, hzero'⟩ : t.minValue ≤ 0 ∧ 0 ≤ t.maxValue := by
    cases t <;> decide
  rcases lt_or_gt_of_ne hb with hneg | hpos
  · have hnonneg := fmod_nonneg_of_pos (-number t a) (neg_pos.2 hneg)
    have hlt := fmod_lt_of_pos (-number t a) (neg_pos.2 hneg)
    rw [Int.neg_fmod_neg] at hnonneg hlt
    exact ⟨by omega, by omega⟩
  · have hnonneg := fmod_nonneg_of_pos (number t a) hpos
    have hlt := fmod_lt_of_pos (number t a) hpos
    exact ⟨by omega, by omega⟩

end Quadrants.Folding
