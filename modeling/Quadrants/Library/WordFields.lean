import Mathlib.Data.BitVec

/-!
Fields of a word: `bits` bits from bit `offset` on.
-/

namespace Quadrants.Library.WordFields

open BitVec

variable {n : ℕ}

def InField (offset bits i : ℕ) : Prop :=
  offset ≤ i ∧ i < offset + bits

instance (offset bits i : ℕ) : Decidable (InField offset bits i) :=
  inferInstanceAs (Decidable (_ ∧ _))

def field (x : BitVec n) (offset bits : ℕ) : BitVec bits :=
  x.extractLsb' offset bits

def reading (isSigned : Bool) {bits : ℕ} (x : BitVec bits) : ℤ :=
  if isSigned then x.toInt else x.toNat

def AgreeOutside (offset bits : ℕ) (x y : BitVec n) : Prop :=
  ∀ i, ¬InField offset bits i → x.getLsbD i = y.getLsbD i

theorem getLsbD_field (x : BitVec n) (offset bits i : ℕ) :
    (field x offset bits).getLsbD i = (decide (i < bits) && x.getLsbD (offset + i)) :=
  getLsbD_extractLsb' offset bits x i

theorem getLsbD_merge (old new mask : BitVec n) (i : ℕ) :
    ((old &&& ~~~mask) ||| (new &&& mask)).getLsbD i =
      if mask.getLsbD i then new.getLsbD i else old.getLsbD i := by
  rw [getLsbD_or, getLsbD_and, getLsbD_and, getLsbD_not]
  by_cases hi : i < n
  · cases mask.getLsbD i <;> simp [hi]
  · have hge := Nat.not_lt.1 hi
    rw [getLsbD_of_ge mask i hge, getLsbD_of_ge old i hge]
    simp

theorem getLsbD_lowMask {k : ℕ} (hk : k < n) (i : ℕ) :
    ((1#n <<< k) - 1#n).getLsbD i = decide (i < k) := by
  have hone : (1#n).toNat = 1 := by
    rw [toNat_ofNat, Nat.mod_eq_of_lt (Nat.one_lt_two_pow (Nat.ne_zero_of_lt hk))]
  have hlow : ((1#n <<< k) - 1#n).toNat = 2 ^ k - 1 := by
    rw [toNat_sub_of_le, hone, ← twoPow_eq, toNat_twoPow_of_lt hk]
    rw [le_def, hone, ← twoPow_eq, toNat_twoPow_of_lt hk]
    exact Nat.one_le_two_pow
  rw [getLsbD, hlow, Nat.testBit_two_pow_sub_one]

theorem field_add_shiftLeft {offset bits : ℕ} (h : offset + bits ≤ n) (x value : BitVec n) :
    field (x + value <<< offset) offset bits = field x offset bits + value.setWidth bits := by
  have hsplit : 2 ^ n = 2 ^ offset * 2 ^ (n - offset) := by
    rw [← Nat.pow_add]
    congr 1
    omega
  have hdvd : 2 ^ bits ∣ 2 ^ (n - offset) := Nat.pow_dvd_pow 2 (by omega)
  apply eq_of_toNat_eq
  rw [field, field, BitVec.extractLsb'_toNat, BitVec.toNat_add, toNat_shiftLeft,
    BitVec.toNat_add, BitVec.extractLsb'_toNat, BitVec.toNat_setWidth, Nat.shiftRight_eq_div_pow,
    Nat.shiftRight_eq_div_pow, Nat.shiftLeft_eq, Nat.add_mod_mod, hsplit,
    Nat.mod_mul_right_div_self, Nat.mod_mod_of_dvd _ hdvd,
    Nat.add_mul_div_right _ _ (Nat.two_pow_pos offset), Nat.add_mod]

end Quadrants.Library.WordFields
