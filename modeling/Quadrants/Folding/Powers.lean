import Mathlib.Algebra.Ring.Parity
import Quadrants.Folding.Divisions

/-!
Remainders, and the quotients of unsigned numbers.
-/

namespace Quadrants.Folding

open Library.BinaryRounding

section Signed

variable {t : IntType} (ht : t = .i32 ∨ t = .i64)

include ht

theorem agrees_mod_same {int : BitVec t.bits → HostValue}
    (hint : ∀ v, typedConstant t (int v) = .installed v) (a b : Value t) :
    Agrees (runMod t a b) ((hostSigned int a b .mod).install t) ↔
      number t b ≠ 0 ∧ ¬IsOverflow t (number t a) (number t b) := by
  have hzero : b = 0 ↔ number t b = 0 := by rw [number_signed (signed_facts ht).1, eq_zero_iff]
  have hover := isOverflow_iff (signed_facts ht).1 a b
  rw [hostSigned, runMod]
  split
  · exact ⟨fun hfalse => hfalse.elim, fun hholds => by tauto⟩
  · rename_i h
    rw [hzero, hover, not_or] at h
    refine ⟨fun _ => h, fun _ => ?_⟩
    rw [HostResult.install, hint, agrees_installed_some]

theorem agrees_signed_mod_iff (a b : Value t) :
    Agrees (runBinary .mod t a b) (foldBinary .mod t t a b) ↔
      number t b ≠ 0 ∧ ¬IsOverflow t (number t a) (number t b) := by
  rcases ht with rfl | rfl
  · exact agrees_mod_same (.inl rfl) (fun v => (typedConstant_int32 (by decide) v).trans
      (congrArg Outcome.installed (BitVec.signExtend_eq v))) a b
  · rw [foldBinary_int64 rfl]
    exact agrees_mod_same (.inr rfl) (fun v => (typedConstant_int64 (by decide) v).trans
      (congrArg Outcome.installed (BitVec.signExtend_eq v))) a b

end Signed

theorem emod_eq_iff_sameRemainder {H x y v : ℤ} (hx : 0 ≤ x ∧ x < 2 * H) (hy : 0 < y ∧ y < 2 * H)
    (hover : ¬(x = H ∧ y = 2 * H - 1)) (hv : 0 ≤ v ∧ v < 2 * H)
    (hsigned : (if v < H then v else v - 2 * H) =
      (if x < H then x else x - 2 * H).tmod (if y < H then y else y - 2 * H)) :
    x % y = v ↔
      x < H ∧ y < H ∨ x < H ∧ x < 2 * H - y ∨ y < H ∧ y ∣ x ∧ y ∣ 2 * H ∨ x = y ∨
        x = H ∧ y = 2 * H - 1 := by
  by_cases hxH : x < H <;> by_cases hyH : y < H
  · have hnonneg := Int.emod_nonneg x hy.1.ne'
    rw [if_pos hxH, Int.tmod_eq_emod_of_nonneg hx.1] at hsigned
    split at hsigned <;> omega
  · have hself : x % y = x := Int.emod_eq_of_lt hx.1 (by omega)
    have hneg : y - 2 * H = -(2 * H - y) := by ring
    have hpos : 0 < 2 * H - y := by omega
    have hmod := Int.emod_lt_of_pos x hpos
    have hsmall : x < 2 * H - y → x % (2 * H - y) = x := Int.emod_eq_of_lt hx.1
    rw [if_pos hxH, if_neg hyH, hneg, Int.tmod_neg, Int.tmod_eq_emod_of_nonneg hx.1] at hsigned
    split at hsigned <;> omega
  · have hneg : x - 2 * H = -(2 * H - x) := by ring
    have hpos : 0 ≤ 2 * H - x := by omega
    have hmod := Int.emod_lt_of_pos x hy.1
    have hnonneg' := Int.emod_nonneg (2 * H - x) hy.1.ne'
    have hdvd : y ∣ x ↔ x % y = 0 := Int.dvd_iff_emod_eq_zero
    have hdvd' : y ∣ x → (y ∣ 2 * H ↔ (2 * H - x) % y = 0) := by
      intro h
      rw [← Int.dvd_iff_emod_eq_zero]
      refine ⟨fun hH => Int.dvd_sub hH h, fun hdiff => ?_⟩
      rw [← Int.sub_add_cancel (2 * H) x]
      exact Int.dvd_add hdiff h
    rw [if_neg hxH, hneg, Int.neg_tmod, Int.tmod_eq_emod_of_nonneg hpos] at hsigned
    split at hsigned <;> omega
  · have hneg : x - 2 * H = -(2 * H - x) := by ring
    have hneg' : y - 2 * H = -(2 * H - y) := by ring
    have hpos : 0 ≤ 2 * H - x := by omega
    have hpos' : 0 < 2 * H - y := by omega
    have hmod := Int.emod_lt_of_pos (2 * H - x) hpos'
    rw [if_neg hxH, if_neg hyH, hneg, hneg', Int.neg_tmod, Int.tmod_neg,
      Int.tmod_eq_emod_of_nonneg hpos] at hsigned
    rcases lt_trichotomy x y with hlt | rfl | hgt
    · have hself : x % y = x := Int.emod_eq_of_lt hx.1 hlt
      split at hsigned <;> omega
    · rw [Int.emod_self] at hsigned ⊢
      split at hsigned <;> omega
    · have hself : (2 * H - x) % (2 * H - y) = 2 * H - x := Int.emod_eq_of_lt hpos (by omega)
      have hsub : x % y = x - y := by
        rw [← Int.sub_emod_right x y]
        exact Int.emod_eq_of_lt (by omega) (by omega)
      split at hsigned <;> omega

section Unsigned

variable {t : IntType} (ht : t = .u32 ∨ t = .u64) (a b : Value t)

include ht

theorem hostZero_iff : b.setWidth 64 = 0 ↔ number t b = 0 := by
  obtain ⟨-, hbits, -, -, -⟩ := unsigned_facts ht
  rw [number_unsigned (unsigned_facts ht).1, ← BitVec.toNat_inj, BitVec.toNat_setWidth_of_le hbits]
  simp

theorem setWidth_udiv : (a.setWidth 64 / b.setWidth 64).setWidth t.bits = a / b := by
  obtain ⟨-, hbits, -, -, -⟩ := unsigned_facts ht
  apply BitVec.eq_of_toNat_eq
  rw [BitVec.toNat_setWidth, BitVec.toNat_udiv, BitVec.toNat_setWidth_of_le hbits,
    BitVec.toNat_setWidth_of_le hbits]
  exact Nat.mod_eq_of_lt (lt_of_le_of_lt (Nat.div_le_self _ _) a.isLt)

theorem not_isOverflow : ¬IsOverflow t (number t a) (number t b) := by
  rintro ⟨-, h⟩
  rw [number_unsigned (unsigned_facts ht).1] at h
  omega

theorem agrees_unsigned_div_iff :
    Agrees (runBinary .div t a b) (foldBinary .div t t a b) ↔ number t b ≠ 0 := by
  rw [foldBinary_unsigned ht (by decide) (by decide) (by decide)]
  change Agrees (runDiv t a b)
    ((if b.setWidth 64 = 0 then HostResult.trap
      else .value (.uint64 (a.setWidth 64 / b.setWidth 64))).install t) ↔ _
  by_cases h : number t b = 0
  · rw [if_pos ((hostZero_iff ht b).2 h)]
    exact ⟨fun hfalse => hfalse.elim, fun hholds => hholds h⟩
  · rw [if_neg fun hzero => h ((hostZero_iff ht b).1 hzero), runDiv_unsigned (unsigned_facts ht).1, if_neg h]
    exact ⟨fun _ => h, fun _ => agrees_uint64 ht (setWidth_udiv ht a b)⟩

theorem agrees_unsigned_floordiv_iff :
    Agrees (runBinary .floordiv t a b) (foldBinary .floordiv t t a b) ↔
      number t b ≠ 0 ∧ FloorExact (number t a) (number t b) := by
  obtain ⟨-, hbits, -, -, -⟩ := unsigned_facts ht
  rw [foldBinary_unsigned ht (by decide) (by decide) (by decide)]
  change Agrees (demoteIfloordiv t a b)
    ((if b.setWidth 64 = 0 then HostResult.trap
      else .value (.float64 (toDouble (a.setWidth 64 / b.setWidth 64).toNat))).install t) ↔ _
  by_cases h : number t b = 0
  · rw [if_pos ((hostZero_iff ht b).2 h)]
    exact ⟨fun hfalse => hfalse.elim, fun hholds => hholds.1 h⟩
  · rw [if_neg fun hzero => h ((hostZero_iff ht b).1 hzero),
        demoteIfloordiv_unsigned (unsigned_facts ht).1,
      runDiv_unsigned (unsigned_facts ht).1, if_neg h, and_iff_right h, ← toDouble_tdiv_eq_fdiv_iff h]
    have hfloor : (number t a).fdiv (number t b) = (a.toNat / b.toNat : ℕ) := by
      rw [number_unsigned (unsigned_facts ht).1, number_unsigned (unsigned_facts ht).1,
        Int.fdiv_eq_ediv_of_nonneg _ (by omega)]
      rfl
    have htrunc : (number t a).tdiv (number t b) = (a.toNat / b.toNat : ℕ) := by
      rw [number_unsigned (unsigned_facts ht).1, number_unsigned (unsigned_facts ht).1]
      rfl
    have hquotient : a / b = BitVec.ofInt t.bits ((number t a).fdiv (number t b)) := by
      rw [hfloor]
      apply BitVec.eq_of_toNat_eq
      exact (Nat.mod_eq_of_lt (lt_of_le_of_lt (Nat.div_le_self _ _) a.isLt)).symm
    have hrange : InRange t ((number t a).fdiv (number t b)) := by
      rw [inRange_unsigned ht, hfloor]
      refine ⟨Int.natCast_nonneg _, ?_⟩
      exact_mod_cast lt_of_le_of_lt (Nat.div_le_self _ _) a.isLt
    rw [hquotient, BitVec.toNat_udiv, BitVec.toNat_setWidth_of_le hbits,
      BitVec.toNat_setWidth_of_le hbits, htrunc]
    exact agrees_float64 (.inr ht) hrange

theorem toInt_eq_number : a.toInt = if number t a < 2 ^ (t.bits - 1) then number t a
      else number t a - 2 * 2 ^ (t.bits - 1) := by
  have hpow : 2 ^ t.bits = 2 * 2 ^ (t.bits - 1) := by rcases ht with rfl | rfl <;> rfl
  have hcast : ((2 ^ (t.bits - 1) : ℕ) : ℤ) = 2 ^ (t.bits - 1) := by push_cast; rfl
  rw [number_unsigned (unsigned_facts ht).1, BitVec.toInt_eq_toNat_cond, hpow]
  push_cast
  split
  · rw [if_pos (by omega)]
  · rw [if_neg (by omega)]

theorem runMod_unsigned : runMod t a b =
      if number t b = 0 ∨ number t a = 2 ^ (t.bits - 1) ∧ number t b = 2 ^ t.bits - 1 then none
      else some (a.srem b) := by
  refine if_congr (or_congr ?_ (and_congr ?_ ?_)) rfl rfl
  · rw [number_unsigned (unsigned_facts ht).1, ← BitVec.toNat_inj]
    simp
  · rw [← BitVec.toNat_inj]
    rcases ht with rfl | rfl
    · change a.toNat = 2 ^ 31 ↔ (a.toNat : ℤ) = 2 ^ 31
      omega
    · change a.toNat = 2 ^ 63 ↔ (a.toNat : ℤ) = 2 ^ 63
      omega
  · rw [← BitVec.toNat_inj]
    rcases ht with rfl | rfl
    · change b.toNat = 2 ^ 32 - 1 ↔ (b.toNat : ℤ) = 2 ^ 32 - 1
      omega
    · change b.toNat = 2 ^ 64 - 1 ↔ (b.toNat : ℤ) = 2 ^ 64 - 1
      omega

theorem agrees_unsigned_mod_iff : Agrees (runBinary .mod t a b) (foldBinary .mod t t a b) ↔
      number t b ≠ 0 ∧ SameRemainder t.bits (number t a) (number t b) := by
  obtain ⟨-, hbits, -, -, -⟩ := unsigned_facts ht
  rw [foldBinary_unsigned ht (by decide) (by decide) (by decide)]
  change Agrees (runMod t a b)
    ((if b.setWidth 64 = 0 then HostResult.trap
      else .value (.uint64 (a.setWidth 64 % b.setWidth 64))).install t) ↔ _
  by_cases h : number t b = 0
  · rw [if_pos ((hostZero_iff ht b).2 h)]
    exact ⟨fun hfalse => hfalse.elim, fun hholds => hholds.1 h⟩
  rw [if_neg fun hzero => h ((hostZero_iff ht b).1 hzero), runMod_unsigned ht, and_iff_right h]
  by_cases hover : number t a = 2 ^ (t.bits - 1) ∧ number t b = 2 ^ t.bits - 1
  · rw [if_pos (.inr hover)]
    refine ⟨fun _ => .inr (.inr (.inr (.inr hover))), fun _ => ?_⟩
    exact agrees_none (install_value_ne_trap t _)
  · rw [if_neg (not_or.2 ⟨h, hover⟩)]
    have hpow : (2 : ℤ) ^ t.bits = 2 * 2 ^ (t.bits - 1) := by rcases ht with rfl | rfl <;> rfl
    have hbound : ∀ c : Value t, 0 ≤ number t c ∧ number t c < 2 * 2 ^ (t.bits - 1) := by
      intro c
      rw [← hpow, number_unsigned (unsigned_facts ht).1]
      exact ⟨Int.natCast_nonneg _, by exact_mod_cast c.isLt⟩
    have hsigned := BitVec.toInt_srem a b
    rw [toInt_eq_number ht, toInt_eq_number ht, toInt_eq_number ht] at hsigned
    rw [hpow] at hover
    have hcases := emod_eq_iff_sameRemainder (hbound a)
      ⟨lt_of_le_of_ne (hbound b).1 (Ne.symm h), (hbound b).2⟩ hover (hbound (a.srem b)) hsigned
    rw [SameRemainder, hpow, ← hcases, HostResult.install,
      typedConstant_uint64 (unsigned_facts ht).2.2.1, agrees_installed_some, ← BitVec.toNat_inj,
      BitVec.toNat_setWidth, BitVec.toNat_umod,
      BitVec.toNat_setWidth_of_le hbits, BitVec.toNat_setWidth_of_le hbits,
      Nat.mod_eq_of_lt (lt_of_le_of_lt (Nat.mod_le _ _) a.isLt), number_unsigned (unsigned_facts ht).1,
      number_unsigned (unsigned_facts ht).1, number_unsigned (unsigned_facts ht).1]
    exact_mod_cast Iff.rfl

end Unsigned

end Quadrants.Folding

/-!
Powers: repeated squaring on the bits of the type against a `double`.
-/

namespace Quadrants.Folding

open Library.BinaryRounding

section Loop

variable {w w' : ℕ}

theorem and_one_bne_zero {b : BitVec w'} (h : 0 < b.toInt) :
    (b &&& 1 != 0) = decide (b.toInt % 2 = 1) := by
  have hw : 0 < w' := by
    rcases Nat.eq_zero_or_pos w' with rfl | hw
    · rw [BitVec.toInt_zero_length] at h
      exact absurd h (lt_irrefl 0)
    · exact hw
  have hone : (1 : BitVec w').toNat = 1 := by
    exact Nat.mod_eq_of_lt (Nat.one_lt_two_pow hw.ne')
  have hnat : b.toInt = b.toNat := by
    rw [BitVec.toInt_eq_toNat_cond] at h ⊢
    split at h
    · rename_i hsmall
      rw [if_pos hsmall]
    · omega
  have hand : (b &&& 1).toNat = b.toNat % 2 := by
    rw [BitVec.toNat_and, hone, Nat.and_one_is_mod]
  rw [Bool.eq_iff_iff, bne_iff_ne, decide_eq_true_eq, ne_eq, ← BitVec.toNat_inj, hand]
  change ¬b.toNat % 2 = 0 ↔ _
  omega

theorem powLoop_eq (a result : BitVec w) (b : BitVec w') : ∀ x r : ℤ, a = BitVec.ofInt w x →
    result = BitVec.ofInt w r → 0 ≤ b.toInt →
    powLoop a result b = BitVec.ofInt w (r * x ^ b.toInt.toNat) := by
  induction a, result, b using powLoop.induct with
  | case1 a result b hpos ih =>
    intro x r ha hr hb
    have hshift : (b.sshiftRight 1).toInt = b.toInt / 2 := by
      rw [BitVec.toInt_sshiftRight, Int.shiftRight_eq_div_pow]
      rfl
    have hsquare : a * a = BitVec.ofInt w (x * x) := by rw [BitVec.ofInt_mul, ha]
    rw [powLoop, if_pos hpos]
    simp only [dite_eq_ite, and_one_bne_zero hpos] at ih ⊢
    by_cases hodd : b.toInt % 2 = 1
    · have hresult : (if decide (b.toInt % 2 = 1) = true then result * a else result) =
          BitVec.ofInt w (r * x) := by
        rw [if_pos (decide_eq_true hodd), BitVec.ofInt_mul, ha, hr]
      have hexp : b.toInt.toNat = 2 * (b.toInt / 2).toNat + 1 := by omega
      rw [ih (x * x) (r * x) hsquare hresult (by omega), hshift, hexp]
      ring
    · have hresult : (if decide (b.toInt % 2 = 1) = true then result * a else result) =
          BitVec.ofInt w r := by
        rw [if_neg (by rw [decide_eq_true_eq]; exact hodd), hr]
      have hexp : b.toInt.toNat = 2 * (b.toInt / 2).toNat := by omega
      rw [ih (x * x) r hsquare hresult (by omega), hshift, hexp]
      ring
  | case2 a result b hpos =>
    intro x r ha hr hb
    have hzero : b.toInt = 0 := by omega
    rw [powLoop, hzero, hr]
    simp

theorem ofInt_eq_iff_dvd {z q : ℤ} : BitVec.ofInt w z = BitVec.ofInt w q ↔ (2 : ℤ) ^ w ∣ z - q := by
  rw [← BitVec.toNat_inj, BitVec.toNat_ofInt, BitVec.toNat_ofInt, Int.dvd_iff_emod_eq_zero,
    ← Int.emod_eq_emod_iff_emod_sub_eq_zero]
  push_cast
  omega

end Loop

section Rounding

variable {t : IntType} (ht : t = .i32 ∨ t = .i64)

include ht

variable {x y z : ℤ}

theorem natAbs_le_of_inRange (h : InRange t z) : z.natAbs ≤ 2 ^ (t.bits - 1) := by
  rw [inRange_signed (signed_facts ht).1] at h
  have hcast : ((2 ^ (t.bits - 1) : ℕ) : ℤ) = 2 ^ (t.bits - 1) := by push_cast; rfl
  omega

theorem toDouble_right_iff (P : ℤ) :
    (InRange t (toDouble P) ∧ BitVec.ofInt t.bits (toDouble P) = BitVec.ofInt t.bits P) ↔
      InRange t P ∧ Representable 53 P := by
  constructor
  · rintro ⟨hrange, heq⟩
    by_cases hP : InRange t P
    · exact ⟨hP, round_eq_self_iff.1 ((ofInt_eq_iff (.inl ht) hrange hP).1 heq)⟩
    · have hne : toDouble P - P ≠ 0 := fun h => hP (Int.sub_eq_zero.1 h ▸ hrange)
      have hdvd := Int.natAbs_dvd_natAbs.2 (ofInt_eq_iff_dvd.1 heq)
      have hlarge := Nat.le_of_dvd (Int.natAbs_pos.2 hne) hdvd
      have herror : 2 ^ 53 * (toDouble P - P).natAbs ≤ P.natAbs := round_error (by decide) P
      have hsmall := natAbs_le_of_inRange ht hrange
      have hhalf : 2 ^ (t.bits - 1) ≤ 2 ^ t.bits := Nat.pow_le_pow_right (by decide) (Nat.sub_le _ _)
      change 2 ^ t.bits ≤ _ at hlarge
      omega
  · rintro ⟨hrange, hrep⟩
    have hsame : toDouble P = P := round_eq_self_iff.2 hrep
    rw [hsame]
    exact ⟨hrange, rfl⟩

theorem not_inRange_of_le (h : 2 ^ 64 ≤ z.natAbs) : ¬InRange t z := by
  intro hrange
  have hle := natAbs_le_of_inRange ht hrange
  have hpow : 2 ^ (t.bits - 1) ≤ 2 ^ 63 := by rcases ht with rfl | rfl <;> decide
  omega

theorem not_inRange_pow {n m : ℕ} (hx : 2 ^ m ≤ x.natAbs) (hn : 64 ≤ m * n) :
    ¬InRange t (x ^ n) ∧ ¬InRange t (toDouble (x ^ n)) := by
  have hlarge : 2 ^ 64 ≤ (x ^ n).natAbs := by
    rw [Int.natAbs_pow]
    calc 2 ^ 64 ≤ 2 ^ (m * n) := Nat.pow_le_pow_right (by decide) hn
      _ = (2 ^ m) ^ n := Nat.pow_mul 2 m n
      _ ≤ x.natAbs ^ n := Nat.pow_le_pow_left hx n
  refine ⟨not_inRange_of_le ht hlarge, not_inRange_of_le ht ?_⟩
  rw [toDouble, natAbs_round]
  exact two_pow_le_roundNat (by decide) hlarge

theorem inRange_one : InRange t 1 ∧ InRange t (-1) ∧ InRange t 0 := by
  unfold InRange
  rcases ht with rfl | rfl <;> decide

theorem hostPow_right_iff_large (hy : 2 ^ 53 ≤ y) : (InRange t (hostPow x y) ∧
      BitVec.ofInt t.bits (hostPow x y) = BitVec.ofInt t.bits (x ^ y.toNat)) ↔ PowExact t x y := by
  have hround : toDouble y = roundNat 53 y.natAbs := round_of_nonneg (by omega)
  have heven : 2 ∣ (toDouble y).toNat := by
    rw [hround]
    exact two_dvd_roundNat (by omega)
  have hlarge : 2 ^ 53 ≤ (toDouble y).toNat := by
    rw [hround]
    exact two_pow_le_roundNat (by decide) (by omega)
  have hrange := inRange_one ht
  unfold hostPow PowExact
  generalize (toDouble y).toNat = n at heven hlarge ⊢
  rcases le_or_gt 2 x.natAbs with hx | hx
  · have hpow := @not_inRange_pow t ht x y.toNat 1 hx (by omega)
    have hdouble : 2 ^ 1 ≤ (toDouble x).natAbs := by
      rw [toDouble, natAbs_round]
      exact two_pow_le_roundNat (by decide) hx
    have hpow' := @not_inRange_pow t ht (toDouble x) n 1 hdouble (by omega)
    exact ⟨fun h => absurd h.1 hpow'.2, fun h => absurd h.1 hpow.1⟩
  · have hself : toDouble x = x := round_of_natAbs_lt (by decide) (by omega)
    rw [hself]
    have hcases : x = 0 ∨ x = 1 ∨ x = -1 := by omega
    have hone : toDouble 1 = 1 := by decide
    rcases hcases with rfl | rfl | rfl
    · have hzero : toDouble 0 = 0 := by decide
      rw [zero_pow (by omega), zero_pow (by omega)]
      exact ⟨fun _ => ⟨hrange.2.2, by decide, by omega⟩, fun _ => ⟨hrange.2.2, rfl⟩⟩
    · rw [one_pow, one_pow]
      exact ⟨fun _ => ⟨hrange.1, by decide, by omega⟩, fun _ => ⟨hrange.1, rfl⟩⟩
    · rw [(even_iff_two_dvd.2 heven).neg_one_pow, hone]
      rcases Nat.even_or_odd y.toNat with hparity | hparity
      · have hmod : ¬y % 2 = 1 := by
          have htwo := even_iff_two_dvd.1 hparity
          omega
        rw [hparity.neg_one_pow]
        exact ⟨fun _ => ⟨hrange.1, by decide, by omega⟩, fun _ => ⟨hrange.1, rfl⟩⟩
      · have hmod : y % 2 = 1 := by
          have htwo := Nat.odd_iff.1 hparity
          omega
        rw [hparity.neg_one_pow, ofInt_eq_iff (.inl ht) hrange.1 hrange.2.1]
        constructor
        · exact fun h => absurd h.2 (by decide)
        · exact fun h => absurd ⟨rfl, by omega, hmod⟩ h.2.2

theorem hostPow_right_iff (hy : 0 ≤ y) : (InRange t (hostPow x y) ∧
      BitVec.ofInt t.bits (hostPow x y) = BitVec.ofInt t.bits (x ^ y.toNat)) ↔ PowExact t x y := by
  rcases le_or_gt (2 ^ 53) y with hlarge | hsmall
  · exact hostPow_right_iff_large ht hlarge
  have hparity : ¬(x = -1 ∧ 2 ^ 53 < y ∧ y % 2 = 1) := by omega
  have hexact : PowExact t x y ↔ InRange t (x ^ y.toNat) ∧ Representable 53 (x ^ y.toNat) := by
    rw [PowExact, and_iff_left hparity, InRange]
  have hself : toDouble y = y := round_of_natAbs_lt (by decide) (by omega)
  rw [hexact, ← toDouble_right_iff ht, hostPow, hself]
  rcases Nat.lt_or_ge x.natAbs (2 ^ 53) with hx | hx
  · have hbase : toDouble x = x := round_of_natAbs_lt (by decide) hx
    rw [hbase]
  · have hbase : 2 ^ 53 ≤ (toDouble x).natAbs := by
      rw [toDouble, natAbs_round]
      exact two_pow_le_roundNat (by decide) hx
    have hexp : y.toNat = 0 ∨ y.toNat = 1 ∨ 2 ≤ y.toNat := by omega
    rcases hexp with hexp | hexp | hexp
    · rw [hexp, pow_zero, pow_zero]
    · rw [hexp, pow_one, pow_one]
      have htwice : toDouble (toDouble x) = toDouble x := round_round (by decide) x
      rw [htwice]
    · have hpow := @not_inRange_pow t ht x y.toNat 53 hx (by omega)
      have hpow' := @not_inRange_pow t ht (toDouble x) y.toNat 53 hbase (by omega)
      exact ⟨fun h => absurd h.1 hpow'.2, fun h => absurd h.1 hpow.2⟩

end Rounding

variable {t' t : IntType} {b : Value t'}

theorem runAbs_of_nonneg (ht : t = .i32 ∨ t = .i64) {b : Value t} (h : 0 ≤ b.toInt) :
    runAbs t b = some b := by
  have hmin : b ≠ BitVec.intMin t.bits := by
    intro heq
    rw [eq_intMin_iff (bits_pos _)] at heq
    have hpos : (0 : ℤ) < 2 ^ (t.bits - 1) := by positivity
    omega
  have hslt : BitVec.slt b 0 = false := by
    have hzero : (0 : Value t).toInt = 0 := BitVec.toInt_zero
    rw [BitVec.slt_eq_decide, hzero]
    exact decide_eq_false (not_lt.2 h)
  rw [runAbs, if_pos ht, if_neg hmin, hslt]
  rfl

theorem transformPow_eq (ht' : t' = .i32 ∨ t' = .i64) (a : Value t) (h : 0 ≤ b.toInt) :
    transformPow t t' a b = some (BitVec.ofInt t.bits (a.toInt ^ b.toInt.toNat)) := by
  have hone : (1 : Value t) = BitVec.ofInt t.bits 1 := (BitVec.ofInt_natCast t.bits 1).symm
  rw [transformPow, runAbs_of_nonneg ht' h, Option.map_some,
    powLoop_eq a 1 b a.toInt 1 BitVec.ofInt_toInt.symm hone h, one_mul]

theorem foldBinary_pow (ht : t = .i32 ∨ t = .i64) (ht' : t'.isSigned = true)
    (a : Value t) (h : 0 ≤ b.toInt) (hbits : t'.bits ≤ 64) :
    foldBinary .pow t t' a b = typedConstant t (.float64 (hostPow a.toInt b.toInt)) := by
  obtain ⟨hsigned, hbits', -, -⟩ := signed_facts ht
  have hneg : ¬(b.toInt < 0) := not_lt.2 h
  simp only [foldBinary, ht', hneg, hsigned, ht, valInt, onHost, BinaryOp.isIntegral, reduceCtorEq,
    Bool.true_eq_false, Bool.false_eq_true, or_self, and_false, if_false, if_true]
  change typedConstant t (.float64 (hostPow (a.signExtend 64).toInt (b.signExtend 64).toInt)) = _
  rw [BitVec.toInt_signExtend_of_le hbits', BitVec.toInt_signExtend_of_le hbits]

theorem onHost_none {α : Type} (dst : IntType) (l : Option α) (f : α → α → HostResult) :
    onHost dst l none f = .error := by
  cases l <;> rfl

theorem foldBinary_pow_unsigned (ht : ¬(t = .i32 ∨ t = .i64)) (a : Value t)
    (b : Value t') : foldBinary .pow t t' a b = .error ∨ foldBinary .pow t t' a b = .kept := by
  by_cases h : t'.isSigned = false ∨ b.toInt < 0
  · left
    rw [foldBinary, if_pos ⟨rfl, h⟩]
  · rw [not_or, Bool.not_eq_false] at h
    have hne : t' ≠ .u1 := by
      rintro rfl
      cases h.1
    cases t with
    | i32 => exact absurd (.inl rfl) ht
    | i64 => exact absurd (.inr rfl) ht
    | u1 =>
      simp [foldBinary, hne, valUint1, onHost, BinaryOp.isIntegral]
    | u32 | u64 =>
      have hnone : valUint t' b = none := if_pos h.1
      simp [foldBinary, hnone, onHost_none]
    | i8 | i16 | u8 | u16 =>
      simp [foldBinary, h.1, h.2]

theorem agrees_pow_iff (t t' : IntType) (a : Value t) (b : Value t') :
    Agrees (transformPow t t' a b) (foldBinary .pow t t' a b) ↔
      PowHolds t t' (number t a) (number t' b) := by
  by_cases ht : t = .i32 ∨ t = .i64
  · by_cases h : t'.isSigned = false ∨ b.toInt < 0
    · rw [foldBinary, if_pos ⟨rfl, h⟩]
      refine iff_of_true trivial fun _ ht' hy => ?_
      rw [number_signed (signed_facts ht').1] at hy
      rcases h with h | h
      · rw [(signed_facts ht').1] at h
        cases h
      · omega
    · rw [not_or, Bool.not_eq_false, not_lt] at h
      have hbits : t'.bits ≤ 64 := by cases t' <;> decide
      rw [foldBinary_pow ht h.1 a h.2 hbits]
      by_cases ht' : t' = .i32 ∨ t' = .i64
      · rw [transformPow_eq ht' a h.2, typedConstant_float64 (signed_facts ht).2.2.1,
          number_signed (signed_facts ht).1, number_signed (signed_facts ht').1]
        have hright := @hostPow_right_iff t ht a.toInt b.toInt h.2
        have hholds : PowHolds t t' a.toInt b.toInt ↔ PowExact t a.toInt b.toInt :=
          ⟨fun hpow => hpow ht ht' h.2, fun hpow _ _ _ => hpow⟩
        rw [hholds, ← hright]
        by_cases hrange : InRange t (hostPow a.toInt b.toInt)
        · have hif : t.minValue ≤ hostPow a.toInt b.toInt ∧
            hostPow a.toInt b.toInt ≤ t.maxValue := hrange
          rw [if_pos hif, and_iff_right hrange]
          exact agrees_installed_some
        · have hif : ¬(t.minValue ≤ hostPow a.toInt b.toInt ∧
            hostPow a.toInt b.toInt ≤ t.maxValue) := hrange
          rw [if_neg hif]
          exact iff_of_false (by rintro ⟨⟩) fun hboth => hrange hboth.1
      · have hnone : transformPow t t' a b = none := by
          rw [transformPow, runAbs, if_neg ht']
          rfl
        rw [hnone]
        exact iff_of_true (agrees_none (typedConstant_ne_trap t _)) fun _ hcontra =>
          absurd hcontra ht'
  · refine iff_of_true ?_ fun hcontra => absurd hcontra ht
    rcases foldBinary_pow_unsigned ht a b with h | h
    · rw [h]
      trivial
    · rw [h]
      trivial

end Quadrants.Folding
