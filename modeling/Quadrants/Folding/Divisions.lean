import Quadrants.Folding.PlainOps

/-!
Quotients and remainders: which of them are folded right.
-/

namespace Quadrants.Folding

open Library.BinaryRounding

section Range

variable {t : IntType}

def InRange (t : IntType) (z : ℤ) : Prop :=
  t.minValue ≤ z ∧ z ≤ t.maxValue

variable {q z : ℤ}

theorem inRange_signed (hs : t.isSigned = true) :
    InRange t z ↔ -2 ^ (t.bits - 1) ≤ z ∧ z < 2 ^ (t.bits - 1) := by
  rw [InRange, IntType.minValue, IntType.maxValue, if_pos hs, if_pos hs]
  omega

theorem inRange_unsigned (ht : t = .u32 ∨ t = .u64) : InRange t z ↔ 0 ≤ z ∧ z < 2 ^ t.bits := by
  obtain ⟨hsigned, -, -, -, -⟩ := unsigned_facts ht
  have hnot : t.isSigned ≠ true := by rw [hsigned]; decide
  rw [InRange, IntType.minValue, IntType.maxValue, if_neg hnot, if_neg hnot]
  omega

theorem number_signed (hs : t.isSigned = true) (a : Value t) : number t a = a.toInt :=
  if_pos hs

theorem number_unsigned (hu : t.isSigned = false) (a : Value t) : number t a = a.toNat := by
  rw [number, hu]
  rfl

theorem ofInt_eq_iff (ht : (t = .i32 ∨ t = .i64) ∨ t = .u32 ∨ t = .u64)
    (hz : InRange t z) (hq : InRange t q) :
    BitVec.ofInt t.bits z = BitVec.ofInt t.bits q ↔ z = q := by
  refine ⟨fun h => ?_, fun h => h ▸ rfl⟩
  rcases ht with ht | ht
  · have hbits : 0 < t.bits := by rcases ht with rfl | rfl <;> decide
    rw [inRange_signed (signed_facts ht).1] at hz hq
    have htoInt := congrArg BitVec.toInt h
    rwa [BitVec.toInt_ofInt_eq_self hbits hz.1 hz.2,
      BitVec.toInt_ofInt_eq_self hbits hq.1 hq.2] at htoInt
  · rw [inRange_unsigned ht] at hz hq
    have htoNat := congrArg BitVec.toNat h
    rw [BitVec.toNat_ofInt, BitVec.toNat_ofInt] at htoNat
    push_cast at htoNat
    rw [Int.emod_eq_of_lt hz.1 hz.2, Int.emod_eq_of_lt hq.1 hq.2] at htoNat
    omega

theorem typedConstant_float64 (h : t ≠ .u1) (z : ℤ) : typedConstant t (.float64 z) =
      if t.minValue ≤ z ∧ z ≤ t.maxValue then .installed (BitVec.ofInt t.bits z)
      else .undefined := by
  simp [typedConstant, assign, h]

theorem agrees_float64 (ht : (t = .i32 ∨ t = .i64) ∨ t = .u32 ∨ t = .u64) (hq : InRange t q) :
    Agrees (some (BitVec.ofInt t.bits q)) (typedConstant t (.float64 z)) ↔ z = q := by
  have hne : t ≠ .u1 := by rcases ht with (rfl | rfl) | rfl | rfl <;> decide
  rw [typedConstant_float64 hne]
  by_cases hz : InRange t z
  · have hif : t.minValue ≤ z ∧ z ≤ t.maxValue := hz
    rw [if_pos hif, agrees_installed_some, ofInt_eq_iff ht hz hq]
  · have hif : ¬(t.minValue ≤ z ∧ z ≤ t.maxValue) := hz
    rw [if_neg hif]
    constructor
    · exact fun h => nomatch h
    · rintro rfl
      exact absurd hq hz

end Range

variable {m x y : ℤ}

theorem fdiv_eq_tdiv_sub (hy : y ≠ 0) :
    x.fdiv y = x.tdiv y - if SameQuotient x y then 0 else 1 := by
  rw [Int.fdiv_eq_tdiv]
  by_cases hdvd : y ∣ x
  · have hsame : SameQuotient x y := .inl hdvd
    rw [if_pos hdvd, if_pos hsame]
  · have hx : x ≠ 0 := by
      rintro rfl
      exact hdvd (Int.dvd_zero y)
    rw [if_neg hdvd]
    rcases lt_or_gt_of_ne hx with hx | hx <;> rcases lt_or_gt_of_ne hy with hy | hy
    · have hsame : SameQuotient x y := .inr (.inr ⟨hx.le, hy⟩)
      rw [if_neg (not_le.2 hx), if_neg (not_le.2 hy), if_pos hsame, Int.sign_eq_neg_one_of_neg hy]
      rfl
    · have hsame : ¬SameQuotient x y := by
        unfold SameQuotient
        omega
      rw [if_neg (not_le.2 hx), if_pos hy.le, if_neg hsame, Int.sign_eq_one_of_pos hy]
    · have hsame : ¬SameQuotient x y := by
        unfold SameQuotient
        omega
      rw [if_pos hx.le, if_neg (not_le.2 hy), if_neg hsame]
    · have hsame : SameQuotient x y := .inr (.inl ⟨hx.le, hy⟩)
      rw [if_pos hx.le, if_pos hy.le, if_pos hsame]

theorem tdiv_nonpos (h : ¬SameQuotient x y) : x.tdiv y ≤ 0 := by
  unfold SameQuotient at h
  rcases le_or_gt 0 x with hx | hx
  · exact Int.tdiv_nonpos_of_nonneg_of_nonpos hx (by omega)
  · have hneg := Int.tdiv_nonneg (Int.neg_nonneg_of_nonpos hx.le) (show 0 ≤ y by omega)
    rw [Int.neg_tdiv] at hneg
    omega

theorem toDouble_tdiv_eq_fdiv_iff (hy : y ≠ 0) :
    toDouble (x.tdiv y) = x.fdiv y ↔ FloorExact x y := by
  rw [fdiv_eq_tdiv_sub hy, toDouble, FloorExact]
  split
  · rw [sub_zero]
    exact round_eq_self_iff
  · rename_i h
    rw [round_eq_sub_one_iff (tdiv_nonpos h), roundNat_eq_succ_iff]
    rfl

theorem ediv_bounds (hy : 0 < y) (hx : -m ≤ x ∧ x ≤ m) (hlast : x = m → 2 ≤ y)
    (hm : 0 < m) : -m ≤ x / y ∧ x / y < m := by
  constructor
  · apply Int.le_ediv_of_mul_le hy
    nlinarith
  · apply Int.ediv_lt_of_lt_mul hy
    rcases hx.2.eq_or_lt with heq | hlt
    · have htwo := hlast heq
      nlinarith
    · nlinarith

theorem fdiv_bounds (hy : y ≠ 0) (hx : -m ≤ x ∧ x < m) (hover : ¬(x = -m ∧ y = -1)) :
    -m ≤ x.fdiv y ∧ x.fdiv y < m := by
  have hm : 0 < m := by omega
  rcases lt_or_gt_of_ne hy with hneg | hpos
  · rw [← Int.neg_fdiv_neg, Int.fdiv_eq_ediv_of_nonneg _ (by omega)]
    exact ediv_bounds (by omega) (by omega) (by omega) hm
  · rw [Int.fdiv_eq_ediv_of_nonneg _ hpos.le]
    exact ediv_bounds hpos (by omega) (by omega) hm

section Corners

variable {w : ℕ}

theorem bmod_of_bounds (h : 0 < w) {z : ℤ} (hle : -2 ^ (w - 1) ≤ z) (hlt : z < 2 ^ (w - 1)) :
    z.bmod (2 ^ w) = z := by
  rw [← BitVec.toInt_ofInt, BitVec.toInt_ofInt_eq_self h hle hlt]

theorem tmod_between (x y : ℤ) :
    (0 ≤ x → 0 ≤ x.tmod y ∧ x.tmod y ≤ x) ∧ (x ≤ 0 → x ≤ x.tmod y ∧ x.tmod y ≤ 0) := by
  have hpos : ∀ x : ℤ, 0 ≤ x → 0 ≤ x.tmod y ∧ x.tmod y ≤ x := by
    intro x hx
    refine ⟨Int.tmod_nonneg y hx, ?_⟩
    obtain ⟨n, rfl⟩ := Int.eq_ofNat_of_zero_le hx
    obtain ⟨m, rfl | rfl⟩ := Int.eq_nat_or_neg y
    · rw [← Int.ofNat_tmod]
      exact_mod_cast Nat.mod_le n m
    · rw [Int.tmod_neg, ← Int.ofNat_tmod]
      exact_mod_cast Nat.mod_le n m
  refine ⟨hpos x, fun hx => ?_⟩
  have hneg := hpos (-x) (by omega)
  rw [Int.neg_tmod] at hneg
  omega

theorem eq_zero_iff (b : BitVec w) : b = 0 ↔ b.toInt = 0 := by
  rw [← BitVec.toInt_inj]
  simp

theorem eq_neg_one_iff (h : 0 < w) (b : BitVec w) : b = -1 ↔ b.toInt = -1 := by
  have hone : (-1 : BitVec w).toInt = -1 := by
    have hall : (-1 : BitVec w) = BitVec.allOnes w := BitVec.neg_one_eq_allOnes
    rw [hall, BitVec.toInt_allOnes, if_pos h]
  rw [← BitVec.toInt_inj, hone]

theorem eq_intMin_iff (h : 0 < w) (a : BitVec w) : a = BitVec.intMin w ↔ a.toInt = -2 ^ (w - 1) := by
  rw [← BitVec.toInt_inj, BitVec.toInt_intMin_of_pos h]

end Corners

section Signed

variable {t : IntType} (hs : t.isSigned = true) (a b : Value t)

include hs

omit hs in
theorem bits_pos (t : IntType) : 0 < t.bits := by
  cases t <;> decide

theorem toInt_inRange : InRange t a.toInt := by
  rw [inRange_signed hs]
  exact ⟨BitVec.le_toInt a, BitVec.toInt_lt⟩

theorem isOverflow_iff :
    a = BitVec.intMin t.bits ∧ b = -1 ↔ IsOverflow t (number t a) (number t b) := by
  rw [IsOverflow, number_signed hs, number_signed hs, eq_intMin_iff (bits_pos t),
    eq_neg_one_iff (bits_pos t), IntType.minValue, if_pos hs]

theorem runDiv_signed :
    runDiv t a b = if number t b = 0 ∨ IsOverflow t (number t a) (number t b) then none
      else some (a.sdiv b) := by
  rw [runDiv, if_pos hs]
  refine if_congr (or_congr ?_ (isOverflow_iff hs a b)) rfl rfl
  rw [number_signed hs, eq_zero_iff]

theorem promoted_signed :
    (promotedWithI32 t).isSigned = true ∧ t.bits ≤ (promotedWithI32 t).bits := by
  cases t <;> simp [IntType.isSigned, promotedWithI32, IntType.bits] at hs ⊢

theorem toInt_intCast_promoted : (intCast t (promotedWithI32 t) a).toInt = a.toInt := by
  rw [intCast, if_pos hs, BitVec.toInt_signExtend_of_le (promoted_signed hs).2]

theorem isNegative_signed : isNegative t a = decide (a.toInt < 0) := by
  rw [isNegative, less, if_pos (promoted_signed hs).1, BitVec.slt_eq_decide,
    toInt_intCast_promoted hs]
  simp

theorem promoted_ne_zero_signed : (intCast t (promotedWithI32 t) a != 0) = decide (a.toInt ≠ 0) := by
  rw [Bool.eq_iff_iff, bne_iff_ne, decide_eq_true_eq, ne_eq, eq_zero_iff, toInt_intCast_promoted hs]

theorem toInt_intCast_bool (c : Bool) :
    (intCast .u1 t (BitVec.ofBool c)).toInt = if c then 1 else 0 := by
  cases t <;> cases hs <;> cases c <;> decide

section Defined

variable (hover : ¬IsOverflow t (number t a) (number t b))

include hover

theorem toInt_sdiv_of_defined : (a.sdiv b).toInt = a.toInt.tdiv b.toInt := by
  apply BitVec.toInt_sdiv_of_ne_or_ne
  rw [← isOverflow_iff hs, not_and_or] at hover
  exact hover

theorem mul_sdiv_eq_iff : b * a.sdiv b = a ↔ b.toInt ∣ a.toInt := by
  have hrange := (inRange_signed hs).1 (toInt_inRange hs a)
  have hsum := Int.mul_tdiv_add_tmod a.toInt b.toInt
  have hbetween := tmod_between a.toInt b.toInt
  rw [← BitVec.toInt_inj, BitVec.toInt_mul, toInt_sdiv_of_defined hs a b hover,
    bmod_of_bounds (bits_pos t) (by omega) (by omega), Int.dvd_iff_tmod_eq_zero]
  omega

theorem demoteIfloordiv_signed (hb : number t b ≠ 0) : demoteIfloordiv t a b =
      some (BitVec.ofInt t.bits ((number t a).fdiv (number t b))) := by
  have hb' : b.toInt ≠ 0 := by rwa [number_signed hs] at hb
  rw [demoteIfloordiv, runDiv_signed hs, if_neg (not_or.2 ⟨hb, hover⟩), Option.map_some]
  simp only [isNegative_signed hs, promoted_ne_zero_signed hs]
  rw [number_signed hs, number_signed hs, fdiv_eq_tdiv_sub hb']
  have hcond : ((decide (a.toInt < 0) != decide (b.toInt < 0)) && decide (a.toInt ≠ 0) &&
      (b * a.sdiv b != a)) = decide (¬SameQuotient a.toInt b.toInt) := by
    rw [Bool.eq_iff_iff, Bool.and_eq_true, Bool.and_eq_true, bne_iff_ne, bne_iff_ne,
      decide_eq_true_eq, decide_eq_true_eq, ne_eq (b * a.sdiv b), mul_sdiv_eq_iff hs a b hover,
      ne_eq, decide_eq_decide, SameQuotient]
    omega
  rw [hcond]
  apply congrArg some
  apply BitVec.eq_of_toInt_eq
  rw [BitVec.toInt_sub, toInt_sdiv_of_defined hs a b hover, BitVec.toInt_ofInt]
  rw [toInt_intCast_bool hs]
  by_cases h : SameQuotient a.toInt b.toInt
  · rw [if_pos h, decide_eq_false (not_not.2 h)]
    rfl
  · rw [if_neg h, decide_eq_true h]
    rfl

end Defined

end Signed

section Unsigned

variable {t : IntType} (hu : t.isSigned = false) (a b : Value t)

include hu

theorem runDiv_unsigned : runDiv t a b = if number t b = 0 then none else some (a / b) := by
  have hnot : t.isSigned ≠ true := by rw [hu]; decide
  rw [runDiv, if_neg hnot]
  refine if_congr ?_ rfl rfl
  rw [number_unsigned hu, ← BitVec.toNat_inj]
  simp

theorem isNegative_unsigned : isNegative t a = false := by
  have hnarrow : ∀ {w : ℕ} (c : BitVec w), w < 32 → (c.setWidth 32).slt 0 = false := by
    intro w c hw
    have hlt : c.toNat < 2 ^ 31 :=
      Nat.lt_of_lt_of_le c.isLt (Nat.pow_le_pow_right (by decide) (by omega))
    have htoNat : (c.setWidth 32).toNat = c.toNat := BitVec.toNat_setWidth_of_le (by omega)
    rw [BitVec.slt_eq_decide, BitVec.toInt_eq_toNat_of_lt (by omega)]
    have hzero : (0 : BitVec 32).toInt = 0 := by decide
    exact decide_eq_false (by omega)
  cases t with
  | i8 | i16 | i32 | i64 => cases hu
  | u1 => exact hnarrow a (by decide)
  | u8 => exact hnarrow a (by decide)
  | u16 => exact hnarrow a (by decide)
  | u32 => exact decide_eq_false (Nat.not_lt_zero (BitVec.setWidth 32 a).toNat)
  | u64 => exact decide_eq_false (Nat.not_lt_zero (BitVec.setWidth 64 a).toNat)

theorem demoteIfloordiv_unsigned : demoteIfloordiv t a b = runDiv t a b := by
  have hzero : intCast .u1 t (BitVec.ofBool false) = 0 := by
    cases t <;> cases hu <;> decide
  rw [demoteIfloordiv]
  simp only [isNegative_unsigned hu, bne_self_eq_false, Bool.false_and, hzero]
  rw [runDiv_unsigned hu]
  split
  · rfl
  · exact congrArg some (BitVec.sub_zero _)

end Unsigned

section Folded

variable {t : IntType} (ht : t = .i32 ∨ t = .i64) (a b : Value t)

include ht

theorem hostOverflow_iff : a.signExtend 64 = BitVec.intMin 64 ∧ b.signExtend 64 = -1 ↔
      t = .i64 ∧ IsOverflow t (number t a) (number t b) := by
  obtain ⟨-, hbits, -, -⟩ := signed_facts ht
  rw [eq_intMin_iff (by decide), eq_neg_one_iff (by decide), BitVec.toInt_signExtend_of_le hbits,
    BitVec.toInt_signExtend_of_le hbits, ← isOverflow_iff (signed_facts ht).1, eq_intMin_iff (bits_pos _),
    eq_neg_one_iff (bits_pos _)]
  rcases ht with rfl | rfl
  · have hrange := (inRange_signed rfl).1 (toInt_inRange rfl a)
    change -2 ^ 31 ≤ a.toInt ∧ _ at hrange
    simp only [reduceCtorEq, false_and, iff_false]
    omega
  · simp only [true_and]
    rfl

theorem setWidth_sdiv : ((a.signExtend 64).sdiv (b.signExtend 64)).setWidth t.bits = a.sdiv b := by
  obtain ⟨-, hbits, -, -⟩ := signed_facts ht
  apply BitVec.eq_of_toInt_eq
  rw [← BitVec.signExtend_eq_setWidth_of_le _ hbits,
    BitVec.toInt_signExtend_eq_toInt_bmod_of_le _ hbits, BitVec.toInt_sdiv, BitVec.toInt_sdiv,
    BitVec.toInt_signExtend_of_le hbits, BitVec.toInt_signExtend_of_le hbits]
  exact Int.bmod_bmod_of_dvd (Nat.pow_dvd_pow 2 hbits)

theorem hostTrap_iff :
    (b.signExtend 64 = 0 ∨ a.signExtend 64 = BitVec.intMin 64 ∧ b.signExtend 64 = -1) ↔
      ¬(number t b ≠ 0 ∧ ¬(t = .i64 ∧ IsOverflow t (number t a) (number t b))) := by
  obtain ⟨-, hbits, -, -⟩ := signed_facts ht
  rw [hostOverflow_iff ht, eq_zero_iff, BitVec.toInt_signExtend_of_le hbits,
    number_signed (signed_facts ht).1 b]
  tauto

theorem agrees_signed_div_iff : Agrees (runBinary .div t a b) (foldBinary .div t t a b) ↔
      number t b ≠ 0 ∧ ¬(t = .i64 ∧ IsOverflow t (number t a) (number t b)) := by
  rw [foldBinary_signed ht rfl (by decide) (by decide) (by decide)]
  change Agrees (runDiv t a b)
    ((if b.signExtend 64 = 0 ∨ a.signExtend 64 = BitVec.intMin 64 ∧ b.signExtend 64 = -1
      then HostResult.trap
      else .value (.int64 ((a.signExtend 64).sdiv (b.signExtend 64)))).install t) ↔ _
  have htrap := hostTrap_iff ht a b
  split
  · rename_i h
    exact ⟨fun hfalse => hfalse.elim, fun hholds => htrap.1 h hholds⟩
  · rename_i h
    refine ⟨fun _ => not_not.1 fun hnot => h (htrap.2 hnot), fun _ => ?_⟩
    rw [runDiv_signed (signed_facts ht).1]
    split
    · exact agrees_none (install_value_ne_trap t _)
    · exact agrees_int64 ht (setWidth_sdiv ht a b)

theorem agrees_signed_floordiv_iff :
    Agrees (runBinary .floordiv t a b) (foldBinary .floordiv t t a b) ↔
      number t b ≠ 0 ∧ ¬(t = .i64 ∧ IsOverflow t (number t a) (number t b)) ∧
        (IsOverflow t (number t a) (number t b) ∨ FloorExact (number t a) (number t b)) := by
  obtain ⟨-, hbits, hne, -⟩ := signed_facts ht
  rw [foldBinary_signed ht rfl (by decide) (by decide) (by decide)]
  change Agrees (demoteIfloordiv t a b)
    ((if b.signExtend 64 = 0 ∨ a.signExtend 64 = BitVec.intMin 64 ∧ b.signExtend 64 = -1
      then HostResult.trap
      else .value (.float64 (toDouble
        ((a.signExtend 64).sdiv (b.signExtend 64)).toInt))).install t) ↔ _
  have htrap := hostTrap_iff ht a b
  split
  · rename_i h
    exact ⟨fun hfalse => hfalse.elim, fun hholds => htrap.1 h ⟨hholds.1, hholds.2.1⟩⟩
  · rename_i h
    have hhost : number t b ≠ 0 ∧ ¬(t = .i64 ∧ IsOverflow t (number t a) (number t b)) :=
      not_not.1 fun hnot => h (htrap.2 hnot)
    rw [and_iff_right hhost.1, and_iff_right hhost.2]
    by_cases hover : IsOverflow t (number t a) (number t b)
    · refine ⟨fun _ => .inl hover, fun _ => ?_⟩
      rw [demoteIfloordiv, runDiv_signed (signed_facts ht).1, if_pos (.inr hover)]
      exact agrees_none (install_value_ne_trap t _)
    · have hquotient : ((a.signExtend 64).sdiv (b.signExtend 64)).toInt =
          (number t a).tdiv (number t b) := by
        rw [not_or, not_and_or] at h
        rw [BitVec.toInt_sdiv_of_ne_or_ne _ _ h.2, BitVec.toInt_signExtend_of_le hbits,
          BitVec.toInt_signExtend_of_le hbits, number_signed (signed_facts ht).1,
          number_signed (signed_facts ht).1]
      have hrange : InRange t ((number t a).fdiv (number t b)) := by
        have hx := (inRange_signed (signed_facts ht).1).1 (toInt_inRange (signed_facts ht).1 a)
        rw [← number_signed (signed_facts ht).1] at hx
        refine (inRange_signed (signed_facts ht).1).2 (fdiv_bounds hhost.1 hx fun hm => hover ⟨?_, hm.2⟩)
        rw [hm.1, IntType.minValue, if_pos (signed_facts ht).1]
      rw [demoteIfloordiv_signed (signed_facts ht).1 a b hover hhost.1, hquotient, or_iff_right hover,
        ← toDouble_tdiv_eq_fdiv_iff hhost.1]
      exact agrees_float64 (.inl ht) hrange

end Folded

end Quadrants.Folding
