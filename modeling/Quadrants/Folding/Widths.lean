import Quadrants.Folding.ConstantFold

/-!
For which operands the constant is the right one.
-/

namespace Quadrants.Folding

open Library.BinaryRounding

/-- The successor of a number, and not the number, is a `double`, and the nearest one. -/
def NextIsNearest (n : ℕ) : Prop :=
  0 < excess 53 n ∧ n % 2 ^ excess 53 n = 2 ^ excess 53 n - 1 ∧ (excess 53 n = 1 → n / 2 % 2 = 1)

instance (n : ℕ) : Decidable (NextIsNearest n) :=
  inferInstanceAs (Decidable (_ ∧ _))

def SameQuotient (x y : ℤ) : Prop :=
  y ∣ x ∨ 0 ≤ x ∧ 0 < y ∨ x ≤ 0 ∧ y < 0

instance (x y : ℤ) : Decidable (SameQuotient x y) :=
  inferInstanceAs (Decidable (_ ∨ _))

/-- The quotient is the same and is a `double`, or else it is so large that its rounding makes up
for the difference. -/
def FloorExact (x y : ℤ) : Prop :=
  if SameQuotient x y then Representable 53 (x.tdiv y) else NextIsNearest (x.tdiv y).natAbs

instance (x y : ℤ) : Decidable (FloorExact x y) :=
  inferInstanceAs (Decidable (ite _ _ _))

/-- The remainders of the numbers without and with a sign, on `w` bits, are the same or the latter
has no value. -/
def SameRemainder (w : ℕ) (x y : ℤ) : Prop :=
  x < 2 ^ (w - 1) ∧ y < 2 ^ (w - 1) ∨
    x < 2 ^ (w - 1) ∧ x < 2 ^ w - y ∨
    y < 2 ^ (w - 1) ∧ y ∣ x ∧ y ∣ 2 ^ w ∨
    x = y ∨
    x = 2 ^ (w - 1) ∧ y = 2 ^ w - 1

instance (w : ℕ) (x y : ℤ) : Decidable (SameRemainder w x y) :=
  inferInstanceAs (Decidable (_ ∨ _))

def IsOverflow (t : IntType) (x y : ℤ) : Prop :=
  x = t.minValue ∧ y = -1

instance (t : IntType) (x y : ℤ) : Decidable (IsOverflow t x y) :=
  inferInstanceAs (Decidable (_ ∧ _))

/-- The power is in range and a `double`, and the parity of the exponent is not lost. -/
def PowExact (t : IntType) (x y : ℤ) : Prop :=
  (t.minValue ≤ x ^ y.toNat ∧ x ^ y.toNat ≤ t.maxValue) ∧ Representable 53 (x ^ y.toNat) ∧
    ¬(x = -1 ∧ 2 ^ 53 < y ∧ y % 2 = 1)

instance (t : IntType) (x y : ℤ) : Decidable (PowExact t x y) :=
  inferInstanceAs (Decidable (_ ∧ _))

def PowHolds (t t' : IntType) (x y : ℤ) : Prop :=
  (t = .i32 ∨ t = .i64) → (t' = .i32 ∨ t' = .i64) → 0 ≤ y → PowExact t x y

def BinaryHolds (op : BinaryOp) (t : IntType) (x y : ℤ) : Prop :=
  match op with
  | .add => t = .u1 → ¬(x = 1 ∧ y = 1)
  | .div => t.isGood = true → y ≠ 0 ∧ ¬(t = .i64 ∧ IsOverflow t x y)
  | .floordiv =>
    t.isGood = true → y ≠ 0 ∧ ¬(t = .i64 ∧ IsOverflow t x y) ∧ (IsOverflow t x y ∨ FloorExact x y)
  | .mod =>
    (t = .i32 ∨ t = .i64 → y ≠ 0 ∧ ¬IsOverflow t x y) ∧
      (t = .u32 ∨ t = .u64 → y ≠ 0 ∧ SameRemainder t.bits x y)
  | .pow => PowHolds t t x y
  | _ => True

def UnaryHolds (op : UnaryOp) (t : IntType) (x : ℤ) : Prop :=
  op = .abs → t = .i64 → Representable 53 x

end Quadrants.Folding

/-!
The host computes on more bits than the type has: the operations whose low bits do not depend on the
ones above, and the comparisons.
-/

namespace Quadrants.Folding

section Extended

variable {w v : ℕ} (h : w ≤ v) (a b : BitVec w)

include h

theorem low_signExtend : (a.signExtend v).setWidth w = a := by
  rw [← BitVec.signExtend_eq_setWidth_of_le _ h]
  apply BitVec.eq_of_toInt_eq
  rw [BitVec.toInt_signExtend_eq_toInt_bmod_of_le _ h, BitVec.toInt_signExtend_of_le h]
  exact BitVec.toInt_bmod_cancel a

theorem low_setWidth : (a.setWidth v).setWidth w = a := by
  rw [BitVec.setWidth_setWidth_of_le _ h, BitVec.setWidth_eq]

theorem slt_signExtend : (a.signExtend v).slt (b.signExtend v) = a.slt b := by
  rw [BitVec.slt_eq_decide, BitVec.slt_eq_decide, BitVec.toInt_signExtend_of_le h,
    BitVec.toInt_signExtend_of_le h]

theorem ult_setWidth : (a.setWidth v).ult (b.setWidth v) = a.ult b := by
  rw [BitVec.ult, BitVec.ult, BitVec.toNat_setWidth_of_le h, BitVec.toNat_setWidth_of_le h]

theorem signExtend_eq_iff : a.signExtend v = b.signExtend v ↔ a = b := by
  constructor
  · intro heq
    rw [← low_signExtend h a, heq, low_signExtend h b]
  · rintro rfl
    rfl

theorem setWidth_eq_iff : a.setWidth v = b.setWidth v ↔ a = b := by
  constructor
  · intro heq
    rw [← low_setWidth h a, heq, low_setWidth h b]
  · rintro rfl
    rfl

end Extended

variable {w : ℕ}

variable (a b : BitVec w)

theorem sle_eq_not_slt : a.sle b = !b.slt a := by
  rw [BitVec.slt_eq_decide, ← decide_not]
  exact decide_eq_decide.2 not_lt.symm

theorem ule_eq_not_ult : a.ule b = !b.ult a := by
  rw [BitVec.ult, ← decide_not]
  exact decide_eq_decide.2 not_lt.symm

theorem max_slt : (if a.slt b then b else a) = if b.slt a then a else b := by
  simp only [BitVec.slt_iff_toInt_lt]
  split
  · rw [if_neg (by omega)]
  · split
    · rfl
    · exact BitVec.eq_of_toInt_eq (by omega)

theorem max_ult : (if a.ult b then b else a) = if b.ult a then a else b := by
  simp only [BitVec.ult_iff_toNat_lt]
  split
  · rw [if_neg (by omega)]
  · split
    · rfl
    · exact BitVec.eq_of_toNat_eq (by omega)

theorem min_slt : (if b.slt a then b else a) = if a.slt b then a else b := by
  simp only [BitVec.slt_iff_toInt_lt]
  split
  · rw [if_neg (by omega)]
  · split
    · rfl
    · exact BitVec.eq_of_toInt_eq (by omega)

theorem min_ult : (if b.ult a then b else a) = if a.ult b then a else b := by
  simp only [BitVec.ult_iff_toNat_lt]
  split
  · rw [if_neg (by omega)]
  · split
    · rfl
    · exact BitVec.eq_of_toNat_eq (by omega)

theorem beq_congr {v : ℕ} {a b : BitVec w} {l r : BitVec v} (h : l = r ↔ a = b) :
    (l == r) = (a == b) := by
  rw [Bool.eq_iff_iff, beq_iff_eq, beq_iff_eq, h]

section Agree

variable {dst : IntType}

variable {c v : Value dst}

@[simp]
theorem agrees_installed_some : Agrees (some v) (.installed c) ↔ c = v :=
  ⟨fun h => h v rfl, fun h _ hv => Option.some.inj hv ▸ h⟩

@[simp]
theorem agrees_none_installed : Agrees none (.installed c) := by
  rintro _ ⟨⟩

theorem agrees_none {o : Outcome dst} (h : o ≠ .trap) : Agrees none o := by
  cases o with
  | trap => exact absurd rfl h
  | kept | error => trivial
  | undefined => rfl
  | installed c => exact agrees_none_installed

theorem typedConstant_ne_trap (dst : IntType) (v : HostValue) : typedConstant dst v ≠ .trap := by
  cases v with
  | float64 x =>
    rw [typedConstant]
    split <;> exact fun h => nomatch h
  | int32 | int64 | uint64 | bool => exact fun h => nomatch h

theorem install_value_ne_trap (dst : IntType) (v : HostValue) :
    (HostResult.value v).install dst ≠ .trap :=
  typedConstant_ne_trap dst v

theorem agrees_shift {p q : Prop} [Decidable p] [Decidable q] {x : HostValue}
    (hqp : p → q) (h : p → Agrees (some v) (typedConstant dst x)) :
    Agrees (if p then some v else none)
      ((if q then HostResult.value x else HostResult.undefined).install dst) := by
  by_cases hp : p
  · rw [if_pos hp, if_pos (hqp hp)]
    exact h hp
  · rw [if_neg hp]
    apply agrees_none
    split
    · exact install_value_ne_trap dst x
    · exact fun h => nomatch h

end Agree

section Fold

variable {op : BinaryOp} {t : IntType}

theorem foldBinary_signed (ht : t = .i32 ∨ t = .i64) (hop : op.isIntegral = false)
    (hpow : op ≠ .pow) (hand : op ≠ .logicalAnd) (hor : op ≠ .logicalOr) (a b : Value t) :
    foldBinary op t t a b =
      (hostSigned .int64 (a.signExtend 64) (b.signExtend 64) op).install _ := by
  have hsigned : t.isSigned = true := by rcases ht with rfl | rfl <;> rfl
  simp [foldBinary, hpow, hand, hor, hop, ht, valInt, hsigned, onHost]

theorem foldBinary_unsigned (ht : t = .u32 ∨ t = .u64) (hpow : op ≠ .pow)
    (hand : op ≠ .logicalAnd) (hor : op ≠ .logicalOr) (a b : Value t) :
    foldBinary op t t a b = (hostUnsigned (a.setWidth 64) (b.setWidth 64) op).install _ := by
  have hsigned : t.isSigned = false := by rcases ht with rfl | rfl <;> rfl
  have h32 : t ≠ .i32 := by rcases ht with rfl | rfl <;> decide
  have h64 : t ≠ .i64 := by rcases ht with rfl | rfl <;> decide
  simp [foldBinary, hpow, hand, hor, ht, h32, h64, valUint, hsigned, onHost]

theorem foldBinary_int32 (hop : op.isIntegral = true) (a b : Value .i32) :
    foldBinary op .i32 .i32 a b = (hostSigned .int32 a b op).install _ := by
  have ha : a.setWidth 32 = a := BitVec.setWidth_eq a
  have hb : b.setWidth 32 = b := BitVec.setWidth_eq b
  cases op <;> cases hop
  all_goals
    simp [foldBinary, valInt32, onHost, BinaryOp.isIntegral, ha, hb]

theorem foldBinary_int64 (hop : op.isIntegral = true) (a b : Value .i64) :
    foldBinary op .i64 .i64 a b = (hostSigned .int64 a b op).install _ := by
  have ha : a.signExtend 64 = a := BitVec.signExtend_eq a
  have hb : b.signExtend 64 = b := BitVec.signExtend_eq b
  cases op <;> cases hop
  all_goals
    simp [foldBinary, valInt, IntType.isSigned, onHost, ha, hb]

theorem foldBinary_bad (ht : t.isGood = false) (hpow : op ≠ .pow) (a b : Value t) :
    foldBinary op t t a b = .kept := by
  cases t <;> cases ht
  all_goals
    simp [foldBinary, hpow]

end Fold

end Quadrants.Folding
