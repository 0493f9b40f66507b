import Quadrants.Folding.FloorDivision

/-!
`BinaryOpSimp` on integers: how a constant on the right is moved through the operation before it.
-/

namespace Quadrants.Simplify

open Folding

def runSame (op : BinaryOp) (t : IntType) (a b : Value t) : Option (Value t) :=
  if h : op.retType t = t then h ▸ runBinary op t a b else none

def canRearrangeAssociative : BinaryOp → BinaryOp → Option BinaryOp
  | .add, .add => some .add
  | .add, .sub => some .sub
  | .sub, .add => some .sub
  | .sub, .sub => some .add
  | .mul, .mul => some .mul
  | .mul, .div => some .div
  | .div, .mul => some .div
  | .div, .div => some .mul
  | .bitAnd, .bitAnd => some .bitAnd
  | .bitOr, .bitOr => some .bitOr
  | .bitXor, .bitXor => some .bitXor
  | .bitShl, .bitShl => some .add
  | .bitShr, .bitShr => some .add
  | .bitSar, .bitSar => some .add
  | _, _ => none

inductive Rewritten (t : IntType) where
  | rearranged (op1 newOp2 : BinaryOp) (a b c : Value t)
  | masked (a mask : Value t)

def Rewritten.eval {t : IntType} : Rewritten t → Option (Value t)
  | .rearranged op1 newOp2 a b c => (runSame newOp2 t b c).bind (runSame op1 t a)
  | .masked a mask => runSame .bitAnd t a mask

def shiftMask (t : IntType) (c : Value t) : Value t :=
  (-((1 : BitVec 64) <<< c.toNat)).setWidth t.bits

def tryRearrangingConstRhs (t : IntType) (op1 op2 : BinaryOp) (a b c : Value t) :
    Option (Rewritten t) :=
  if op1 = .div ∧ op2 = .mul ∨ op1 = .mul ∧ op2 = .div then none
  else
    match canRearrangeAssociative op1 op2 with
    | some newOp2 => some (.rearranged op1 newOp2 a b c)
    | none =>
      if (op1 = .bitShr ∨ op1 = .bitSar) ∧ op2 = .bitShl ∧ b = c then
        some (.masked a (shiftMask t c))
      else none

/-- The statements that are matched: `(a op1 b) op2 c` with constants `b` and `c`, and
`a - (a & b)`. -/
inductive Matched (t : IntType) where
  | nested (op1 op2 : BinaryOp) (a b c : Value t)
  | subAnd (a b : Value t)

namespace Matched

variable {t : IntType}

def eval : Matched t → Option (Value t)
  | nested op1 op2 a b c => (runSame op1 t a b).bind fun x => runSame op2 t x c
  | subAnd a b => (runSame .bitAnd t a b).bind fun x => runSame .sub t a x

def simplify : Matched t → Option (Rewritten t)
  | nested op1 op2 a b c => tryRearrangingConstRhs t op1 op2 a b c
  | subAnd a b => some (.masked a (~~~b))

/-- If the statement has a value, then what it becomes has the same one. -/
def Preserved (m : Matched t) : Prop :=
  ∀ r, m.simplify = some r → ∀ v, m.eval = some v → r.eval = some v

/-- The amounts of two shifts stay below the width together, and the product of two divisors is in
range, or it wraps to a number that the dividend is still below. -/
def Holds : Matched t → Prop
  | nested .div .div a b c =>
    InRange t (number t b * number t c) ∨ (number t a).natAbs < (number t (b * c)).natAbs
  | nested .bitShl .bitShl _ b c => b.toNat + c.toNat < t.bits
  | nested .bitShr .bitShr _ b c => b.toNat + c.toNat < t.bits
  | nested .bitSar .bitSar _ b c => b.toNat + c.toNat < t.bits
  | _ => True

end Matched

end Quadrants.Simplify

/-!
When the statement that `BinaryOpSimp` makes has the value of the one it replaces.
-/

namespace Quadrants.Simplify

open Folding

variable {t : IntType}

theorem tdiv_tdiv (x y z : ℤ) : (x.tdiv y).tdiv z = x.tdiv (y * z) := by
  obtain ⟨n, rfl | rfl⟩ := Int.eq_nat_or_neg x <;>
  obtain ⟨m, rfl | rfl⟩ := Int.eq_nat_or_neg y <;>
  obtain ⟨k, rfl | rfl⟩ := Int.eq_nat_or_neg z <;>
  simp only [Int.neg_tdiv, Int.tdiv_neg, Int.neg_mul, Int.mul_neg, neg_neg, ← Int.ofNat_tdiv,
    ← Int.natCast_mul, Nat.div_div_eq_div_mul]

theorem tdiv_eq_zero_iff {x y : ℤ} (hy : y ≠ 0) : x.tdiv y = 0 ↔ x.natAbs < y.natAbs := by
  rw [← Int.natAbs_eq_zero, Int.natAbs_tdiv]
  exact Nat.div_eq_zero_iff_lt (Int.natAbs_pos.2 hy)

variable (a b : Value t)

theorem runDiv_eq : runDiv t a b =
      if number t b = 0 ∨ t.isSigned = true ∧ IsOverflow t (number t a) (number t b) then none
      else some (BitVec.ofInt t.bits ((number t a).tdiv (number t b))) := by
  cases hs : t.isSigned with
  | true =>
    rw [runDiv_signed hs]
    simp only [true_and]
    split
    · rfl
    · next h =>
        rw [not_or] at h
        rw [number_signed hs, number_signed hs, ← toInt_sdiv_of_defined hs a b h.2,
          BitVec.ofInt_toInt]
  | false =>
    rw [runDiv_unsigned hs]
    simp only [Bool.false_eq_true, false_and, or_false]
    split
    · rfl
    · apply congrArg some
      rw [number_unsigned hs, number_unsigned hs, ← Int.ofNat_tdiv, BitVec.ofInt_natCast]
      apply BitVec.eq_of_toNat_eq
      rw [BitVec.toNat_udiv, BitVec.toNat_ofNat]
      exact (Nat.mod_eq_of_lt (lt_of_le_of_lt (Nat.div_le_self _ _) a.isLt)).symm

theorem inRange_tdiv {a b : Value t} (hb : number t b ≠ 0)
    (hover : ¬(t.isSigned = true ∧ IsOverflow t (number t a) (number t b))) :
    InRange t ((number t a).tdiv (number t b)) := by
  have ha := number_inRange a
  have hnatAbs := Int.natAbs_tdiv (number t a) (number t b)
  change _ = (number t a).natAbs / (number t b).natAbs at hnatAbs
  have hle := Nat.div_le_self (number t a).natAbs (number t b).natAbs
  cases hs : t.isSigned with
  | true =>
    rw [inRange_signed hs] at ha ⊢
    refine ⟨by omega, Int.lt_of_not_ge fun hge => hover ⟨hs, ?_⟩⟩
    rw [IsOverflow, IntType.minValue, if_pos hs]
    -- only the least number has a quotient of this size, and only by one or minus one
    have hone : (number t b).natAbs = 1 := by
      by_contra hne
      have htwo : (number t a).natAbs / (number t b).natAbs ≤ (number t a).natAbs / 2 :=
        Nat.div_le_div_left (by omega) (by decide)
      have hpos : (0 : ℤ) < 2 ^ (t.bits - 1) := by positivity
      omega
    rcases (show number t b = 1 ∨ number t b = -1 by omega) with h | h
    · rw [h, Int.tdiv_one] at hge
      omega
    · omega
  | false =>
    have hb' := number_inRange b
    simp only [InRange, IntType.minValue, IntType.maxValue, hs, Bool.false_eq_true,
      if_false] at ha hb' ⊢
    have hnonneg := Int.tdiv_nonneg ha.1 hb'.1
    omega

theorem ofInt_number (a : Value t) : BitVec.ofInt t.bits (number t a) = a := by
  cases hs : t.isSigned with
  | true => rw [number_signed hs, BitVec.ofInt_toInt]
  | false => rw [number_unsigned hs, BitVec.ofInt_natCast, BitVec.ofNat_toNat, BitVec.setWidth_eq]

theorem mul_eq_ofInt (b c : Value t) : b * c = BitVec.ofInt t.bits (number t b * number t c) := by
  rw [BitVec.ofInt_mul, ofInt_number, ofInt_number]

theorem natAbs_lt_of_not_inRange (a b c : Value t) (h : ¬InRange t (number t b * number t c)) :
    (number t a).natAbs < (number t b * number t c).natAbs ∨
      t.isSigned = true ∧ number t a = -2 ^ (t.bits - 1) ∧
        number t b * number t c = 2 ^ (t.bits - 1) := by
  have ha := number_inRange a
  cases hs : t.isSigned with
  | true =>
    rw [inRange_signed hs] at ha h
    by_cases hlt : (number t a).natAbs < (number t b * number t c).natAbs
    · exact .inl hlt
    · exact .inr ⟨rfl, by omega, by omega⟩
  | false =>
    have hb := number_inRange b
    have hc := number_inRange c
    simp only [InRange, IntType.minValue, IntType.maxValue, hs, Bool.false_eq_true,
      if_false] at ha hb hc h
    have hnonneg := Int.mul_nonneg hb.1 hc.1
    left
    omega

theorem number_ofInt_two_pow (hs : t.isSigned = true) :
    number t (BitVec.ofInt t.bits (2 ^ (t.bits - 1))) = -2 ^ (t.bits - 1) := by
  have hbits := bits_pos t
  have htwo : (2 : ℤ) ^ t.bits = 2 * 2 ^ (t.bits - 1) := by
    rw [← Int.pow_succ', Nat.sub_add_cancel hbits]
  have hpos : (0 : ℤ) < 2 ^ (t.bits - 1) := by positivity
  rw [number_signed hs, BitVec.toInt_ofInt, Int.bmod]
  push_cast
  rw [htwo, Int.emod_eq_of_lt hpos.le (by omega), if_neg (by omega)]
  omega

theorem div_div_eq_some {a b c v : Value t}
    (h : ((runDiv t a b).bind fun x => runDiv t x c) = some v) : number t b ≠ 0 ∧ number t c ≠ 0 ∧
      (t.isSigned = true → number t a = t.minValue → number t b * number t c ≠ -1) ∧
      InRange t ((number t a).tdiv (number t b * number t c)) ∧
      v = BitVec.ofInt t.bits ((number t a).tdiv (number t b * number t c)) := by
  obtain ⟨x, hx, hv⟩ := Option.bind_eq_some_iff.1 h
  rw [runDiv_eq] at hx hv
  split at hx
  · cases hx
  · next hdefined =>
      rw [not_or] at hdefined
      cases hx
      have hnumber := number_ofInt (inRange_tdiv hdefined.1 hdefined.2)
      split at hv
      · cases hv
      · next hdefined' =>
          rw [not_or] at hdefined'
          cases hv
          have hrange := inRange_tdiv hdefined'.1 hdefined'.2
          rw [hnumber] at hdefined' hrange
          rw [tdiv_tdiv] at hrange
          refine ⟨hdefined.1, hdefined'.1, fun hs hmin hunit => ?_, hrange, ?_⟩
          · rcases Int.eq_one_or_neg_one_of_mul_eq_neg_one hunit with hb | hb
            · have hc : number t c = -1 := by
                rw [hb] at hunit
                omega
              refine hdefined'.2 ⟨hs, ?_, hc⟩
              rw [hb, Int.tdiv_one]
              exact hmin
            · exact hdefined.2 ⟨hs, hmin, hb⟩
          · rw [hnumber, tdiv_tdiv]

theorem div_mul_eq_iff {a b c v : Value t}
    (h : ((runDiv t a b).bind fun x => runDiv t x c) = some v) : runDiv t a (b * c) = some v ↔
      InRange t (number t b * number t c) ∨ (number t a).natAbs < (number t (b * c)).natAbs := by
  obtain ⟨hb, hc, hunit, hquotient, rfl⟩ := div_div_eq_some h
  have hne : number t b * number t c ≠ 0 := mul_ne_zero hb hc
  rw [runDiv_eq]
  by_cases hrange : InRange t (number t b * number t c)
  · have hproduct : number t (b * c) = number t b * number t c := by
      rw [mul_eq_ofInt, number_ofInt hrange]
    refine iff_of_true ?_ (.inl hrange)
    rw [hproduct, if_neg]
    rintro (hzero | ⟨hs, hmin, hminus⟩)
    · exact hne hzero
    · exact hunit hs hmin hminus
  · rw [or_iff_right hrange]
    have hlarge := natAbs_lt_of_not_inRange a b c hrange
    constructor
    · intro hvalue
      split at hvalue
      · cases hvalue
      · next hdefined =>
          rw [not_or] at hdefined
          have hequal := congrArg (number t) (Option.some.inj hvalue)
          rw [number_ofInt (inRange_tdiv hdefined.1 hdefined.2), number_ofInt hquotient] at hequal
          rcases hlarge with hlarge | ⟨hs, hmin, hpow⟩
          · rwa [(tdiv_eq_zero_iff hne).2 hlarge, tdiv_eq_zero_iff hdefined.1] at hequal
          · -- the least number by itself is one, but minus one is wanted
            have hpos : (0 : ℤ) < 2 ^ (t.bits - 1) := by positivity
            rw [mul_eq_ofInt, hpow, number_ofInt_two_pow hs, hmin, Int.neg_tdiv, Int.tdiv_neg,
              neg_neg, Int.tdiv_self (ne_of_gt hpos), Int.neg_tdiv,
              Int.tdiv_self (ne_of_gt hpos)] at hequal
            omega
    · intro hlt
      have hnonzero : number t (b * c) ≠ 0 := by
        intro hzero
        rw [hzero] at hlt
        simp at hlt
      have hover : ¬(t.isSigned = true ∧ IsOverflow t (number t a) (number t (b * c))) := by
        rintro ⟨hs, hmin, hminus⟩
        rw [hmin, hminus, IntType.minValue, if_pos hs] at hlt
        have hpos : (0 : ℤ) < 2 ^ (t.bits - 1) := by positivity
        omega
      have hlarge' : (number t a).natAbs < (number t b * number t c).natAbs := by
        rcases hlarge with hlarge | ⟨hs, hmin, -⟩
        · exact hlarge
        · have hbound := (inRange_signed hs).1 (number_inRange (b * c))
          omega
      rw [if_neg (not_or.2 ⟨hnonzero, hover⟩), (tdiv_eq_zero_iff hnonzero).2 hlt,
        (tdiv_eq_zero_iff hne).2 hlarge']

theorem runSame_eq {op : BinaryOp} (h : op.retType t = t) (a b : Value t) :
    runSame op t a b = h ▸ runBinary op t a b :=
  dif_pos h

theorem toNat_add_of_lt {b c : Value t} (hb : b.toNat < t.bits) (hc : c.toNat < t.bits) :
    (b + c).toNat = b.toNat + c.toNat := by
  have hpow : 2 * t.bits ≤ 2 ^ t.bits := by cases t <;> decide
  rw [BitVec.toNat_add]
  exact Nat.mod_eq_of_lt (by omega)

theorem shift_shift_eq_iff {run : Value t → Value t → Option (Value t)}
    {shift : Value t → ℕ → Value t}
    (hrun : ∀ a b, run a b = if b.toNat < t.bits then some (shift a b.toNat) else none)
    (hshift : ∀ a m n, shift (shift a m) n = shift a (m + n)) {a b c v : Value t}
    (h : ((run a b).bind fun x => run x c) = some v) :
    run a (b + c) = some v ↔ b.toNat + c.toNat < t.bits := by
  obtain ⟨x, hx, hv⟩ := Option.bind_eq_some_iff.1 h
  rw [hrun] at hx hv
  split at hx
  · next hb =>
      split at hv
      · next hc =>
          cases hx
          cases hv
          rw [hrun, toNat_add_of_lt hb hc, hshift]
          constructor
          · intro hsome
            split at hsome
            · assumption
            · cases hsome
          · exact fun hlt => if_pos hlt
      · cases hv
  · cases hx

theorem runShl_eq :
    runSame .bitShl t a b = if b.toNat < t.bits then some (a <<< b.toNat) else none :=
  runSame_eq rfl a b

def arithmeticShift (a : Value t) (n : ℕ) : Value t :=
  if t.isSigned then a.sshiftRight n else a >>> n

theorem arithmeticShift_add (a : Value t) (m n : ℕ) :
    arithmeticShift (arithmeticShift a m) n = arithmeticShift a (m + n) := by
  simp only [arithmeticShift]
  split
  · exact BitVec.sshiftRight_add.symm
  · exact (BitVec.shiftRight_add a m n).symm

theorem runSar_eq : runSame .bitSar t a b =
      if b.toNat < t.bits then some (arithmeticShift a b.toNat) else none :=
  runSame_eq rfl a b

theorem map_setWidth_ushiftRight {w w' : ℕ} (h : w' = w) (a b : BitVec w) :
    (if (b.setWidth w').toNat < w' then some (a.setWidth w' >>> (b.setWidth w').toNat)
      else none).map (·.setWidth w) = if b.toNat < w then some (a >>> b.toNat) else none := by
  subst h
  rw [BitVec.setWidth_eq, BitVec.setWidth_eq]
  split
  · exact congrArg some (BitVec.setWidth_eq _)
  · rfl

theorem runSar_unsigned (hu : t.isSigned = false) (a b : Value t) :
    runSar t a b = if b.toNat < t.bits then some (a >>> b.toNat) else none := by
  rw [runSar, hu]
  rfl

theorem runShr_eq :
    runSame .bitShr t a b = if b.toNat < t.bits then some (a >>> b.toNat) else none := by
  have hwidth : (toUnsigned t).bits = t.bits := by cases t <;> rfl
  rw [runSame_eq rfl]
  change demoteBitShr t a b = _
  rw [demoteBitShr, runSar_unsigned (by cases t <;> rfl)]
  exact map_setWidth_ushiftRight hwidth a b

theorem getLsbD_shiftMask {c : Value t} (i : ℕ) :
    (shiftMask t c).getLsbD i = (decide (i < t.bits) && decide (c.toNat ≤ i)) := by
  have hbits : t.bits ≤ 64 := by cases t <;> decide
  have hmask : -((1#64) <<< c.toNat) = BitVec.allOnes 64 <<< c.toNat := by
    rw [← BitVec.neg_one_eq_allOnes, BitVec.shiftLeft_eq_mul_twoPow,
      BitVec.shiftLeft_eq_mul_twoPow, BitVec.neg_mul]
  change ((-((1#64) <<< c.toNat)).setWidth t.bits).getLsbD i = _
  rw [hmask, BitVec.getLsbD_setWidth, BitVec.getLsbD_shiftLeft, BitVec.getLsbD_allOnes]
  by_cases h : i < t.bits
  · have hlt : i < 64 := by omega
    have hsub : i - c.toNat < 64 := by omega
    by_cases hle : c.toNat ≤ i
    · simp [h, hlt, hsub, hle, Nat.not_lt.2 hle]
    · simp [hle, Nat.lt_of_not_le hle]
  · simp [h]

variable (a c : Value t)

theorem ushiftRight_shiftLeft_eq : a >>> c.toNat <<< c.toNat = a &&& shiftMask t c := by
  apply BitVec.eq_of_getLsbD_eq
  intro i hi
  rw [BitVec.getLsbD_and, getLsbD_shiftMask, BitVec.getLsbD_shiftLeft, BitVec.getLsbD_ushiftRight]
  by_cases h : c.toNat ≤ i
  · simp [hi, h, Nat.not_lt.2 h]
  · simp [h, Nat.lt_of_not_le h]

theorem sshiftRight_shiftLeft_eq : a.sshiftRight c.toNat <<< c.toNat = a &&& shiftMask t c := by
  apply BitVec.eq_of_getLsbD_eq
  intro i hi
  rw [BitVec.getLsbD_and, getLsbD_shiftMask, BitVec.getLsbD_shiftLeft, BitVec.getLsbD_sshiftRight]
  by_cases h : c.toNat ≤ i
  · have hlt : i - c.toNat < t.bits := by omega
    simp [hi, h, Nat.not_lt.2 h, Nat.not_le.2 hlt]
  · simp [h, Nat.lt_of_not_le h]

theorem arithmeticShift_shiftLeft_eq :
    arithmeticShift a c.toNat <<< c.toNat = a &&& shiftMask t c := by
  rw [arithmeticShift]
  split
  · exact sshiftRight_shiftLeft_eq a c
  · exact ushiftRight_shiftLeft_eq a c

theorem sub_and_eq : a - (a &&& b) = a &&& ~~~b := by
  have hsum : (a &&& b) + (a &&& ~~~b) = a := by
    rw [BitVec.add_eq_or_of_and_eq_zero]
    · apply BitVec.eq_of_getLsbD_eq
      intro i hi
      rw [BitVec.getLsbD_or, BitVec.getLsbD_and, BitVec.getLsbD_and, BitVec.getLsbD_not]
      cases a.getLsbD i <;> cases b.getLsbD i <;> simp [hi]
    · apply BitVec.eq_of_getLsbD_eq
      intro i hi
      rw [BitVec.getLsbD_and, BitVec.getLsbD_and, BitVec.getLsbD_and, BitVec.getLsbD_not]
      cases a.getLsbD i <;> cases b.getLsbD i <;> simp [hi]
  calc
    a - (a &&& b) = (a &&& b) + (a &&& ~~~b) - (a &&& b) := by rw [hsum]
    _ = a &&& ~~~b := by rw [BitVec.add_comm, BitVec.add_sub_cancel]
@[simp] theorem runSame_add : runSame .add t a b = some (a + b) :=
  runSame_eq rfl a b

@[simp] theorem runSame_sub : runSame .sub t a b = some (a - b) :=
  runSame_eq rfl a b

@[simp] theorem runSame_mul : runSame .mul t a b = some (a * b) :=
  runSame_eq rfl a b

@[simp] theorem runSame_bitAnd : runSame .bitAnd t a b = some (a &&& b) :=
  runSame_eq rfl a b

@[simp] theorem runSame_bitOr : runSame .bitOr t a b = some (a ||| b) :=
  runSame_eq rfl a b

@[simp] theorem runSame_bitXor : runSame .bitXor t a b = some (a ^^^ b) :=
  runSame_eq rfl a b

theorem runSame_div : runSame .div t a b = runDiv t a b :=
  runSame_eq rfl a b

namespace Matched

variable {m : Matched t} {op1 op2 : BinaryOp}

theorem preserved_of_not_simplified (h : m.simplify = none) : m.Preserved := by
  intro r hr
  rw [h] at hr
  cases hr

theorem preserved_of_simplified {r : Rewritten t} (hr : m.simplify = some r)
    (h : ∀ v, m.eval = some v → r.eval = some v) : m.Preserved := by
  intro r' hr'
  rw [hr] at hr'
  cases hr'
  exact h

theorem preserved_iff_of_simplified {r : Rewritten t} {p : Prop}
    (hr : m.simplify = some r) (h : ∀ v, m.eval = some v → (r.eval = some v ↔ p)) :
    m.Preserved ↔ (m.eval.isSome = true → p) := by
  constructor
  · intro hpreserved hsome
    obtain ⟨v, hv⟩ := Option.isSome_iff_exists.1 hsome
    exact (h v hv).1 (hpreserved r hr v hv)
  · intro hp
    apply preserved_of_simplified hr
    intro v hv
    exact (h v hv).2 (hp (Option.isSome_iff_exists.2 ⟨v, hv⟩))

theorem preserved_of_eq {newOp2 : BinaryOp} {a b c : Value t}
    (hnew : tryRearrangingConstRhs t op1 op2 a b c = some (.rearranged op1 newOp2 a b c))
    (h : (Rewritten.rearranged op1 newOp2 a b c).eval = (nested op1 op2 a b c).eval) :
    (nested op1 op2 a b c).Preserved := by
  refine @preserved_of_simplified t (nested op1 op2 a b c) _ hnew fun v hv => ?_
  rw [h, hv]

theorem holds_of_not_rearranged (a b c : Value t)
    (h : canRearrangeAssociative op1 op2 = none) : (nested op1 op2 a b c).Holds := by
  unfold Holds
  split
  · next heq => cases heq; cases h
  · next heq => cases heq; cases h
  · next heq => cases heq; cases h
  · next heq => cases heq; cases h
  · trivial

theorem masked_eq {a c v : Value t} (hop : op1 = .bitShr ∨ op1 = .bitSar)
    (h : (nested op1 .bitShl a c c).eval = some v) :
    (Rewritten.masked a (shiftMask t c)).eval = some v := by
  obtain ⟨x, hx, hv⟩ := Option.bind_eq_some_iff.1 h
  have hvalue : x <<< c.toNat = v := by
    rw [runShl_eq] at hv
    split at hv
    · exact Option.some.inj hv
    · cases hv
  rw [Rewritten.eval, runSame_bitAnd, ← hvalue]
  apply congrArg some
  rcases hop with rfl | rfl
  · rw [runShr_eq] at hx
    split at hx
    · cases hx
      exact (ushiftRight_shiftLeft_eq a c).symm
    · cases hx
  · rw [runSar_eq] at hx
    split at hx
    · cases hx
      exact (arithmeticShift_shiftLeft_eq a c).symm
    · cases hx

theorem preserved_of_not_rearranged (a b c : Value t)
    (h : canRearrangeAssociative op1 op2 = none) : (nested op1 op2 a b c).Preserved := by
  intro r hr v hv
  simp only [simplify, tryRearrangingConstRhs, h] at hr
  split at hr
  · cases hr
  · split at hr
    · next hmask =>
        obtain ⟨hop, rfl, rfl⟩ := hmask
        cases hr
        exact masked_eq hop hv
    · cases hr

/-- `BinaryOpSimp` keeps the value of the statements that are defined if and only if the shifts and
the divisors that it joins stay in range. -/
theorem preserved_iff (m : Matched t) : m.Preserved ↔ (m.eval.isSome = true → m.Holds) := by
  cases m with
  | subAnd a b =>
    refine iff_of_true (preserved_of_simplified rfl fun v hv => ?_) fun _ => trivial
    rw [Rewritten.eval, runSame_bitAnd, ← sub_and_eq, ← hv, eval, runSame_bitAnd,
      Option.bind_some, runSame_sub]
  | nested op1 op2 a b c =>
    cases hnew : canRearrangeAssociative op1 op2 with
    | none =>
      exact iff_of_true (preserved_of_not_rearranged a b c hnew)
        fun _ => holds_of_not_rearranged a b c hnew
    | some newOp2 =>
      unfold canRearrangeAssociative at hnew
      split at hnew <;> cases hnew
      · refine iff_of_true (preserved_of_eq rfl ?_) fun _ => trivial
        simp only [Rewritten.eval, eval, runSame_add, Option.bind_some, BitVec.add_assoc]
      · refine iff_of_true (preserved_of_eq rfl ?_) fun _ => trivial
        simp only [Rewritten.eval, eval, runSame_add, runSame_sub, Option.bind_some,
          BitVec.sub_eq_add_neg, BitVec.add_assoc]
      · refine iff_of_true (preserved_of_eq rfl ?_) fun _ => trivial
        simp only [Rewritten.eval, eval, runSame_add, runSame_sub, Option.bind_some,
          BitVec.sub_eq_add_neg, BitVec.neg_add, BitVec.neg_neg, BitVec.add_assoc]
      · refine iff_of_true (preserved_of_eq rfl ?_) fun _ => trivial
        simp only [Rewritten.eval, eval, runSame_add, runSame_sub, Option.bind_some, BitVec.sub_sub]
      · refine iff_of_true (preserved_of_eq rfl ?_) fun _ => trivial
        simp only [Rewritten.eval, eval, runSame_mul, Option.bind_some, BitVec.mul_assoc]
      · exact iff_of_true (preserved_of_not_simplified rfl) fun _ => trivial
      · exact iff_of_true (preserved_of_not_simplified rfl) fun _ => trivial
      · refine preserved_iff_of_simplified rfl fun v hv => ?_
        simp only [eval, runSame_div] at hv
        simp only [Rewritten.eval, runSame_mul, Option.bind_some, runSame_div]
        exact div_mul_eq_iff hv
      · refine iff_of_true (preserved_of_eq rfl ?_) fun _ => trivial
        simp only [Rewritten.eval, eval, runSame_bitAnd, Option.bind_some, BitVec.and_assoc]
      · refine iff_of_true (preserved_of_eq rfl ?_) fun _ => trivial
        simp only [Rewritten.eval, eval, runSame_bitOr, Option.bind_some, BitVec.or_assoc]
      · refine iff_of_true (preserved_of_eq rfl ?_) fun _ => trivial
        simp only [Rewritten.eval, eval, runSame_bitXor, Option.bind_some, BitVec.xor_assoc]
      · refine preserved_iff_of_simplified rfl fun v hv => ?_
        simp only [Rewritten.eval, runSame_add, Option.bind_some]
        exact shift_shift_eq_iff runShl_eq (fun a m n => (BitVec.shiftLeft_add a m n).symm) hv
      · refine preserved_iff_of_simplified rfl fun v hv => ?_
        simp only [Rewritten.eval, runSame_add, Option.bind_some]
        exact shift_shift_eq_iff runShr_eq (fun a m n => (BitVec.shiftRight_add a m n).symm) hv
      · refine preserved_iff_of_simplified rfl fun v hv => ?_
        simp only [Rewritten.eval, runSame_add, Option.bind_some]
        exact @shift_shift_eq_iff t _ arithmeticShift runSar_eq arithmeticShift_add a b c v hv

/-- In `i32`, `(a << 20) << 20` is zero and `a << 40` is not defined; `(a / 65536) / 65536` is zero
and becomes a division by zero. -/
theorem nested_not_preserved : ¬(nested (t := .i32) .bitShl .bitShl 1 20 20).Preserved ∧
      ¬(nested (t := .i32) .div .div 1 65536 65536).Preserved := by
  constructor
  · intro h
    have heval := h _ rfl 0 (by decide)
    revert heval
    decide
  · intro h
    have heval := h _ rfl 0 (by decide)
    revert heval
    decide

end Matched

end Quadrants.Simplify
