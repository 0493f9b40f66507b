import Quadrants.Library.DoubleRounding
import Quadrants.Simplify.Reassociated

/-!
Casts between integers and real numbers, and chains of two of them.
-/

namespace Quadrants.Simplify

open Folding Library.BinaryRounding

inductive FloatType where
  | f16 | f32 | f64
  deriving DecidableEq, Repr

namespace FloatType

def bits : FloatType → ℕ
  | f16 => 16
  | f32 => 32
  | f64 => 64

def precision : FloatType → ℕ
  | f16 => 11
  | f32 => 24
  | f64 => 53

end FloatType

inductive DataType where
  | int (t : IntType)
  | real (f : FloatType)
  deriving DecidableEq, Repr

def dataTypeBits : DataType → ℕ
  | .int .u1 => 8
  | .int t => t.bits
  | .real f => f.bits

def isIntegral : DataType → Bool
  | .int _ => true
  | .real _ => false

def DataType.isUnsigned : DataType → Bool
  | .int t => !t.isSigned
  | .real _ => false

instance (t : IntType) (z : ℤ) : Decidable (InRange t z) :=
  inferInstanceAs (Decidable (_ ∧ _))

inductive RealValue where
  | finite (z : ℤ)
  | infinite (negative : Bool)
  deriving DecidableEq, Repr

def convert (f : FloatType) : RealValue → RealValue
  | .finite z =>
    if f = .f16 ∧ 65504 < (round f.precision z).natAbs then .infinite (decide (z < 0))
    else .finite (round f.precision z)
  | .infinite negative => .infinite negative

def RealValue.Fits (f : FloatType) (x : RealValue) : Prop :=
  convert f x = x

def toFloat (f : FloatType) (x : RealValue) : RealValue :=
  if f = .f16 then convert .f16 (convert .f32 x) else convert f x

theorem FloatType.precision_pos (f : FloatType) : 0 < f.precision := by
  cases f <;> decide

theorem convert_fits (f : FloatType) (x : RealValue) : (convert f x).Fits f := by
  cases x with
  | infinite negative => rfl
  | finite z =>
    rw [RealValue.Fits]
    by_cases hlarge : f = .f16 ∧ 65504 < (round f.precision z).natAbs
    · rw [convert, if_pos hlarge]
      rfl
    · rw [convert, if_neg hlarge, convert, round_round f.precision_pos, if_neg hlarge]

theorem toFloat_fits (f : FloatType) (x : RealValue) : (toFloat f x).Fits f := by
  rw [toFloat]
  split
  · next h =>
      rw [h]
      exact convert_fits .f16 _
  · exact convert_fits f x

inductive Scalar where
  | int (t : IntType) (v : Value t)
  | real (f : FloatType) (x : RealValue) (h : x.Fits f)

namespace Scalar

def type : Scalar → DataType
  | int t _ => .int t
  | real f _ _ => .real f

def num : Scalar → RealValue
  | int t v => .finite (number t v)
  | real _ x _ => x

end Scalar

def isNonzero : RealValue → Bool
  | .finite z => z != 0
  | .infinite _ => true

def floatToInt (t : IntType) (x : RealValue) : Option (Value t) :=
  if t = .u1 then some ((BitVec.ofBool (isNonzero x)).setWidth t.bits)
  else
    match x with
    | .finite z => if InRange t z then some (BitVec.ofInt t.bits z) else none
    | .infinite _ => none

def castValue (d : DataType) (s : Scalar) : Option Scalar :=
  match d, s with
  | .int t', .int t v => (runUnary (.castValue t') t v).map (.int t')
  | .int t', .real _ x _ => (floatToInt t' x).map (.int t')
  | .real f', .int t v =>
    some (.real f' (toFloat f' (.finite (number t v))) (toFloat_fits f' _))
  | .real f', .real f x h =>
    if f = f' then some (.real f x h) else some (.real f' (toFloat f' x) (toFloat_fits f' _))

def castBits (d : DataType) (s : Scalar) : Option Scalar :=
  match d, s with
  | .int t', .int t v => (runUnary (.castBits t') t v).map (.int t')
  | _, _ => none

def isRedundantCast (fastMath : Bool) (firstCast secondCast : DataType) : Bool :=
  match firstCast, secondCast with
  | .real _, .real _ => decide (dataTypeBits secondCast ≤ dataTypeBits firstCast)
  | .int _, .real _ => false
  | .int t1, .int t2 =>
    decide (dataTypeBits secondCast ≤ dataTypeBits firstCast) && t2.isSigned == t1.isSigned
  | .real _, .int _ =>
    if dataTypeBits secondCast ≤ dataTypeBits firstCast * 2 then true else fastMath

/-- When `second_cast(a)` is right for `second_cast(first_cast(a))`: a number that is cast to an
integer through a real number is not rounded on the way, one that is cast to `f32` through `f64` is
not rounded twice, one that is cast through an integer is in range of both, and a truth value is not
taken for a number or the other way round. -/
def ChainHolds (firstCast secondCast : DataType) (s : Scalar) : Prop :=
  match firstCast, secondCast, s with
  | .real .f64, .real .f32, s => ∀ z, s.num = .finite z → ¬RoundsTwice 24 53 z.natAbs
  | .real _, .real _, _ => True
  | .int _, .real _, _ => True
  | .real _, .int .u1, _ => True
  | .real f, .int t, s =>
    ∀ r, toFloat f s.num = .finite r → InRange t r → s.num = .finite r
  | .int .u1, .int .u1, _ => True
  | .int .u1, .int _, .int t v => number t v = 0 ∨ number t v % 256 = 1
  | .int .u1, .int _, .real _ x _ => x = .finite 0 ∨ x = .finite 1
  | .int t1, .int .u1, .int t v => (2 : ℤ) ^ t1.bits ∣ number t v → number t v = 0
  | .int _, .int .u1, .real _ _ _ => True
  | .int _, .int _, .int _ _ => True
  | .int t1, .int t2, .real _ x _ => ∀ z, x = .finite z → InRange t1 z → InRange t2 z

end Quadrants.Simplify
