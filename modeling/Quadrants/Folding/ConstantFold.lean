import Quadrants.Library.BinaryRounding

/-!
`ConstantFold` on integers: what is computed on the host for operands that are constants.
-/

namespace Quadrants.Folding

open Library

inductive IntType where
  | i8 | i16 | i32 | i64 | u1 | u8 | u16 | u32 | u64
  deriving DecidableEq, Repr

namespace IntType

def bits : IntType → ℕ
  | u1 => 1
  | i8 | u8 => 8
  | i16 | u16 => 16
  | i32 | u32 => 32
  | i64 | u64 => 64

def isSigned : IntType → Bool
  | i8 | i16 | i32 | i64 => true
  | u1 | u8 | u16 | u32 | u64 => false

def minValue (t : IntType) : ℤ :=
  if t.isSigned then -2 ^ (t.bits - 1) else 0

def maxValue (t : IntType) : ℤ :=
  if t.isSigned then 2 ^ (t.bits - 1) - 1 else 2 ^ t.bits - 1

def isGood : IntType → Bool
  | i32 | i64 | u1 | u32 | u64 => true
  | i8 | i16 | u8 | u16 => false

end IntType

abbrev Value (t : IntType) := BitVec t.bits

def number (t : IntType) (a : Value t) : ℤ :=
  if t.isSigned then a.toInt else a.toNat

inductive HostValue where
  | int32 (v : BitVec 32)
  | int64 (v : BitVec 64)
  | uint64 (v : BitVec 64)
  | bool (v : Bool)
  | float64 (v : ℤ)
  deriving DecidableEq, Repr

/-- A division by zero or of the least number by minus one stops the process. A shift by too much
and a conversion out of range are undefined. -/
inductive HostResult where
  | trap
  | undefined
  | value (v : HostValue)
  deriving DecidableEq, Repr

/-- `get_scalar_value_to_replace`: no constant, a failed assertion or an error, or the new constant,
if it can be computed. -/
inductive Outcome (dst : IntType) where
  | kept
  | error
  | trap
  | undefined
  | installed (c : Value dst)
  deriving DecidableEq, Repr

def assign (dst : IntType) (isZero : Bool) (low : Value dst) : Value dst :=
  if dst = .u1 then (BitVec.ofBool (!isZero)).setWidth dst.bits else low

def typedConstant (dst : IntType) : HostValue → Outcome dst
  | .int32 v => .installed (assign dst (v == 0) (v.signExtend dst.bits))
  | .int64 v => .installed (assign dst (v == 0) (v.signExtend dst.bits))
  | .uint64 v => .installed (assign dst (v == 0) (v.setWidth dst.bits))
  | .bool v => .installed ((BitVec.ofBool v).setWidth dst.bits)
  | .float64 x =>
    if dst = .u1 ∨ dst.minValue ≤ x ∧ x ≤ dst.maxValue then
      .installed (assign dst (x == 0) (BitVec.ofInt dst.bits x))
    else .undefined

def HostResult.install (dst : IntType) : HostResult → Outcome dst
  | trap => .trap
  | undefined => .undefined
  | value v => typedConstant dst v

inductive BinaryOp where
  | mul | add | sub | floordiv | div
  | cmpLt | cmpLe | cmpGt | cmpGe | cmpEq | cmpNe
  | max | min | pow
  | mod | bitAnd | bitOr | bitXor | bitShl | bitShr | bitSar
  | logicalAnd | logicalOr
  deriving DecidableEq, Repr

namespace BinaryOp

def isComparison : BinaryOp → Bool
  | cmpLt | cmpLe | cmpGt | cmpGe | cmpEq | cmpNe => true
  | _ => false

def isIntegral : BinaryOp → Bool
  | mod | bitAnd | bitOr | bitXor | bitShl | bitShr | bitSar => true
  | _ => false

def retType (op : BinaryOp) (t : IntType) : IntType :=
  if op.isComparison then .u1 else t

end BinaryOp

def toDouble (z : ℤ) : ℤ :=
  BinaryRounding.round 53 z

def hostPow (x y : ℤ) : ℤ :=
  toDouble (toDouble x ^ (toDouble y).toNat)

def hostSigned {w : ℕ} (int : BitVec w → HostValue) (l r : BitVec w) : BinaryOp → HostResult
  | .mul => .value (int (l * r))
  | .add => .value (int (l + r))
  | .sub => .value (int (l - r))
  | .floordiv =>
    if r = 0 ∨ l = BitVec.intMin w ∧ r = -1 then .trap
    else .value (.float64 (toDouble (l.sdiv r).toInt))
  | .div => if r = 0 ∨ l = BitVec.intMin w ∧ r = -1 then .trap else .value (int (l.sdiv r))
  | .cmpLt => .value (.bool (l.slt r))
  | .cmpLe => .value (.bool (l.sle r))
  | .cmpGt => .value (.bool (r.slt l))
  | .cmpGe => .value (.bool (r.sle l))
  | .cmpEq => .value (.bool (l == r))
  | .cmpNe => .value (.bool (l != r))
  | .max => .value (int (if l.slt r then r else l))
  | .min => .value (int (if r.slt l then r else l))
  | .pow => .value (.float64 (hostPow l.toInt r.toInt))
  | .mod => if r = 0 ∨ l = BitVec.intMin w ∧ r = -1 then .trap else .value (int (l.srem r))
  | .bitAnd => .value (int (l &&& r))
  | .bitOr => .value (int (l ||| r))
  | .bitXor => .value (int (l ^^^ r))
  | .bitShl => if r.toNat < w then .value (int (l <<< r.toNat)) else .undefined
  | .bitShr =>
    if (r.setWidth 32).toNat < w then .value (int (l >>> (r.setWidth 32).toNat)) else .undefined
  | .bitSar =>
    if (r.setWidth 32).toNat < w then
      .value (int (if l.slt 0 then ~~~((~~~l).sshiftRight (r.setWidth 32).toNat)
        else l.sshiftRight (r.setWidth 32).toNat))
    else .undefined
  | .logicalAnd | .logicalOr => .undefined

def hostUnsigned (l r : BitVec 64) : BinaryOp → HostResult
  | .mul => .value (.uint64 (l * r))
  | .add => .value (.uint64 (l + r))
  | .sub => .value (.uint64 (l - r))
  | .floordiv => if r = 0 then .trap else .value (.float64 (toDouble (l / r).toNat))
  | .div => if r = 0 then .trap else .value (.uint64 (l / r))
  | .cmpLt => .value (.bool (l.ult r))
  | .cmpLe => .value (.bool (l.ule r))
  | .cmpGt => .value (.bool (r.ult l))
  | .cmpGe => .value (.bool (r.ule l))
  | .cmpEq => .value (.bool (l == r))
  | .cmpNe => .value (.bool (l != r))
  | .max => .value (.uint64 (if l.ult r then r else l))
  | .min => .value (.uint64 (if r.ult l then r else l))
  | .pow => .value (.float64 (hostPow l.toNat r.toNat))
  | .mod => if r = 0 then .trap else .value (.uint64 (l % r))
  | .bitAnd => .value (.uint64 (l &&& r))
  | .bitOr => .value (.uint64 (l ||| r))
  | .bitXor => .value (.uint64 (l ^^^ r))
  | .bitShl => if r.toNat < 64 then .value (.uint64 (l <<< r.toNat)) else .undefined
  | .bitShr | .bitSar =>
    if (r.setWidth 32).toNat < 64 then .value (.uint64 (l >>> (r.setWidth 32).toNat))
    else .undefined
  | .logicalAnd | .logicalOr => .undefined

def valInt (t : IntType) (a : Value t) : Option (BitVec 64) :=
  if t.isSigned then some (a.signExtend 64) else none

def valUint (t : IntType) (a : Value t) : Option (BitVec 64) :=
  if t.isSigned then none else some (a.setWidth 64)

def valInt32 (t : IntType) (a : Value t) : Option (BitVec 32) :=
  if t = .i32 then some (a.setWidth 32) else none

def valUint1 (t : IntType) (a : Value t) : Option (BitVec 32) :=
  if t = .u1 then some (a.setWidth 32) else none

def onHost {α : Type} (dst : IntType) (l r : Option α) (f : α → α → HostResult) : Outcome dst :=
  match l, r with
  | some l, some r => (f l r).install dst
  | _, _ => .error

def foldBinary (op : BinaryOp) (t t' : IntType) (a : Value t) (b : Value t') :
    Outcome (op.retType t) :=
  if op = .pow ∧ (t'.isSigned = false ∨ b.toInt < 0) then .error
  else if op = .logicalAnd ∨ op = .logicalOr then .kept
  else if op.isIntegral then
    if t = .i32 then
      onHost _ (valInt32 t a) (valInt32 t' b) fun l r => hostSigned .int32 l r op
    else if t = .i64 then onHost _ (valInt t a) (valInt t' b) fun l r => hostSigned .int64 l r op
    else if t = .u32 ∨ t = .u64 then
      onHost _ (valUint t a) (valUint t' b) fun l r => hostUnsigned l r op
    else .kept
  else if t = .i32 ∨ t = .i64 then
    onHost _ (valInt t a) (valInt t' b) fun l r => hostSigned .int64 l r op
  else if t = .u32 ∨ t = .u64 then
    onHost _ (valUint t a) (valUint t' b) fun l r => hostUnsigned l r op
  else if t = .u1 then
    onHost _ (valUint1 t a) (valUint1 t' b) fun l r => hostSigned .int32 l r op
  else .kept

inductive UnaryOp where
  | neg | abs | bitNot | logicNot | sgn | popcnt | clz | ffs
  | castValue (dst : IntType)
  | castBits (dst : IntType)
  deriving DecidableEq, Repr

def UnaryOp.retType (t : IntType) : UnaryOp → IntType
  | neg | abs | bitNot | sgn => t
  | logicNot => .u1
  | popcnt | clz | ffs => .i32
  | castValue dst | castBits dst => dst

def hostUnary (t : IntType) (a : Value t) : UnaryOp → Option HostValue
  | .neg =>
    if t = .u1 then none
    else if t.isSigned then some (.int64 (-a.signExtend 64)) else some (.uint64 (-a.setWidth 64))
  | .abs => if t = .u1 then none else some (.float64 |toDouble (number t a)|)
  | .bitNot =>
    if t = .u1 then some (.bool (a == 0))
    else if t.isSigned then some (.int64 (~~~a.signExtend 64))
    else some (.uint64 (~~~a.setWidth 64))
  | .logicNot => some (.bool (a == 0))
  | .castValue _ =>
    if t = .u1 then some (.bool (a != 0))
    else if t.isSigned then some (.int64 (a.signExtend 64)) else some (.uint64 (a.setWidth 64))
  | .sgn | .popcnt | .clz | .ffs | .castBits _ => none

/-- `visit(UnaryOpStmt)`: a cast to the type of the operand is the operand, and a cast of the bits
copies the eight bytes of the constant. -/
def foldUnary (op : UnaryOp) (t : IntType) (a : Value t) : Outcome (op.retType t) :=
  match op with
  | .castBits _ => .installed (a.setWidth _)
  | op =>
    if op = .castValue t then .installed (a.setWidth _)
    else if t.isGood = false then .kept
    else
      match hostUnary t a op with
      | none => .kept
      | some v => typedConstant _ v

end Quadrants.Folding

/-!
What the code generated for the same operations computes, after `demote_operations`.
-/

namespace Quadrants.Folding

def runDiv (t : IntType) (a b : Value t) : Option (Value t) :=
  if t.isSigned then
    if b = 0 ∨ a = BitVec.intMin t.bits ∧ b = -1 then none else some (a.sdiv b)
  else if b = 0 then none
  else some (a / b)

def runMod (t : IntType) (a b : Value t) : Option (Value t) :=
  if b = 0 ∨ a = BitVec.intMin t.bits ∧ b = -1 then none else some (a.srem b)

def runSar (t : IntType) (a b : Value t) : Option (Value t) :=
  if b.toNat < t.bits then
    some (if t.isSigned then a.sshiftRight b.toNat else a >>> b.toNat)
  else none

def less (t : IntType) (a b : Value t) : Bool :=
  if t.isSigned then a.slt b else a.ult b

def hasMinMax : IntType → Bool
  | .u16 | .i16 | .u32 | .i32 | .u64 | .i64 => true
  | .i8 | .u1 | .u8 => false

def promotedWithI32 : IntType → IntType
  | .i64 => .i64
  | .u32 => .u32
  | .u64 => .u64
  | .i8 | .i16 | .i32 | .u1 | .u8 | .u16 => .i32

def intCast (t dst : IntType) (a : Value t) : Value dst :=
  if t.isSigned then a.signExtend dst.bits else a.setWidth dst.bits

def isNegative (t : IntType) (a : Value t) : Bool :=
  less (promotedWithI32 t) (intCast t _ a) 0

def demoteIfloordiv (t : IntType) (a b : Value t) : Option (Value t) :=
  (runDiv t a b).map fun ret =>
    let cond1 := isNegative t a != isNegative t b
    let cond2 := intCast t (promotedWithI32 t) a != 0
    let cond3 := b * ret != a
    ret - intCast .u1 t (BitVec.ofBool (cond1 && cond2 && cond3))

def toUnsigned : IntType → IntType
  | .i8 => .u8
  | .i16 => .u16
  | .i32 => .u32
  | .i64 => .u64
  | t => t

def demoteBitShr (t : IntType) (a b : Value t) : Option (Value t) :=
  (runSar (toUnsigned t) (a.setWidth _) (b.setWidth _)).map (·.setWidth t.bits)

def runAbs (t : IntType) (a : Value t) : Option (Value t) :=
  if t = .i32 ∨ t = .i64 then
    if a = BitVec.intMin t.bits then none else some (if a.slt 0 then -a else a)
  else none

def powLoop {w w' : ℕ} (a result : BitVec w) (b : BitVec w') : BitVec w :=
  if 0 < b.toInt then
    powLoop (a * a) (if b &&& 1 != 0 then result * a else result) (b.sshiftRight 1)
  else result
termination_by b.toInt.toNat
decreasing_by
  rw [BitVec.toInt_sshiftRight, Int.shiftRight_eq_div_pow]
  omega

def transformPow (t t' : IntType) (a : Value t) (b : Value t') : Option (Value t) :=
  (runAbs t' b).map fun b => powLoop a 1 b

def runBinary (op : BinaryOp) (t : IntType) (a b : Value t) : Option (Value (op.retType t)) :=
  match op with
  | .mul => some (a * b)
  | .add => some (a + b)
  | .sub => some (a - b)
  | .floordiv => demoteIfloordiv t a b
  | .div => runDiv t a b
  | .cmpLt => some (BitVec.ofBool (less t a b))
  | .cmpLe => some (BitVec.ofBool (!less t b a))
  | .cmpGt => some (BitVec.ofBool (less t b a))
  | .cmpGe => some (BitVec.ofBool (!less t a b))
  | .cmpEq => some (BitVec.ofBool (a == b))
  | .cmpNe => some (BitVec.ofBool (a != b))
  | .max => if hasMinMax t then some (if less t b a then a else b) else none
  | .min => if hasMinMax t then some (if less t a b then a else b) else none
  | .pow => transformPow t t a b
  | .mod => runMod t a b
  | .bitAnd => some (a &&& b)
  | .bitOr => some (a ||| b)
  | .bitXor => some (a ^^^ b)
  | .bitShl => if b.toNat < t.bits then some (a <<< b.toNat) else none
  | .bitShr => demoteBitShr t a b
  | .bitSar => runSar t a b
  | .logicalAnd => some (intCast .u1 t (BitVec.ofBool (a != 0 && b != 0)))
  | .logicalOr => some (intCast .u1 t (BitVec.ofBool (a != 0 || b != 0)))

def countOnes {w : ℕ} (a : BitVec w) : ℕ :=
  ((List.range w).filter a.getLsbD).length

def runUnary (op : UnaryOp) (t : IntType) (a : Value t) : Option (Value (op.retType t)) :=
  match op with
  | .neg => some (-a)
  | .abs => runAbs t a
  | .bitNot => some (~~~a)
  | .logicNot => some (BitVec.ofBool (a == 0))
  | .sgn =>
    if t = .i32 ∨ t = .i64 then some (if a.slt 0 then -1 else if a = 0 then 0 else 1) else none
  | .popcnt => some (BitVec.ofNat _ (countOnes a))
  | .clz => some (a.clz.setWidth _)
  | .ffs => some (if a = 0 then 0 else a.ctz.setWidth _ + 1)
  | .castValue dst =>
    some (if t = dst then a.setWidth dst.bits
      else if dst = .u1 then (BitVec.ofBool (a != 0)).setWidth dst.bits
      else intCast t dst a)
  | .castBits dst => if t.bits = dst.bits then some (a.setWidth _) else none

/-- The constant is the value that the generated code computes, if that has one. -/
def Agrees {dst : IntType} (run : Option (Value dst)) : Outcome dst → Prop
  | .kept | .error => True
  | .trap => False
  | .undefined => run = none
  | .installed c => ∀ v, run = some v → c = v

instance {dst : IntType} (run : Option (Value dst)) : (o : Outcome dst) → Decidable (Agrees run o)
  | .kept => .isTrue trivial
  | .error => .isTrue trivial
  | .trap => .isFalse id
  | .undefined => inferInstanceAs (Decidable (run = none))
  | .installed c =>
    match run with
    | none => .isTrue fun _ h => (nomatch h)
    | some v => decidable_of_iff (c = v) ⟨fun h _ hv => Option.some.inj hv ▸ h, fun h => h v rfl⟩

end Quadrants.Folding
