import Mathlib.Data.BitVec
import Quadrants.Simplify.Casts
import Quadrants.Library.SquareMultiply
import Quadrants.Simplify.CastChains

/-!
`AlgSimp`: which statements on integers are replaced, and by what.
-/

namespace Quadrants.Simplify

open Folding Library.BinaryRounding

inductive CastOp where
  | castValue | castBits
  deriving DecidableEq, Repr

/-- A statement with the statements that it uses. The statements that are not looked into have a
number for their kind, their fields and their operands, unless two of them can have different
values. -/
inductive Stmt where
  | const (id : ℕ) (t : IntType) (val : Value t)
  | other (id : ℕ) (t : IntType) (content : Option ℕ)
  | unary (id : ℕ) (op : CastOp) (castType : DataType) (operand : Stmt)
  | binary (id : ℕ) (op : BinaryOp) (lhs rhs : Stmt)
  deriving DecidableEq, Repr

structure Env where
  ofStmt : ℕ → (t : IntType) → Value t
  ofContent : ℕ → (t : IntType) → Value t

def runOp (op : BinaryOp) (x y : Scalar) : Option Scalar :=
  match x, y with
  | .int t a, .int t' b =>
    if op = .pow then (transformPow t t' a b).map (.int t)
    else if h : t' = t then (runBinary op t a (h ▸ b)).map (.int (op.retType t))
    else none
  | _, _ => none

namespace Stmt

def id : Stmt → ℕ
  | const id _ _ | other id _ _ | unary id _ _ _ | binary id _ _ _ => id

def retType : Stmt → DataType
  | const _ t _ | other _ t _ => .int t
  | unary _ _ castType _ => castType
  | binary _ op lhs _ => if op.isComparison then .int .u1 else lhs.retType

def eval (env : Env) : Stmt → Option Scalar
  | const _ t val => some (.int t val)
  | other id t none => some (.int t (env.ofStmt id t))
  | other _ t (some content) => some (.int t (env.ofContent content t))
  | unary _ .castValue castType operand => (operand.eval env).bind (castValue castType)
  | unary _ .castBits castType operand => (operand.eval env).bind (castBits castType)
  | binary _ op lhs rhs => (lhs.eval env).bind fun x => (rhs.eval env).bind (runOp op x)

def parts : Stmt → List Stmt
  | const id t val => [const id t val]
  | other id t content => [other id t content]
  | unary id op castType operand => unary id op castType operand :: operand.parts
  | binary id op lhs rhs => binary id op lhs rhs :: (lhs.parts ++ rhs.parts)

end Stmt

structure NumberedStmt where
  stmt : Stmt
  ids : ∀ a ∈ stmt.parts, ∀ b ∈ stmt.parts, a.id = b.id → a = b

def equalTypeAndValue (t : IntType) (v : Value t) (t' : IntType) (v' : Value t') : Bool :=
  if h : t' = t then v == h ▸ v' else false

def basicCheck : Stmt → Stmt → Bool
  | .const _ t v, .const _ t' v' => equalTypeAndValue t v t' v'
  | .other _ t (some c), .other _ t' (some c') => t == t' && c == c'
  | .unary _ op d a, .unary _ op' d' b => op == op' && d == d' && a.id == b.id
  | .binary i op a b, .binary j op' c d =>
    op == op' && (Stmt.binary i op a b).retType == (Stmt.binary j op' c d).retType &&
      a.id == c.id && b.id == d.id
  | _, _ => false

/-- `same_value`: one statement, or two of one kind with the same fields and the same operands. -/
def sameValue (this other : Stmt) : Bool :=
  this.id == other.id || basicCheck this other

def constantOf (t : IntType) (z : ℤ) : Value t :=
  assign t (z == 0) (BitVec.ofInt t.bits z)

def algIsValue (z : ℤ) : Stmt → Bool
  | .const _ t val => val == constantOf t z
  | _ => false

def algIsZero : Stmt → Bool :=
  algIsValue 0

def algIsOne : Stmt → Bool :=
  algIsValue 1

def algIsTwo : Stmt → Bool :=
  algIsValue 2

def algIsMinusOne : Stmt → Bool :=
  algIsValue (-1)

def isPowerOfTwo (x : BitVec 64) : Bool :=
  x != 0 && (x &&& (x - 1)) == 0

def valAsInt64 (t : IntType) (val : Value t) : BitVec 64 :=
  if t.isSigned then val.signExtend 64 else val.setWidth 64

def algIsPot : Stmt → Bool
  | .const _ t val => isPowerOfTwo (valAsInt64 t val)
  | _ => false

def log2int (value : ℕ) : ℕ :=
  if 1 < value then log2int (value / 2) + 1 else 0
termination_by value
decreasing_by omega

inductive Visited where
  | unchanged
  | replaced (s : Stmt)
  | error (message : String)
  deriving DecidableEq, Repr

def constStmt (next : ℕ) (d : DataType) (z : ℤ) : Option Stmt :=
  match d with
  | .int t => some (.const next t (constantOf t z))
  | .real _ => none

def replaceWith (next : ℕ) (stmt : Stmt) (z : ℤ) : Visited :=
  match constStmt next stmt.retType z with
  | some c => .replaced c
  | none => .unchanged

def castToResultType (next : ℕ) (a stmt : Stmt) : Stmt × ℕ :=
  if stmt.retType ≠ a.retType then (.unary next .castValue stmt.retType a, next + 1) else (a, next)

def getLog2rhs (next : ℕ) (lhs : Stmt) : Stmt → Option Stmt
  | .const _ t val => constStmt next lhs.retType (log2int (valAsInt64 t val).toNat)
  | _ => none

def getExponentValue : Stmt → Option ℤ
  | .const _ t val => some (toDouble (number t val))
  | _ => none

def accumulate (next exp k : ℕ) (aPowerOf2 : Stmt) : Option Stmt → Option Stmt × ℕ
  | none => (if exp.testBit k then some aPowerOf2 else none, next)
  | some result =>
    if exp.testBit k then (some (.binary next .mul result aPowerOf2), next + 1)
    else (some result, next)

def weakenExponent (next exp k : ℕ) (aPowerOf2 : Stmt) (result : Option Stmt) : Option Stmt :=
  let acc := accumulate next exp k aPowerOf2 result
  if exp < 2 ^ (k + 1) then acc.1
  else weakenExponent (acc.2 + 1) exp (k + 1) (.binary acc.2 .mul aPowerOf2 aPowerOf2) acc.1
termination_by exp - 2 ^ k
decreasing_by
  have hlt : 2 ^ k < 2 ^ (k + 1) := Nat.pow_lt_pow_right (by decide) (Nat.lt_succ_self k)
  omega

def maxWeakenExponent : ℤ :=
  32

def exponentNOptimize (next id : ℕ) (lhs rhs : Stmt) : Option Stmt :=
  match getExponentValue rhs with
  | none => none
  | some exponent =>
    if 0 < exponent ∧ exponent ≤ maxWeakenExponent then
      let a := castToResultType next lhs (.binary id .pow lhs rhs)
      weakenExponent a.2 exponent.toNat 0 a.1 none
    else none

def visitPow (next id : ℕ) (lhs rhs : Stmt) : Visited :=
  match getExponentValue rhs with
  | none => .unchanged
  | some exponent =>
    if exponent = 1 then .replaced lhs
    else if exponent = 0 then replaceWith next (.binary id .pow lhs rhs) 1
    else
      match exponentNOptimize next id lhs rhs with
      | some result => .replaced result
      | none =>
        if exponent < 0 ∧ -maxWeakenExponent ≤ exponent ∧ isIntegral lhs.retType = true then
          .error "Negative exponent in pow(int, int) is not allowed."
        else .unchanged

def optimizeMultiplication (fastMath : Bool) (next id : ℕ) (lhs rhs : Stmt) : Visited :=
  let stmt := Stmt.binary id .mul lhs rhs
  if algIsOne lhs || algIsOne rhs then .replaced (if algIsOne lhs then rhs else lhs)
  else if (fastMath || isIntegral stmt.retType) && (algIsZero lhs || algIsZero rhs) then
    replaceWith next stmt 0
  else if isIntegral stmt.retType && (algIsPot lhs || algIsPot rhs) then
    let (lhs, rhs) := if algIsPot lhs then (rhs, lhs) else (lhs, rhs)
    match getLog2rhs next lhs rhs with
    | some newRhs => .replaced (.binary (next + 1) .bitShl lhs newRhs)
    | none => .unchanged
  else if algIsTwo lhs || algIsTwo rhs then
    let a := castToResultType next (if algIsTwo lhs then rhs else lhs) stmt
    .replaced (.binary a.2 .add a.1 a.1)
  else .unchanged

def optimizeDivision (fastMath : Bool) (next id : ℕ) (op : BinaryOp) (lhs rhs : Stmt) : Visited :=
  let stmt := Stmt.binary id op lhs rhs
  if algIsOne rhs && !(!isIntegral lhs.retType && op == .floordiv) then .replaced lhs
  else if (fastMath || isIntegral stmt.retType) && sameValue lhs rhs then replaceWith next stmt 1
  else if isIntegral lhs.retType && lhs.retType.isUnsigned && algIsPot rhs then
    match getLog2rhs next lhs rhs with
    | some newRhs => .replaced (.binary (next + 1) .bitSar lhs newRhs)
    | none => .unchanged
  else .unchanged

def visitBinary (fastMath : Bool) (next id : ℕ) (op : BinaryOp) (lhs rhs : Stmt) : Visited :=
  let stmt := Stmt.binary id op lhs rhs
  match op with
  | .mul => optimizeMultiplication fastMath next id lhs rhs
  | .div | .floordiv => optimizeDivision fastMath next id op lhs rhs
  | .add | .sub | .bitOr | .bitXor =>
    if algIsZero rhs then .replaced lhs
    else if op != .sub && algIsZero lhs then .replaced rhs
    else if op == .bitOr && sameValue lhs rhs then .replaced lhs
    else if (op == .sub || op == .bitXor) && (fastMath || isIntegral stmt.retType) &&
        sameValue lhs rhs then
      replaceWith next stmt 0
    else .unchanged
  | .pow => visitPow next id lhs rhs
  | .bitAnd =>
    if algIsMinusOne rhs then .replaced lhs
    else if algIsMinusOne lhs then .replaced rhs
    else if algIsZero lhs || algIsZero rhs then replaceWith next stmt 0
    else if sameValue lhs rhs then .replaced lhs
    else .unchanged
  | .bitSar | .bitShl | .bitShr =>
    if algIsZero rhs || algIsZero lhs then .replaced lhs else .unchanged
  | .cmpEq | .cmpGe | .cmpLe =>
    if (fastMath || isIntegral lhs.retType) && sameValue lhs rhs then replaceWith next stmt 1
    else .unchanged
  | .cmpNe | .cmpGt | .cmpLt =>
    if (fastMath || isIntegral lhs.retType) && sameValue lhs rhs then replaceWith next stmt 0
    else .unchanged
  | .max | .min | .mod | .logicalAnd | .logicalOr => .unchanged

def visitUnary (fastMath : Bool) (id : ℕ) (op : CastOp) (castType : DataType) (operand : Stmt) :
    Visited :=
  if castType = operand.retType then .replaced operand
  else
    match operand with
    | .unary _ prevOp prevType prevOperand =>
      if op = .castBits ∧ prevOp = .castBits then .replaced (.unary id op castType prevOperand)
      else if op = .castValue ∧ prevOp = .castValue ∧
          isRedundantCast fastMath prevType castType = true then
        .replaced (.unary id op castType prevOperand)
      else .unchanged
    | _ => .unchanged

def visit (fastMath : Bool) (next : ℕ) : Stmt → Visited
  | .unary id op castType operand => visitUnary fastMath id op castType operand
  | .binary id op lhs rhs => visitBinary fastMath next id op lhs rhs
  | .const _ _ _ | .other _ _ _ => .unchanged

/-- If the statement has a value, then what replaces it has the same one. -/
def Preserved (env : Env) (fastMath : Bool) (next : ℕ) (s : Stmt) : Prop :=
  ∀ s', visit fastMath next s = .replaced s' → ∀ v, s.eval env = some v → s'.eval env = some v

/-- A cast that is left out is one that changes nothing for the value of the operand. -/
def CastsHold (env : Env) (fastMath : Bool) : Stmt → Prop
  | .unary _ .castValue castType (.unary _ .castValue prevType operand) =>
    castType ≠ prevType → isRedundantCast fastMath prevType castType = true →
      ∀ x, operand.eval env = some x → ChainHolds prevType castType x
  | _ => True

end Quadrants.Simplify

/-!
The rules of `AlgSimp` on the values of the operands.
-/

namespace Quadrants.Simplify

open Folding Library.BinaryRounding Library.SquareMultiply

variable {t : IntType}

@[simp]
theorem constantOf_zero (t : IntType) : constantOf t 0 = 0 := by
  cases t <;> rfl

@[simp]
theorem constantOf_one (t : IntType) : constantOf t 1 = 1 := by
  cases t <;> rfl

@[simp]
theorem constantOf_neg_one (t : IntType) : constantOf t (-1) = BitVec.allOnes t.bits := by
  cases t <;> rfl

@[simp]
theorem number_one (t : IntType) : number t 1 = 1 := by
  cases t <;> rfl

theorem log2int_eq (n : ℕ) : log2int n = n.log2 := by
  induction n using log2int.induct with
  | case1 n h ih =>
    have htwo : 2 ≤ n := h
    rw [log2int, if_pos h, ih, Nat.log2_def n, if_pos htwo]
  | case2 n h =>
    have htwo : ¬2 ≤ n := h
    rw [log2int, if_neg h, Nat.log2_def n, if_neg htwo]

theorem isPowerOfTwo_iff (x : BitVec 64) : isPowerOfTwo x = true ↔ ∃ k, x.toNat = 2 ^ k := by
  have hsub : x ≠ 0 → (x - 1).toNat = x.toNat - 1 := by
    intro hx
    have hpos : x.toNat ≠ 0 := fun h => hx (BitVec.eq_of_toNat_eq h)
    change (2 ^ 64 - 1 + x.toNat) % 2 ^ 64 = _
    omega
  rw [isPowerOfTwo, Bool.and_eq_true, bne_iff_ne, beq_iff_eq]
  constructor
  · rintro ⟨hx, hand⟩
    have hzero := congrArg BitVec.toNat hand
    rw [BitVec.toNat_and, hsub hx] at hzero
    exact (Nat.and_sub_one_eq_zero_iff_isPowerOfTwo fun h => hx (BitVec.eq_of_toNat_eq h)).1 hzero
  · rintro ⟨k, hk⟩
    have hx : x ≠ 0 := by
      rintro rfl
      exact absurd hk.symm (Nat.two_pow_pos k).ne'
    refine ⟨hx, BitVec.eq_of_toNat_eq ?_⟩
    rw [BitVec.toNat_and, hsub hx]
    exact (Nat.and_sub_one_eq_zero_iff_isPowerOfTwo fun h => hx (BitVec.eq_of_toNat_eq h)).2 ⟨k, hk⟩

theorem toNat_of_isPowerOfTwo {val : Value t} (h : isPowerOfTwo (valAsInt64 t val) = true) :
    val.toNat = (valAsInt64 t val).toNat ∧ ∃ k < t.bits, val.toNat = 2 ^ k := by
  obtain ⟨k, hk⟩ := (isPowerOfTwo_iff _).1 h
  have hbits : t.bits ≤ 64 := by cases t <;> decide
  have hsame : val.toNat = (valAsInt64 t val).toNat := by
    rw [valAsInt64] at hk ⊢
    split
    · next hs =>
        have hext := BitVec.toNat_signExtend val (v := 64)
        rw [BitVec.toNat_setWidth_of_le hbits] at hext
        rw [if_pos hs] at hk
        rcases hbits.eq_or_lt with heq | hnarrow
        · have hzero : 2 ^ 64 - 2 ^ t.bits = 0 := by rw [heq, Nat.sub_self]
          rw [hext, hzero, ite_self, Nat.add_zero]
        · -- a negative number is above the largest power of two
          have hmsb : val.msb = false := by
            by_contra hneg
            rw [Bool.not_eq_false] at hneg
            have hhalf : 2 ^ t.bits ≤ 2 ^ 63 := Nat.pow_le_pow_right (by decide) (by omega)
            have hge : 2 ^ t.bits ≤ 2 * val.toNat := BitVec.msb_eq_true_iff_two_mul_ge.1 hneg
            rw [if_pos hneg, hk] at hext
            rcases Nat.lt_or_ge k 64 with hsmall | hlarge
            · have hle : 2 ^ k ≤ 2 ^ 63 := Nat.pow_le_pow_right (by decide) (by omega)
              omega
            · have hle : 2 ^ 64 ≤ 2 ^ k := Nat.pow_le_pow_right (by decide) hlarge
              omega
          rw [hext, hmsb]
          rfl
    · rw [BitVec.toNat_setWidth_of_le hbits]
  refine ⟨hsame, k, ?_, hsame.trans hk⟩
  have hlt := val.isLt
  rw [hsame, hk] at hlt
  exact (Nat.pow_lt_pow_iff_right (by decide)).1 hlt

theorem runSar_zero (a : Value t) : runSar t a 0 = some a := by
  have hzero : BitVec.toNat (0 : Value t) = 0 := BitVec.toNat_zero
  rw [runSar, hzero, if_pos (bits_pos t)]
  split
  · exact congrArg some BitVec.sshiftRight_zero
  · exact congrArg some (BitVec.ushiftRight_zero a)

variable {a b r x : Value t} {env : Env}

theorem runSar_of_zero (h : runSar t 0 b = some r) : r = 0 := by
  rw [runSar] at h
  split at h
  · cases h
    split
    · exact BitVec.zero_sshiftRight
    · exact BitVec.zero_ushiftRight
  · cases h

theorem runShl_zero (a : Value t) : runBinary .bitShl t a 0 = some a := by
  have hzero : BitVec.toNat (0 : Value t) = 0 := BitVec.toNat_zero
  rw [runBinary, hzero, if_pos (bits_pos t)]
  exact congrArg some (BitVec.shiftLeft_zero a)

theorem runShl_of_zero {r : Value (BinaryOp.retType .bitShl t)}
    (h : runBinary .bitShl t 0 b = some r) : r = (0 : Value t) := by
  rw [runBinary] at h
  split at h
  · cases h
    exact BitVec.zero_shiftLeft b.toNat
  · cases h

theorem demoteBitShr_of_type (a b : Value t) :
    demoteBitShr t a b = if b.toNat < t.bits then some (a >>> b.toNat) else none := by
  have hbits : t.bits = (toUnsigned t).bits := by cases t <;> rfl
  have hunsigned : (toUnsigned t).isSigned = false := by cases t <;> rfl
  exact runSar_casts hbits hunsigned a b

theorem demoteBitShr_zero (a : Value t) : demoteBitShr t a 0 = some a := by
  have hzero : BitVec.toNat (0 : Value t) = 0 := BitVec.toNat_zero
  rw [demoteBitShr_of_type, hzero, if_pos (bits_pos t)]
  exact congrArg some (BitVec.ushiftRight_zero a)

theorem demoteBitShr_of_zero (h : demoteBitShr t 0 b = some r) : r = 0 := by
  rw [demoteBitShr_of_type] at h
  split at h
  · cases h
    exact BitVec.zero_ushiftRight
  · cases h

theorem toNat_constantOf {k : ℕ} (h : k < t.bits) : (constantOf t (k : ℤ)).toNat = k := by
  by_cases ht : t = .u1
  · subst ht
    obtain rfl : k = 0 := Nat.lt_one_iff.1 h
    rfl
  · rw [constantOf, assign, if_neg ht, BitVec.ofInt_natCast, BitVec.toNat_ofNat]
    exact Nat.mod_eq_of_lt (h.trans Nat.lt_two_pow_self)

theorem toNat_log2rhs (h : isPowerOfTwo (valAsInt64 t b) = true) : ∃ k < t.bits, b.toNat = 2 ^ k ∧
      (constantOf t (log2int (valAsInt64 t b).toNat : ℕ)).toNat = k := by
  obtain ⟨hsame, k, hk, hval⟩ := toNat_of_isPowerOfTwo h
  refine ⟨k, hk, hval, ?_⟩
  rw [← hsame, hval, log2int_eq, Nat.log2_two_pow, toNat_constantOf hk]

theorem shl_log2rhs (h : isPowerOfTwo (valAsInt64 t b) = true) :
    runBinary .bitShl t a (constantOf t (log2int (valAsInt64 t b).toNat : ℕ)) = some (a * b) := by
  obtain ⟨k, hk, hval, hlog⟩ := toNat_log2rhs h
  rw [runBinary, hlog, if_pos hk]
  apply congrArg some
  apply BitVec.eq_of_toNat_eq
  rw [BitVec.toNat_shiftLeft, BitVec.toNat_mul, hval, Nat.shiftLeft_eq]

theorem sar_log2rhs (hu : t.isSigned = false) (h : isPowerOfTwo (valAsInt64 t b) = true) :
    runSar t a (constantOf t (log2int (valAsInt64 t b).toNat : ℕ)) = some (a / b) := by
  obtain ⟨k, hk, hval, hlog⟩ := toNat_log2rhs h
  rw [runSar, hlog, if_pos hk, hu]
  apply congrArg some
  apply BitVec.eq_of_toNat_eq
  rw [BitVec.toNat_udiv, hval, ← Nat.shiftRight_eq_div_pow]
  exact BitVec.toNat_ushiftRight a k

theorem isOverflow_self (x : ℤ) : ¬IsOverflow t x x := by
  rintro ⟨hmin, hone⟩
  have hne : t.minValue ≠ -1 := by cases t <;> decide
  exact hne (hmin.symm.trans hone)

theorem runDiv_one (a : Value t) : runDiv t a 1 = some a := by
  rw [runDiv_eq, number_one, if_neg, Int.tdiv_one, ofInt_number]
  rintro (h | ⟨-, -, h⟩) <;> omega

theorem number_ne_zero_of_runDiv (h : runDiv t a b = some r) : number t b ≠ 0 := by
  intro hb
  rw [runDiv_eq, if_pos (.inl hb)] at h
  cases h

theorem runDiv_self (h : runDiv t a a = some r) : r = 1 := by
  have hne := number_ne_zero_of_runDiv h
  rw [runDiv_eq, if_neg (by
    rintro (hzero | ⟨-, hover⟩)
    · exact hne hzero
    · exact isOverflow_self _ hover), Int.tdiv_self hne, Option.some.injEq] at h
  rw [← h, ← number_one t, ofInt_number]

theorem floordiv_one (a : Value t) : demoteIfloordiv t a 1 = some a := by
  rw [demoteIfloordiv_eq, number_one, Int.fdiv_one, ofInt_number]
  · rw [number_one]
    exact one_ne_zero
  · rintro - ⟨-, h⟩
    rw [number_one] at h
    omega

theorem floordiv_self (h : demoteIfloordiv t a a = some r) : r = 1 := by
  obtain ⟨ret, hret, -⟩ := Option.map_eq_some_iff.1 h
  have hne := number_ne_zero_of_runDiv hret
  rw [demoteIfloordiv_eq hne fun _ => isOverflow_self _, Int.fdiv_self hne, Option.some.injEq] at h
  rw [← h, ← number_one t, ofInt_number]

theorem runDiv_of_unsigned (hu : t.isSigned = false) (h : runDiv t a b = some r) : r = a / b := by
  rw [runDiv, if_neg (by rw [hu]; decide)] at h
  split at h
  · cases h
  · exact (Option.some.inj h).symm

theorem toDouble_eq_iff {z e : ℤ} (he : e.natAbs < 2 ^ 53) : toDouble z = e ↔ z = e := by
  constructor
  · intro h
    rcases Nat.lt_or_ge z.natAbs (2 ^ 53) with hsmall | hlarge
    · exact (round_of_natAbs_lt (by decide) hsmall).symm.trans h
    · have hround : 2 ^ 53 ≤ (toDouble z).natAbs := by
        rw [toDouble, natAbs_round]
        exact two_pow_le_roundNat (by decide) hlarge
      omega
  · rintro rfl
    exact round_of_natAbs_lt (by decide) he

theorem transformPow_eq_some {t' : IntType} {b : Value t'}
    (h : transformPow t t' a b = some r) (hb : 0 ≤ number t' b) :
    r = BitVec.ofInt t.bits (a.toInt ^ (number t' b).toNat) := by
  obtain ⟨c, hc, -⟩ := Option.map_eq_some_iff.1 h
  have ht' : t' = .i32 ∨ t' = .i64 := by
    by_contra hne
    rw [runAbs, if_neg hne] at hc
    cases hc
  have hsigned : t'.isSigned = true := by rcases ht' with rfl | rfl <;> rfl
  rw [number_signed hsigned] at hb ⊢
  rw [transformPow_eq ht' a hb] at h
  exact (Option.some.inj h).symm

section Chain

variable {α : Type} [Mul α] {holds : Stmt → α → Prop} {x : α}

/-- The statement has the product as its value, or there is none yet. -/
def ProductSoFar (holds : Stmt → α → Prop) : Option Stmt → Option α → Prop
  | none, none => True
  | some s, some y => holds s y
  | _, _ => False

variable (hmul : ∀ next l r y z, holds l y → holds r z → holds (.binary next .mul l r) (y * z))

include hmul

variable {aPowerOf2 : Stmt} {exp k next : ℕ} {result : Option Stmt}

theorem accumulate_product
    (ha : holds aPowerOf2 (square x k)) (h : ProductSoFar holds result (digitProduct x exp k)) :
    ProductSoFar holds (accumulate next exp k aPowerOf2 result).1 (digitProduct x exp (k + 1)) := by
  rw [digitProduct]
  cases hbit : exp.testBit k with
  | false =>
    cases result with
    | none =>
      simp only [accumulate, hbit, Bool.false_eq_true, if_false]
      exact h
    | some r =>
      simp only [accumulate, hbit, Bool.false_eq_true, if_false]
      exact h
  | true =>
    cases hy : digitProduct x exp k with
    | none =>
      rw [hy] at h
      cases result with
      | none =>
        simp only [accumulate, hbit, if_true]
        exact ha
      | some r => exact absurd h id
    | some y =>
      rw [hy] at h
      cases result with
      | none => exact absurd h id
      | some r =>
        simp only [accumulate, hbit, if_true]
        exact hmul next r aPowerOf2 y _ h ha

theorem weakenExponent_product
    (ha : holds aPowerOf2 (square x k)) (h : ProductSoFar holds result (digitProduct x exp k)) :
    ProductSoFar holds (weakenExponent next exp k aPowerOf2 result) (digitProduct x exp exp) := by
  induction next, k, aPowerOf2, result using weakenExponent.induct exp with
  | case1 next k aPowerOf2 result hlt =>
    rw [weakenExponent, digitProduct_eq Nat.lt_two_pow_self hlt]
    simp only [if_pos hlt]
    exact accumulate_product hmul ha h
  | case2 next k aPowerOf2 result acc hge ih =>
    rw [weakenExponent]
    simp only [if_neg hge]
    exact ih (hmul _ _ _ _ _ ha ha) (accumulate_product hmul ha h)

theorem weakenExponent_value {a : Stmt} (hexp : 0 < exp) (ha : holds a x) :
    ∃ s y, weakenExponent next exp 0 a none = some s ∧ digitProduct x exp exp = some y ∧
      holds s y := by
  have hproduct : ProductSoFar holds (weakenExponent next exp 0 a none) (digitProduct x exp exp) :=
    weakenExponent_product hmul ha trivial
  obtain ⟨y, hy⟩ : ∃ y, digitProduct x exp exp = some y :=
    Option.isSome_iff_exists.1 (digitProduct_isSome hexp Nat.lt_two_pow_self)
  rw [hy] at hproduct
  cases hs : weakenExponent next exp 0 a none with
  | none =>
    rw [hs] at hproduct
    exact absurd hproduct id
  | some s =>
    rw [hs] at hproduct
    exact ⟨s, y, rfl, hy, hproduct⟩

end Chain

theorem ofInt_pow (w : ℕ) (z : ℤ) (n : ℕ) : BitVec.ofInt w z ^ n = BitVec.ofInt w (z ^ n) := by
  induction n with
  | zero =>
    rw [pow_zero, pow_zero]
    exact (BitVec.ofInt_natCast w 1).symm
  | succ n ih => rw [BitVec.pow_succ, ih, ← BitVec.ofInt_mul, pow_succ]

def HasValue (env : Env) (t : IntType) (s : Stmt) (v : Value t) : Prop :=
  s.eval env = some (.int t v)

theorem HasValue.mul {a b : Stmt} {y : Value t} (next : ℕ) (ha : HasValue env t a x)
    (hb : HasValue env t b y) : HasValue env t (.binary next .mul a b) (x * y) := by
  rw [HasValue, Stmt.eval, ha, hb, Option.bind_some, Option.bind_some, runOp, if_neg (by decide),
    dif_pos rfl]
  rfl

theorem weakenExponent_power {a : Stmt} {next exp : ℕ} (hexp : 0 < exp)
    (ha : a.eval env = some (.int t x)) : ∃ s, weakenExponent next exp 0 a none = some s ∧
      s.eval env = some (.int t (BitVec.ofInt t.bits (x.toInt ^ exp))) := by
  have hchain : ∃ s y, weakenExponent next exp 0 a none = some s ∧
      digitProduct x exp exp = some y ∧ HasValue env t s y :=
    weakenExponent_value (fun next _ _ _ _ hl hr => HasValue.mul next hl hr) hexp ha
  obtain ⟨s, y, hs, hy, hvalue⟩ := hchain
  refine ⟨s, hs, ?_⟩
  have hpow := binaryPower_eq_pow x exp
  rw [binaryPower, hy, Option.getD_some] at hpow
  rw [hvalue.trans rfl, hpow, ← ofInt_pow, BitVec.ofInt_toInt]

end Quadrants.Simplify
