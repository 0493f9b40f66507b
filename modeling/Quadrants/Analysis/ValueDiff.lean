import Mathlib.Algebra.Group.Int.Defs
import Mathlib.Algebra.Group.Nat.Defs
import Mathlib.Data.List.Forall2
import Mathlib.Tactic.Common

namespace Quadrants.Analysis

/-- Machine integers, by width and signedness; the analyses look no further into other types. -/
inductive DataType where
  | int (bits : ℕ) (signed : Bool)
  | other (code : ℕ)
  deriving DecidableEq, Repr

namespace DataType

def i32 : DataType := .int 32 true

def isInt : DataType → Bool
  | int _ _ => true
  | other _ => false

def wrap : DataType → ℤ → ℤ
  | int bits true, x => x.bmod (2 ^ bits)
  | int bits false, x => x % 2 ^ bits
  | other _, x => x

end DataType

inductive BinaryOpType where
  | add
  | sub
  | bitXor
  | other (code : ℕ)
  deriving DecidableEq, Repr

inductive UnaryOpType where
  | neg
  | other (code : ℕ)
  deriving DecidableEq, Repr

inductive Loop where
  | offloaded
  | inner (id : ℕ)
  deriving DecidableEq, Repr

/-- A statement that an index or an offset reads. `id` tells two statements with the same
contents apart, so that equality is the equality of `Stmt *`. A statement the analyses do not
look into keeps its class and fields as `kind`, the ids of its operands and its
`common_statement_eliminable()`. -/
inductive Val where
  | const (id : ℕ) (dt : DataType) (val : ℤ)
  | binary (id : ℕ) (dt : DataType) (op : BinaryOpType) (lhs rhs : Val)
  | unary (id : ℕ) (dt : DataType) (op : UnaryOpType) (operand : Val)
  | loopIndex (id : ℕ) (loop : Loop) (index : ℕ)
  | loopUnique (id : ℕ) (dt : DataType) (input : Val) (covers : List ℕ)
  | rangeAssumption (id : ℕ) (dt : DataType) (input base : Val) (low high : ℤ)
  | shapeAlongAxis (id axis : ℕ) (argId : List ℕ)
  | meshIndexConversion (id mesh idxType convType : ℕ) (idx : Val)
  | other (id : ℕ) (dt : DataType) (kind : ℕ) (operands : List ℕ) (eliminable : Bool)
  deriving DecidableEq, Repr

def int32 (x : ℤ) : ℤ := x.bmod (2 ^ 32)

namespace Val

def retType : Val → DataType
  | const _ dt _ | binary _ dt _ _ _ | unary _ dt _ _ | loopUnique _ dt _ _
  | rangeAssumption _ dt _ _ _ _ | other _ dt _ _ _ => dt
  | loopIndex _ _ _ | shapeAlongAxis _ _ _ | meshIndexConversion _ _ _ _ _ => .i32

/-- What `type_check` leaves behind: the operands of a negation, an addition, a subtraction or
a bitwise operation are cast to the type of its result. -/
def WellTyped : Val → Prop
  | const _ dt val => dt.wrap val = val
  | binary _ dt op lhs rhs =>
    lhs.WellTyped ∧ rhs.WellTyped ∧
      (op = .add ∨ op = .sub ∨ op = .bitXor → lhs.retType = dt ∧ rhs.retType = dt)
  | unary _ dt op operand => operand.WellTyped ∧ (op = .neg → operand.retType = dt)
  | loopUnique _ dt input _ => input.WellTyped ∧ input.retType = dt ∧ dt.isInt
  | rangeAssumption _ dt input _ _ _ => input.WellTyped ∧ input.retType = dt
  | meshIndexConversion _ _ _ _ idx => idx.WellTyped
  | loopIndex .. | shapeAlongAxis .. | other .. => True

def findDirectValueBaseAndOffset : Val → Option (Option Val × ℤ)
  | const _ dt val => if dt = .i32 then some (none, val) else none
  | binary _ _ op lhs rhs =>
    match rhs with
    | const _ dt val =>
      if dt = .i32 then
        match op with
        | .add => some (some lhs, val)
        | .sub => some (some lhs, int32 (-val))
        | _ => none
      else none
    | _ => none
  | _ => none

end Val

structure DiffPtrResult where
  isDiffCertain : Bool
  diffRange : ℤ
  deriving DecidableEq, Repr

namespace DiffPtrResult

def makeCertain (diff : ℤ) : DiffPtrResult := ⟨true, diff⟩

def makeUncertain : DiffPtrResult := ⟨false, 0⟩

end DiffPtrResult

def valueDiffPtrIndex (val1 val2 : Val) : DiffPtrResult :=
  if val1 = val2 then .makeCertain 0
  else
    match val1.findDirectValueBaseAndOffset, val2.findDirectValueBaseAndOffset with
    | some (base1, offset1), some (base2, offset2) =>
      if base1 = base2 then .makeCertain (int32 (offset1 - offset2)) else .makeUncertain
    | _, _ => .makeUncertain

/-- `same_statements` without an id map: the same class and fields, and the same statements as
operands. -/
def sameStatements : Val → Val → Bool
  | .const _ dt1 val1, .const _ dt2 val2 => dt1 == dt2 && val1 == val2
  | .binary _ dt1 op1 lhs1 rhs1, .binary _ dt2 op2 lhs2 rhs2 =>
    dt1 == dt2 && op1 == op2 && lhs1 == lhs2 && rhs1 == rhs2
  | .unary _ dt1 op1 operand1, .unary _ dt2 op2 operand2 =>
    dt1 == dt2 && op1 == op2 && operand1 == operand2
  | .loopIndex _ loop1 index1, .loopIndex _ loop2 index2 => loop1 == loop2 && index1 == index2
  | .loopUnique _ dt1 input1 covers1, .loopUnique _ dt2 input2 covers2 =>
    dt1 == dt2 && covers1 == covers2 && input1 == input2
  | .rangeAssumption _ dt1 input1 base1 low1 high1, .rangeAssumption _ dt2 input2 base2 low2 high2 =>
    dt1 == dt2 && low1 == low2 && high1 == high2 && input1 == input2 && base1 == base2
  | .shapeAlongAxis _ axis1 argId1, .shapeAlongAxis _ axis2 argId2 =>
    axis1 == axis2 && argId1 == argId2
  | .meshIndexConversion _ mesh1 idxType1 convType1 idx1,
    .meshIndexConversion _ mesh2 idxType2 convType2 idx2 =>
      mesh1 == mesh2 && idxType1 == idxType2 && convType1 == convType2 && idx1 == idx2
  | .other _ dt1 kind1 operands1 eliminable1, .other _ dt2 kind2 operands2 eliminable2 =>
    dt1 == dt2 && kind1 == kind2 && eliminable1 == eliminable2 && operands1 == operands2
  | _, _ => false

/-- `same_value` without an id map. It skips the fields that do not matter for the value, and
two statements of a class whose identical statements may differ are not the same. -/
def sameValue (val1 val2 : Val) : Bool :=
  val1 == val2 ||
    match val1, val2 with
    | .loopUnique _ _ input1 _, .loopUnique _ _ input2 _ => input1 == input2
    | .rangeAssumption _ _ input1 _ _ _, .rangeAssumption _ _ input2 _ _ _ => input1 == input2
    | .other _ _ _ _ false, _ => false
    | _, _ => sameStatements val1 val2

/-- 32-bit and other machine arithmetic; `otherOp` is the meaning of the remaining operators. -/
def evalBinary (otherOp : DataType → BinaryOpType → ℤ → ℤ → ℤ) (dt : DataType)
    (op : BinaryOpType) (x y : ℤ) : ℤ :=
  match dt, op with
  | .int _ _, .add => dt.wrap (x + y)
  | .int _ _, .sub => dt.wrap (x - y)
  | .int bits _, .bitXor => dt.wrap (BitVec.ofInt bits x ^^^ BitVec.ofInt bits y).toNat
  | _, _ => otherOp dt op x y

def evalUnary (otherOp : DataType → UnaryOpType → ℤ → ℤ) (dt : DataType) (op : UnaryOpType)
    (x : ℤ) : ℤ :=
  match dt, op with
  | .int _ _, .neg => dt.wrap (-x)
  | _, _ => otherOp dt op x

structure Valuation where
  value : Val → ℤ
  binaryOp : DataType → BinaryOpType → ℤ → ℤ → ℤ
  unaryOp : DataType → UnaryOpType → ℤ → ℤ
  value_wrap : ∀ val : Val, val.WellTyped → val.retType.wrap (value val) = value val
  value_const : ∀ id dt val, value (.const id dt val) = val
  value_binary : ∀ id dt op lhs rhs,
    value (.binary id dt op lhs rhs) = evalBinary binaryOp dt op (value lhs) (value rhs)
  value_unary : ∀ id dt op operand,
    value (.unary id dt op operand) = evalUnary unaryOp dt op (value operand)
  value_loopIndex : ∀ id id' loop index,
    value (.loopIndex id loop index) = value (.loopIndex id' loop index)
  value_loopUnique : ∀ id dt input covers, value (.loopUnique id dt input covers) = value input
  value_rangeAssumption : ∀ id dt input base low high,
    value (.rangeAssumption id dt input base low high) = value input
  value_shapeAlongAxis : ∀ id id' axis argId,
    value (.shapeAlongAxis id axis argId) = value (.shapeAlongAxis id' axis argId)
  value_meshIndexConversion : ∀ id id' mesh idxType convType idx,
    value (.meshIndexConversion id mesh idxType convType idx) =
      value (.meshIndexConversion id' mesh idxType convType idx)
  value_eliminable : ∀ id id' dt kind operands,
    value (.other id dt kind operands true) = value (.other id' dt kind operands true)

theorem int32_add_eq_iff (c a b : ℤ) : int32 (c + a) = int32 (c + b) ↔ int32 (a - b) = 0 := by
  unfold int32
  rw [Int.bmod_add_cancel_left, Int.bmod_eq_bmod_iff_bmod_sub_eq_zero]

namespace Valuation

variable (σ : Valuation)

def base : Option Val → ℤ
  | none => 0
  | some val => σ.value val

theorem value_of_findDirectValueBaseAndOffset {val : Val} {base : Option Val} {offset : ℤ}
    (htyped : val.WellTyped) (hfind : val.findDirectValueBaseAndOffset = some (base, offset)) :
    σ.value val = int32 (σ.base base + offset) := by
  match val, hfind with
  | .const id dt c, hfind =>
    simp only [Val.findDirectValueBaseAndOffset] at hfind
    split at hfind
    · rename_i hdt
      obtain ⟨rfl, rfl⟩ := Prod.mk.inj (Option.some.inj hfind)
      subst hdt
      rw [σ.value_const, Valuation.base, Int.zero_add]
      exact htyped.symm
    · exact absurd hfind (by simp)
  | .binary id dt op lhs (.const id' dt' c), hfind =>
    obtain ⟨_, _, hoperands⟩ := htyped
    simp only [Val.findDirectValueBaseAndOffset] at hfind
    split at hfind
    · rename_i hdt
      subst hdt
      match op, hfind with
      | .add, hfind =>
        obtain ⟨rfl, rfl⟩ := Prod.mk.inj (Option.some.inj hfind)
        obtain rfl : DataType.i32 = dt := (hoperands (Or.inl rfl)).2
        rw [σ.value_binary, σ.value_const]
        rfl
      | .sub, hfind =>
        obtain ⟨rfl, rfl⟩ := Prod.mk.inj (Option.some.inj hfind)
        obtain rfl : DataType.i32 = dt := (hoperands (Or.inr (Or.inl rfl))).2
        rw [σ.value_binary, σ.value_const]
        exact Int.add_bmod_bmod.symm
    · exact absurd hfind (by simp)

theorem value_eq_iff_of_certain {val1 val2 : Val} (htyped1 : val1.WellTyped)
    (htyped2 : val2.WellTyped) (hcertain : (valueDiffPtrIndex val1 val2).isDiffCertain = true) :
    σ.value val1 = σ.value val2 ↔ (valueDiffPtrIndex val1 val2).diffRange = 0 := by
  unfold valueDiffPtrIndex at hcertain ⊢
  split
  · rename_i heq
    simp [heq, DiffPtrResult.makeCertain]
  · rename_i hne
    rw [if_neg hne] at hcertain
    split at hcertain
    · rename_i base1 offset1 base2 offset2 hfind1 hfind2
      split at hcertain
      · rename_i hbase
        subst hbase
        rw [σ.value_of_findDirectValueBaseAndOffset htyped1 hfind1,
          σ.value_of_findDirectValueBaseAndOffset htyped2 hfind2, int32_add_eq_iff, if_pos rfl]
        rfl
      · exact absurd hcertain (by simp [DiffPtrResult.makeUncertain])
    · exact absurd hcertain (by simp [DiffPtrResult.makeUncertain])

theorem value_eq_of_sameStatements {val1 val2 : Val} (hsame : sameStatements val1 val2 = true)
    (hvalue : ∀ id dt kind operands, val1 ≠ .other id dt kind operands false) :
    σ.value val1 = σ.value val2 := by
  cases val1 <;> cases val2 <;>
    simp only [sameStatements, Bool.and_eq_true, beq_iff_eq, Bool.false_eq_true] at hsame
  case const.const => rw [σ.value_const, σ.value_const, hsame.2]
  case binary.binary =>
    obtain ⟨⟨⟨rfl, rfl⟩, rfl⟩, rfl⟩ := hsame
    rw [σ.value_binary, σ.value_binary]
  case unary.unary =>
    obtain ⟨⟨rfl, rfl⟩, rfl⟩ := hsame
    rw [σ.value_unary, σ.value_unary]
  case loopIndex.loopIndex id1 _ _ id2 _ _ =>
    obtain ⟨rfl, rfl⟩ := hsame
    exact σ.value_loopIndex id1 id2 _ _
  case loopUnique.loopUnique =>
    obtain ⟨⟨rfl, rfl⟩, rfl⟩ := hsame
    rw [σ.value_loopUnique, σ.value_loopUnique]
  case rangeAssumption.rangeAssumption =>
    obtain ⟨⟨_, rfl⟩, _⟩ := hsame
    rw [σ.value_rangeAssumption, σ.value_rangeAssumption]
  case shapeAlongAxis.shapeAlongAxis id1 _ _ id2 _ _ =>
    obtain ⟨rfl, rfl⟩ := hsame
    exact σ.value_shapeAlongAxis id1 id2 _ _
  case meshIndexConversion.meshIndexConversion id1 _ _ _ _ id2 _ _ _ _ =>
    obtain ⟨⟨⟨rfl, rfl⟩, rfl⟩, rfl⟩ := hsame
    exact σ.value_meshIndexConversion id1 id2 _ _ _ _
  case other.other id1 dt1 kind1 operands1 eliminable1 id2 _ _ _ _ =>
    obtain ⟨⟨⟨rfl, rfl⟩, rfl⟩, rfl⟩ := hsame
    cases eliminable1 with
    | false => exact absurd rfl (hvalue id1 dt1 kind1 operands1)
    | true => exact σ.value_eliminable id1 id2 dt1 kind1 operands1

theorem value_eq_of_sameValue {val1 val2 : Val} (hsame : sameValue val1 val2 = true) :
    σ.value val1 = σ.value val2 := by
  rcases Bool.or_eq_true _ _ ▸ hsame with heq | hsame
  · rw [beq_iff_eq.mp heq]
  · split at hsame
    · rw [σ.value_loopUnique, σ.value_loopUnique, beq_iff_eq.mp hsame]
    · rw [σ.value_rangeAssumption, σ.value_rangeAssumption, beq_iff_eq.mp hsame]
    · cases hsame
    · rename_i hother _ _
      exact σ.value_eq_of_sameStatements hsame hother

end Valuation

theorem diffRange_of_uncertain {val1 val2 : Val}
    (h : (valueDiffPtrIndex val1 val2).isDiffCertain = false) :
    (valueDiffPtrIndex val1 val2).diffRange = 0 := by
  unfold valueDiffPtrIndex at h ⊢
  split
  · rfl
  · rename_i hne
    rw [if_neg hne] at h
    split at h
    · split at h
      · exact absurd h (by simp [DiffPtrResult.makeCertain])
      · rename_i hbase
        rw [if_neg hbase]
        rfl
    · rfl

theorem natAbs_int32_sub_comm (a b : ℤ) : (int32 (b - a)).natAbs = (int32 (a - b)).natAbs := by
  unfold int32
  rw [Int.bmod_def, Int.bmod_def]
  split <;> split <;> omega

theorem valueDiffPtrIndex_comm (val1 val2 : Val) :
    (valueDiffPtrIndex val2 val1).isDiffCertain = (valueDiffPtrIndex val1 val2).isDiffCertain ∧
      (valueDiffPtrIndex val2 val1).diffRange.natAbs =
        (valueDiffPtrIndex val1 val2).diffRange.natAbs := by
  unfold valueDiffPtrIndex
  rcases eq_or_ne val1 val2 with rfl | hne
  · exact ⟨rfl, rfl⟩
  · rw [if_neg hne, if_neg hne.symm]
    rcases val1.findDirectValueBaseAndOffset with _ | ⟨base1, offset1⟩ <;>
      rcases val2.findDirectValueBaseAndOffset with _ | ⟨base2, offset2⟩
    · exact ⟨rfl, rfl⟩
    · exact ⟨rfl, rfl⟩
    · exact ⟨rfl, rfl⟩
    · rcases eq_or_ne base1 base2 with rfl | hbase
      · simpa [DiffPtrResult.makeCertain] using natAbs_int32_sub_comm offset1 offset2
      · simp [hbase, hbase.symm]

theorem sameStatements_comm (val1 val2 : Val) :
    sameStatements val2 val1 = sameStatements val1 val2 := by
  cases val1 <;> cases val2 <;> simp only [sameStatements, Bool.beq_comm]

theorem DataType.wrap_wrap (dt : DataType) (x : ℤ) : dt.wrap (dt.wrap x) = dt.wrap x := by
  match dt with
  | .int bits true => exact Int.bmod_bmod
  | .int bits false => exact Int.emod_emod_of_dvd x (Int.dvd_refl _)
  | .other _ => rfl

theorem DataType.wrap_zero (dt : DataType) : dt.wrap 0 = 0 := by
  match dt with
  | .int bits true => exact Int.zero_bmod
  | .int bits false => exact Int.zero_emod _
  | .other _ => rfl

namespace Val

/-- The value of a statement, from the loop indices and the values of the statements the
analyses do not look into. -/
def evalWith (index : Loop → ℕ → ℤ) (input : ℕ → ℤ) : Val → ℤ
  | const _ _ val => val
  | binary _ dt op lhs rhs =>
    evalBinary (fun _ _ _ _ => 0) dt op (lhs.evalWith index input) (rhs.evalWith index input)
  | unary _ dt op operand => evalUnary (fun _ _ _ => 0) dt op (operand.evalWith index input)
  | loopIndex _ loop k => int32 (index loop k)
  | loopUnique _ _ val _ | rangeAssumption _ _ val _ _ _ => val.evalWith index input
  | shapeAlongAxis _ _ _ => 0
  | meshIndexConversion _ _ _ _ idx => int32 (idx.evalWith index input)
  | other id dt _ _ eliminable => if eliminable then 0 else dt.wrap (input id)

theorem wrap_evalWith (index : Loop → ℕ → ℤ) (input : ℕ → ℤ) (val : Val) (htyped : val.WellTyped) :
    val.retType.wrap (val.evalWith index input) = val.evalWith index input := by
  induction val with
  | const id dt val => exact htyped
  | binary id dt op lhs rhs ihl ihr =>
    match dt, op with
    | .int bits signed, .add => exact DataType.wrap_wrap _ _
    | .int bits signed, .sub => exact DataType.wrap_wrap _ _
    | .int bits signed, .bitXor => exact DataType.wrap_wrap _ _
    | .int bits signed, .other _ => exact DataType.wrap_zero _
    | .other _, _ => rfl
  | unary id dt op operand ih =>
    match dt, op with
    | .int bits signed, .neg => exact DataType.wrap_wrap _ _
    | .int bits signed, .other _ => exact DataType.wrap_zero _
    | .other _, _ => rfl
  | loopIndex id loop k => exact DataType.wrap_wrap .i32 _
  | loopUnique id dt val covers ih =>
    obtain ⟨hval, rfl, _⟩ := htyped
    exact ih hval
  | rangeAssumption id dt val base low high ih =>
    obtain ⟨hval, rfl⟩ := htyped
    exact ih hval
  | shapeAlongAxis id axis argId => exact DataType.wrap_zero .i32
  | meshIndexConversion id mesh idxType convType idx ih => exact DataType.wrap_wrap .i32 _
  | other id dt kind operands eliminable =>
    cases eliminable with
    | true => exact DataType.wrap_zero dt
    | false => exact DataType.wrap_wrap dt _

end Val

def Valuation.ofInput (index : Loop → ℕ → ℤ) (input : ℕ → ℤ) : Valuation where
  value := Val.evalWith index input
  binaryOp _ _ _ _ := 0
  unaryOp _ _ _ := 0
  value_wrap := Val.wrap_evalWith index input
  value_const _ _ _ := rfl
  value_binary _ _ _ _ _ := rfl
  value_unary _ _ _ _ := rfl
  value_loopIndex _ _ _ _ := rfl
  value_loopUnique _ _ _ _ := rfl
  value_rangeAssumption _ _ _ _ _ _ := rfl
  value_shapeAlongAxis _ _ _ _ := rfl
  value_meshIndexConversion _ _ _ _ _ _ := rfl
  value_eliminable _ _ _ _ _ := rfl

end Quadrants.Analysis
