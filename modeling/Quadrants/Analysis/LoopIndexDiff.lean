import Quadrants.Analysis.DiffRange

/-!
`value_diff_loop_index` on index expressions: what the range says about the value in every
iteration, as long as the coefficient of every product is the right one.
-/

namespace Quadrants.Analysis.LoopIndexDiff

inductive BinaryOpType where
  | add
  | sub
  | mul
  | bitShl
  | other (code : ℕ)
  deriving DecidableEq

/-- An index of a loop has the begin and the end of the loop if that is a range-for between
constants. -/
inductive IndexExpr where
  | loopIndex (loop index : ℕ) (rangeFor : Option (ℤ × ℤ))
  | const (isI32 : Bool) (val : ℤ)
  | rangeAssumption (input base : IndexExpr) (low high : ℤ)
  | binary (op : BinaryOpType) (lhs rhs : IndexExpr)
  | other (id : ℕ)

section Visitor

variable (loop loopIndex : ℕ)

def visit : IndexExpr → Option DiffRange
  | .loopIndex l index rangeFor =>
    if l = loop ∧ index = loopIndex then DiffRange.single 1 0
    else
      match rangeFor with
      | some (beginVal, endVal) => some (DiffRange.make true 0 (int32 beginVal) (int32 endVal))
      | none => some DiffRange.unrelated
  | .const isI32 val =>
    if isI32 then DiffRange.single 0 (int32 val) else some DiffRange.unrelated
  | .rangeAssumption _ base low high => do
      let range ← visit base
      range.add (DiffRange.make true 0 (int32 low) (int32 high))
  | .binary op lhs rhs =>
    match op with
    | .other _ => some DiffRange.unrelated
    | op => do
        let ret1 ← visit lhs
        let ret2 ← visit rhs
        if ret1.related && ret2.related then
          match op with
          | .add => ret1.add ret2
          | .sub => ret1.sub ret2
          | .mul => ret1.mul ret2
          | _ => ret1.shl ret2
        else some DiffRange.unrelated
  | .other _ => some DiffRange.unrelated

def valueDiffLoopIndex (e : IndexExpr) : Option DiffRange :=
  match e with
  | .loopIndex l index rangeFor =>
    if l = loop ∧ index = loopIndex then DiffRange.single 1 0
    else visit loop loopIndex (.loopIndex l index rangeFor)
  | e => visit loop loopIndex e

end Visitor

/-- The values of the loop indices and of the statements that the visitor does not look into. -/
structure Iteration where
  loopIndex : ℕ → ℕ → ℤ
  loopIndex_int32 : ∀ l index, int32 (loopIndex l index) = loopIndex l index
  unknown : ℕ → ℤ
  otherOp : ℕ → ℤ → ℤ → ℤ
  shiftOutside : ℤ → ℤ → ℤ

def IndexExpr.value (it : Iteration) : IndexExpr → ℤ
  | .loopIndex l index _ => it.loopIndex l index
  | .const _ val => int32 val
  | .rangeAssumption input _ _ _ => input.value it
  | .binary op lhs rhs =>
    match op with
    | .add => int32 (lhs.value it + rhs.value it)
    | .sub => int32 (lhs.value it - rhs.value it)
    | .mul => int32 (lhs.value it * rhs.value it)
    | .bitShl =>
      if 0 ≤ rhs.value it ∧ rhs.value it < 32 then
        int32 (lhs.value it * 2 ^ (rhs.value it).toNat)
      else int32 (it.shiftOutside (lhs.value it) (rhs.value it))
    | .other code => int32 (it.otherOp code (lhs.value it) (rhs.value it))
  | .other id => int32 (it.unknown id)

/-- Range-for indices are between the bounds of their loops, and range assumptions are true. -/
def IndexExpr.Admissible (it : Iteration) : IndexExpr → Prop
  | .loopIndex l index rangeFor =>
    ∀ beginVal endVal, rangeFor = some (beginVal, endVal) →
      int32 beginVal ≤ it.loopIndex l index ∧ it.loopIndex l index < int32 endVal
  | .const _ _ => True
  | .rangeAssumption input base low high =>
    base.Admissible it ∧ int32 low ≤ input.value it - base.value it ∧
      input.value it - base.value it < int32 high
  | .binary _ lhs rhs => lhs.Admissible it ∧ rhs.Admissible it
  | .other _ => True

/-- Every product has the index in no factor or a single number as one factor, with a product of
that number and the other coefficient that is not negative; every shift of more than one number
keeps all bits of the bounds. -/
def IndexExpr.Linear (loop loopIndex : ℕ) : IndexExpr → Prop
  | .loopIndex _ _ _ => True
  | .const _ _ => True
  | .rangeAssumption _ base _ _ => base.Linear loop loopIndex
  | .binary op lhs rhs =>
    lhs.Linear loop loopIndex ∧ rhs.Linear loop loopIndex ∧
      ∀ a b, visit loop loopIndex lhs = some a → visit loop loopIndex rhs = some b →
        (op = .mul → a.LinearProduct b) ∧ (op = .bitShl → a.ExactShift b.low)
  | .other _ => True

section Sound

variable {loop loopIndex : ℕ}

theorem unrelated_related {d : DiffRange} (h : some DiffRange.unrelated = some d)
    (hd : d.related = true) : False := by
  obtain rfl := Option.some.inj h
  cases hd

theorem eq_of_contains32 {d : DiffRange} {i v : ℤ} (h : d.Contains32 i v) (hcoeff : d.coeff = 0)
    (hsingle : d.high = d.low + 1) : v ≡ d.low [ZMOD 2 ^ 32] := by
  obtain ⟨offset, hlow, hhigh, hv⟩ := h
  have hoffset : offset = d.low := by omega
  rw [hcoeff, zero_mul, zero_add, hoffset] at hv
  exact hv

theorem visit_binary {op : BinaryOpType} {lhs rhs : IndexExpr} {d : DiffRange}
    (h : visit loop loopIndex (.binary op lhs rhs) = some d) (hd : d.related = true) :
    ∃ a b, visit loop loopIndex lhs = some a ∧ visit loop loopIndex rhs = some b ∧
      a.related = true ∧ b.related = true ∧
      (op = .add ∧ a.add b = some d ∨ op = .sub ∧ a.sub b = some d ∨
        op = .mul ∧ a.mul b = some d ∨ op = .bitShl ∧ a.shl b = some d) := by
  cases op with
  | other code => exact absurd hd (by intro hd; exact unrelated_related h hd)
  | add | sub | mul | bitShl =>
    simp only [visit, Option.bind_eq_bind, Option.bind_eq_some_iff] at h
    obtain ⟨a, ha, b, hb, h⟩ := h
    split at h
    · next hboth =>
        obtain ⟨harel, hbrel⟩ := Bool.and_eq_true_iff.1 hboth
        refine ⟨a, b, ha, hb, harel, hbrel, ?_⟩
        simp [h]
    · exact absurd hd (by intro hd; exact unrelated_related h hd)

theorem int32_value (it : Iteration) (e : IndexExpr) : int32 (e.value it) = e.value it := by
  have hidem : ∀ x, int32 (int32 x) = int32 x := fun x => int32_of_bounds (int32_bounds x)
  induction e with
  | loopIndex l index rangeFor => exact it.loopIndex_int32 l index
  | const isI32 val => exact hidem val
  | rangeAssumption input base low high ih _ => exact ih
  | binary op lhs rhs _ _ =>
    unfold IndexExpr.value
    cases op with
    | bitShl =>
      simp only
      split <;> exact hidem _
    | add | sub | mul | other code => exact hidem _
  | other id => exact hidem _

theorem visit_inRange (e : IndexExpr) (d : DiffRange) (h : visit loop loopIndex e = some d)
    (hd : d.related = true) : d.InRange := by
  cases e with
  | loopIndex l index rangeFor =>
    simp only [visit] at h
    split at h
    · obtain ⟨-, -, hlow, -, hhigh⟩ := DiffRange.single_eq h
      exact ⟨by rw [hlow]; decide, hhigh⟩
    · split at h
      · obtain rfl := Option.some.inj h
        exact ⟨(int32_bounds _).1, (int32_bounds _).2⟩
      · exact (unrelated_related h hd).elim
  | const isI32 val =>
    simp only [visit] at h
    split at h
    · obtain ⟨-, -, hlow, -, hhigh⟩ := DiffRange.single_eq h
      exact ⟨by rw [hlow]; exact (int32_bounds _).1, hhigh⟩
    · exact (unrelated_related h hd).elim
  | rangeAssumption input base low high =>
    simp only [visit, Option.bind_eq_bind, Option.bind_eq_some_iff] at h
    obtain ⟨range, -, h⟩ := h
    exact (DiffRange.add_eq h hd).2.2.2.2.2
  | binary op lhs rhs =>
    obtain ⟨a, b, -, -, -, -, hop⟩ := visit_binary h hd
    rcases hop with ⟨-, hrange⟩ | ⟨-, hrange⟩ | ⟨-, hrange⟩ | ⟨-, hrange⟩
    · exact (DiffRange.add_eq hrange hd).2.2.2.2.2
    · exact (DiffRange.sub_eq hrange hd).2.2.2.2.2
    · exact (DiffRange.mul_eq hrange hd).2.2.2.2.2.2
    · exact (DiffRange.shl_eq hrange hd).2.2.2.2.2.2.2.2
  | other id => exact (unrelated_related h hd).elim

theorem visit_contains32 (it : Iteration) (e : IndexExpr) :
    ∀ d, visit loop loopIndex e = some d → d.related = true → e.Linear loop loopIndex →
      e.Admissible it → d.Contains32 (it.loopIndex loop loopIndex) (e.value it) := by
  induction e with
  | loopIndex l index rangeFor =>
    intro d h hd _ hadmissible
    simp only [visit] at h
    split at h
    · next hsame =>
        obtain ⟨rfl, rfl⟩ := hsame
        obtain ⟨-, hcoeff, hlow, hhigh, -⟩ := DiffRange.single_eq h
        refine ⟨0, by omega, by omega, ?_⟩
        rw [hcoeff, one_mul, add_zero]
        rfl
    · split at h
      · obtain rfl := Option.some.inj h
        have hbounds := hadmissible _ _ rfl
        refine ⟨it.loopIndex l index, hbounds.1, hbounds.2, ?_⟩
        rw [DiffRange.make_coeff, zero_mul, zero_add]
        rfl
      · exact (unrelated_related h hd).elim
  | const isI32 val =>
    intro d h hd _ _
    simp only [visit] at h
    split at h
    · obtain ⟨-, hcoeff, hlow, hhigh, -⟩ := DiffRange.single_eq h
      refine ⟨int32 val, by omega, by omega, ?_⟩
      rw [hcoeff, zero_mul, zero_add]
      rfl
    · exact (unrelated_related h hd).elim
  | rangeAssumption input base low high _ ih =>
    intro d h hd hlinear hadmissible
    simp only [visit, Option.bind_eq_bind, Option.bind_eq_some_iff] at h
    obtain ⟨range, hrange, h⟩ := h
    have hrelated := (DiffRange.add_eq h hd).1
    have hbase := ih range hrange hrelated hlinear hadmissible.1
    have hoffset : (DiffRange.make true 0 (int32 low) (int32 high)).Contains32
        (it.loopIndex loop loopIndex) (input.value it - base.value it) := by
      refine ⟨_, hadmissible.2.1, hadmissible.2.2, ?_⟩
      rw [DiffRange.make_coeff, zero_mul, zero_add]
    have hsum := DiffRange.add_contains32 h hd hbase hoffset
    rw [add_sub_cancel, int32_value] at hsum
    exact hsum
  | binary op lhs rhs ihl ihr =>
    intro d h hd hlinear hadmissible
    obtain ⟨a, b, ha, hb, harel, hbrel, hop⟩ := visit_binary h hd
    have hl := ihl a ha harel hlinear.1 hadmissible.1
    have hr := ihr b hb hbrel hlinear.2.1 hadmissible.2
    have hfine := hlinear.2.2 a b ha hb
    rcases hop with ⟨rfl, hrange⟩ | ⟨rfl, hrange⟩ | ⟨rfl, hrange⟩ | ⟨rfl, hrange⟩
    · exact DiffRange.add_contains32 hrange hd hl hr
    · exact DiffRange.sub_contains32 hrange hd hl hr
    · exact DiffRange.mul_contains32 hrange hd (hfine.1 rfl) hl hr
    · obtain ⟨-, -, hcoeff, hsingle, hamount, -⟩ := DiffRange.shl_eq hrange hd
      -- the shift amount is the one number of its range
      have hvalue : rhs.value it = b.low := by
        have hmod := int32_of_modEq (eq_of_contains32 hr hcoeff hsingle)
        rw [int32_value, int32_of_bounds (by omega)] at hmod
        exact hmod
      unfold IndexExpr.value
      simp only [hvalue, if_pos hamount]
      exact DiffRange.shl_contains32 hrange hd (hfine.2 rfl) hl
  | other id =>
    intro d h hd _ _
    exact (unrelated_related h hd).elim

theorem valueDiffLoopIndex_eq (e : IndexExpr) :
    valueDiffLoopIndex loop loopIndex e = visit loop loopIndex e := by
  cases e with
  | loopIndex l index rangeFor =>
    simp only [valueDiffLoopIndex, visit]
    split <;> rfl
  | const | rangeAssumption | binary | other => rfl

end Sound

def iterationOne : Iteration where
  loopIndex _ _ := 1
  loopIndex_int32 _ _ := rfl
  unknown _ := 0
  otherOp _ _ _ := 0
  shiftOutside _ _ := 0

def scaled (c : ℤ) : IndexExpr :=
  .binary .mul (.const true c) (.loopIndex 0 0 none)

end Quadrants.Analysis.LoopIndexDiff
