import Quadrants.Analysis.ValueDiff
import Mathlib.Data.Int.ModEq
import Mathlib.Tactic.Linarith
import Mathlib.Tactic.LinearCombination
import Mathlib.Tactic.Ring

/-!
The ranges of `value_diff.cpp`. An `int` of the host that overflows has no defined value, and
neither has a range computed from it; a left shift drops the bits that do not fit.
-/

namespace Quadrants.Analysis

open Option Bool Int

def hostInt (x : ℤ) : Option ℤ :=
  if -2 ^ 31 ≤ x ∧ x < 2 ^ 31 then some x else none

def hostShl (x k : ℤ) : Option ℤ :=
  if 0 ≤ k ∧ k < 32 then some (int32 (x * 2 ^ k.toNat)) else none

structure DiffRange where
  related : Bool
  coeff : ℤ
  low : ℤ
  high : ℤ
  unrelated_zero : related = false → low = 0 ∧ high = 0

namespace DiffRange

def make (related : Bool) (coeff low high : ℤ) : DiffRange where
  related := related
  coeff := coeff
  low := if related then low else 0
  high := if related then high else 0
  unrelated_zero h := by simp [h]

def unrelated : DiffRange := make false 0 0 0

def single (coeff low : ℤ) : Option DiffRange := do
  let high ← hostInt (low + 1)
  some (make true coeff low high)

def certain (d : DiffRange) : Bool := d.high == d.low + 1

def add (a b : DiffRange) : Option DiffRange := do
  let coeff ← hostInt (a.coeff + b.coeff)
  let low ← hostInt (a.low + b.low)
  let sum ← hostInt (a.high + b.high)
  let high ← hostInt (sum - 1)
  some (make (a.related && b.related) coeff low high)

def sub (a b : DiffRange) : Option DiffRange := do
  let coeff ← hostInt (a.coeff - b.coeff)
  let diff ← hostInt (a.low - b.high)
  let low ← hostInt (diff + 1)
  let high ← hostInt (a.high - b.low)
  some (make (a.related && b.related) coeff low high)

def mulRelated (a b : DiffRange) : Option Bool :=
  if a.related && b.related then (hostInt (a.coeff * b.coeff)).map (· == 0) else some false

def mul (a b : DiffRange) : Option DiffRange := do
  let related ← mulRelated a b
  let coeffLeft ← hostInt (a.low * b.coeff)
  let coeffRight ← hostInt (a.coeff * b.low)
  let lastA ← hostInt (a.high - 1)
  let lastB ← hostInt (b.high - 1)
  let lowLow ← hostInt (a.low * b.low)
  let lowLast ← hostInt (a.low * lastB)
  let lastLow ← hostInt (b.low * lastA)
  let lastLast ← hostInt (lastA * lastB)
  let high ← hostInt (max lowLow (max lowLast (max lastLow lastLast)) + 1)
  some (make related (max coeffLeft coeffRight) (min lowLow (min lowLast (min lastLow lastLast)))
    high)

def shlRelated (a b : DiffRange) : Option Bool :=
  if a.related && b.related && b.coeff == 0 then (hostInt (b.high - b.low)).map (· == 1)
  else some false

def shl (a b : DiffRange) : Option DiffRange := do
  let related ← shlRelated a b
  let coeff ← hostShl a.coeff b.low
  let low ← hostShl a.low b.low
  let lastA ← hostInt (a.high - 1)
  let last ← hostShl lastA b.low
  let high ← hostInt (last + 1)
  some (make related coeff low high)

def InRange (d : DiffRange) : Prop :=
  -2 ^ 31 ≤ d.low ∧ d.high < 2 ^ 31

def Contains (d : DiffRange) (i v : ℤ) : Prop :=
  d.low ≤ v - d.coeff * i ∧ v - d.coeff * i < d.high

def Contains32 (d : DiffRange) (i v : ℤ) : Prop :=
  ∃ offset, d.low ≤ offset ∧ offset < d.high ∧ v ≡ d.coeff * i + offset [ZMOD 2 ^ 32]

/-- The index is in no factor, or one factor is a single number and the product with the
coefficient of the other one is not negative. -/
def LinearProduct (a b : DiffRange) : Prop :=
  (a.coeff = 0 ∧ b.coeff = 0) ∨
    (a.coeff = 0 ∧ a.high = a.low + 1 ∧ 0 ≤ a.low * b.coeff) ∨
    (b.coeff = 0 ∧ b.high = b.low + 1 ∧ 0 ≤ b.low * a.coeff)

/-- The range is a single number, or its bounds keep all their bits. -/
def ExactShift (a : DiffRange) (k : ℤ) : Prop :=
  a.high = a.low + 1 ∨
    (int32 (a.low * 2 ^ k.toNat) = a.low * 2 ^ k.toNat ∧
      int32 ((a.high - 1) * 2 ^ k.toNat) = (a.high - 1) * 2 ^ k.toNat)

end DiffRange

theorem eq_of_hostInt {x y : ℤ} (h : hostInt x = some y) : y = x := by
  unfold hostInt at h
  split at h
  · exact (Option.some.inj h).symm
  · cases h

theorem hostInt_bounds {x y : ℤ} (h : hostInt x = some y) : -2 ^ 31 ≤ y ∧ y < 2 ^ 31 := by
  unfold hostInt at h
  split at h
  · next hx =>
      obtain rfl := Option.some.inj h
      exact hx
  · cases h

theorem of_hostShl {x k y : ℤ} (h : hostShl x k = some y) :
    (0 ≤ k ∧ k < 32) ∧ y = int32 (x * 2 ^ k.toNat) := by
  unfold hostShl at h
  split at h
  · next hk => exact ⟨hk, (Option.some.inj h).symm⟩
  · cases h

theorem int32_modEq (x : ℤ) : int32 x ≡ x [ZMOD 2 ^ 32] :=
  bmod_emod

theorem int32_bounds (x : ℤ) : -2 ^ 31 ≤ int32 x ∧ int32 x < 2 ^ 31 := by
  have hlow := le_bmod (x := x) (m := 2 ^ 32) (by decide)
  have hhigh := bmod_lt (x := x) (m := 2 ^ 32) (by decide)
  unfold int32
  constructor <;> omega

theorem int32_of_bounds {x : ℤ} (h : -2 ^ 31 ≤ x ∧ x < 2 ^ 31) : int32 x = x := by
  apply bmod_eq_of_le <;> omega

theorem int32_of_modEq {x y : ℤ} (h : x ≡ y [ZMOD 2 ^ 32]) : int32 x = int32 y := by
  unfold int32
  rw [← emod_bmod, ← emod_bmod (x := y)]
  exact congrArg (bmod · _) h

namespace DiffRange

section Make

variable {related : Bool} {coeff low high : ℤ}

@[simp] theorem make_related : (make related coeff low high).related = related := rfl

@[simp] theorem make_coeff : (make related coeff low high).coeff = coeff := rfl

@[simp] theorem make_low (h : related = true) : (make related coeff low high).low = low :=
  if_pos h

@[simp] theorem make_high (h : related = true) : (make related coeff low high).high = high :=
  if_pos h

end Make

section Operators

variable {a b d : DiffRange}

theorem single_eq {coeff low : ℤ} (h : single coeff low = some d) :
    d.related = true ∧ d.coeff = coeff ∧ d.low = low ∧ d.high = low + 1 ∧ d.high < 2 ^ 31 := by
  simp only [single, bind_eq_bind, bind_eq_some_iff, Option.some.injEq] at h
  obtain ⟨high, hhigh, rfl⟩ := h
  exact ⟨rfl, rfl, rfl, eq_of_hostInt hhigh, (hostInt_bounds hhigh).2⟩

theorem add_eq (h : add a b = some d) (hd : d.related = true) :
    a.related = true ∧ b.related = true ∧ d.coeff = a.coeff + b.coeff ∧
      d.low = a.low + b.low ∧ d.high = a.high + b.high - 1 ∧ d.InRange := by
  simp only [add, bind_eq_bind, bind_eq_some_iff, Option.some.injEq] at h
  obtain ⟨coeff, hcoeff, low, hlow, sum, hsum, high, hhigh, rfl⟩ := h
  rw [make_related] at hd
  have hrange : (make (a.related && b.related) coeff low high).InRange := by
    rw [InRange, make_low hd, make_high hd]
    exact ⟨(hostInt_bounds hlow).1, (hostInt_bounds hhigh).2⟩
  obtain ⟨ha, hb⟩ := and_eq_true_iff.1 hd
  refine ⟨ha, hb, eq_of_hostInt hcoeff, ?_, ?_, hrange⟩
  · rw [make_low hd, eq_of_hostInt hlow]
  · rw [make_high hd, eq_of_hostInt hhigh, eq_of_hostInt hsum]

theorem sub_eq (h : sub a b = some d) (hd : d.related = true) :
    a.related = true ∧ b.related = true ∧ d.coeff = a.coeff - b.coeff ∧
      d.low = a.low - b.high + 1 ∧ d.high = a.high - b.low ∧ d.InRange := by
  simp only [sub, bind_eq_bind, bind_eq_some_iff, Option.some.injEq] at h
  obtain ⟨coeff, hcoeff, diff, hdiff, low, hlow, high, hhigh, rfl⟩ := h
  rw [make_related] at hd
  have hrange : (make (a.related && b.related) coeff low high).InRange := by
    rw [InRange, make_low hd, make_high hd]
    exact ⟨(hostInt_bounds hlow).1, (hostInt_bounds hhigh).2⟩
  obtain ⟨ha, hb⟩ := and_eq_true_iff.1 hd
  refine ⟨ha, hb, eq_of_hostInt hcoeff, ?_, ?_, hrange⟩
  · rw [make_low hd, eq_of_hostInt hlow, eq_of_hostInt hdiff]
  · rw [make_high hd, eq_of_hostInt hhigh]

def cornerMin (a b : DiffRange) : ℤ :=
  min (a.low * b.low) (min (a.low * (b.high - 1)) (min (b.low * (a.high - 1))
    ((a.high - 1) * (b.high - 1))))

def cornerMax (a b : DiffRange) : ℤ :=
  max (a.low * b.low) (max (a.low * (b.high - 1)) (max (b.low * (a.high - 1))
    ((a.high - 1) * (b.high - 1))))

theorem mul_eq (h : mul a b = some d) (hd : d.related = true) :
    a.related = true ∧ b.related = true ∧ a.coeff * b.coeff = 0 ∧
      d.coeff = max (a.low * b.coeff) (a.coeff * b.low) ∧
      d.low = cornerMin a b ∧ d.high = cornerMax a b + 1 ∧ d.InRange := by
  simp only [mul, bind_eq_bind, bind_eq_some_iff, Option.some.injEq] at h
  obtain ⟨related, hrelated, coeffLeft, hcoeffLeft, coeffRight, hcoeffRight, lastA, hlastA, lastB,
    hlastB, lowLow, hlowLow, lowLast, hlowLast, lastLow, hlastLow, lastLast, hlastLast, high,
    hhigh, rfl⟩ := h
  rw [make_related] at hd
  have hrange : -2 ^ 31 ≤ min lowLow (min lowLast (min lastLow lastLast)) ∧ high < 2 ^ 31 := by
    have hbounds := hostInt_bounds hlowLow
    have hbounds₂ := hostInt_bounds hlowLast
    have hbounds₃ := hostInt_bounds hlastLow
    have hbounds₄ := hostInt_bounds hlastLast
    exact ⟨by omega, (hostInt_bounds hhigh).2⟩
  rw [InRange, make_low hd, make_high hd]
  obtain rfl := eq_of_hostInt hlastA
  obtain rfl := eq_of_hostInt hlastB
  obtain rfl := eq_of_hostInt hlowLow
  obtain rfl := eq_of_hostInt hlowLast
  obtain rfl := eq_of_hostInt hlastLow
  obtain rfl := eq_of_hostInt hlastLast
  obtain rfl := eq_of_hostInt hhigh
  rw [eq_of_hostInt hcoeffLeft, eq_of_hostInt hcoeffRight]
  unfold mulRelated at hrelated
  split at hrelated
  · next hboth =>
      obtain ⟨ha, hb⟩ := and_eq_true_iff.1 hboth
      obtain ⟨product, hproduct, heq⟩ := map_eq_some_iff.1 hrelated
      rw [hd, beq_iff_eq, eq_of_hostInt hproduct] at heq
      exact ⟨ha, hb, heq, rfl, rfl, rfl, hrange⟩
  · rw [hd] at hrelated
    cases hrelated

theorem shl_eq (h : shl a b = some d) (hd : d.related = true) :
    a.related = true ∧ b.related = true ∧ b.coeff = 0 ∧ b.high = b.low + 1 ∧
      (0 ≤ b.low ∧ b.low < 32) ∧ d.coeff = int32 (a.coeff * 2 ^ b.low.toNat) ∧
      d.low = int32 (a.low * 2 ^ b.low.toNat) ∧
      d.high = int32 ((a.high - 1) * 2 ^ b.low.toNat) + 1 ∧ d.InRange := by
  simp only [shl, bind_eq_bind, bind_eq_some_iff, Option.some.injEq] at h
  obtain ⟨related, hrelated, coeff, hcoeff, low, hlow, lastA, hlastA, last, hlast, high, hhigh,
    rfl⟩ := h
  rw [make_related] at hd
  obtain ⟨hk, rfl⟩ := of_hostShl hcoeff
  obtain ⟨-, rfl⟩ := of_hostShl hlow
  obtain ⟨-, rfl⟩ := of_hostShl hlast
  have hrange := (hostInt_bounds hhigh).2
  rw [InRange, make_low hd, make_high hd]
  obtain rfl := eq_of_hostInt hlastA
  obtain rfl := eq_of_hostInt hhigh
  unfold shlRelated at hrelated
  split at hrelated
  · next hboth =>
      rw [and_eq_true_iff, and_eq_true_iff, beq_iff_eq] at hboth
      obtain ⟨width, hwidth, heq⟩ := map_eq_some_iff.1 hrelated
      rw [hd, beq_iff_eq, eq_of_hostInt hwidth] at heq
      exact ⟨hboth.1.1, hboth.1.2, hboth.2, by omega, hk, rfl, rfl, rfl, (int32_bounds _).1, hrange⟩
  · rw [hd] at hrelated
    cases hrelated

end Operators

section Products

theorem mul_between {l u x y : ℤ} (hl : l ≤ x) (hu : x ≤ u) :
    min (l * y) (u * y) ≤ x * y ∧ x * y ≤ max (l * y) (u * y) := by
  rcases Int.le_total 0 y with hy | hy
  · have hlow := Int.mul_le_mul_of_nonneg_right hl hy
    have hhigh := Int.mul_le_mul_of_nonneg_right hu hy
    exact ⟨(min_le_left _ _).trans hlow, hhigh.trans (le_max_right _ _)⟩
  · have hlow := Int.mul_le_mul_of_nonpos_right hl hy
    have hhigh := Int.mul_le_mul_of_nonpos_right hu hy
    exact ⟨(min_le_right _ _).trans hhigh, hlow.trans (le_max_left _ _)⟩

variable {a b : DiffRange}

theorem corners {x y : ℤ} (hxl : a.low ≤ x) (hxh : x < a.high) (hyl : b.low ≤ y)
    (hyh : y < b.high) : cornerMin a b ≤ x * y ∧ x * y ≤ cornerMax a b := by
  have hx := mul_between (y := y) hxl (le_sub_one_of_lt hxh)
  have hlow := mul_between (y := a.low) hyl (le_sub_one_of_lt hyh)
  have hlast := mul_between (y := a.high - 1) hyl (le_sub_one_of_lt hyh)
  rw [mul_comm y, mul_comm b.low, mul_comm (b.high - 1)] at hlow
  rw [mul_comm y, mul_comm (b.high - 1)] at hlast
  unfold cornerMin cornerMax
  omega

theorem linearProduct_offset (h : LinearProduct a b) {i x y : ℤ} (hx : a.low ≤ x ∧ x < a.high)
    (hy : b.low ≤ y ∧ y < b.high) : (a.coeff * i + x) * (b.coeff * i + y) =
      max (a.low * b.coeff) (a.coeff * b.low) * i + x * y := by
  rcases h with ⟨ha, hb⟩ | ⟨ha, hsingle, hsign⟩ | ⟨hb, hsingle, hsign⟩
  · rw [ha, hb]
    simp
  · have hxa : x = a.low := by omega
    rw [ha, hxa, zero_mul, zero_mul, max_eq_left hsign]
    ring
  · have hyb : y = b.low := by omega
    rw [hb, hyb, mul_zero, mul_comm a.coeff b.low, max_eq_right hsign]
    ring

end Products

section Machine

variable {a b d : DiffRange} {i v w : ℤ}

theorem add_contains32 (h : add a b = some d) (hd : d.related = true) (ha : a.Contains32 i v)
    (hb : b.Contains32 i w) : d.Contains32 i (int32 (v + w)) := by
  obtain ⟨-, -, hcoeff, hlow, hhigh, -⟩ := add_eq h hd
  obtain ⟨x, hxl, hxh, hx⟩ := ha
  obtain ⟨y, hyl, hyh, hy⟩ := hb
  refine ⟨x + y, by omega, by omega, (int32_modEq _).trans ((hx.add hy).trans ?_)⟩
  have hsum : a.coeff * i + x + (b.coeff * i + y) = d.coeff * i + (x + y) := by
    rw [hcoeff]
    ring
  rw [hsum]

theorem sub_contains32 (h : sub a b = some d) (hd : d.related = true) (ha : a.Contains32 i v)
    (hb : b.Contains32 i w) : d.Contains32 i (int32 (v - w)) := by
  obtain ⟨-, -, hcoeff, hlow, hhigh, -⟩ := sub_eq h hd
  obtain ⟨x, hxl, hxh, hx⟩ := ha
  obtain ⟨y, hyl, hyh, hy⟩ := hb
  refine ⟨x - y, by omega, by omega, (int32_modEq _).trans ((hx.sub hy).trans ?_)⟩
  have hdiff : a.coeff * i + x - (b.coeff * i + y) = d.coeff * i + (x - y) := by
    rw [hcoeff]
    ring
  rw [hdiff]

theorem mul_contains32 (h : mul a b = some d) (hd : d.related = true) (hlinear : LinearProduct a b)
    (ha : a.Contains32 i v) (hb : b.Contains32 i w) : d.Contains32 i (int32 (v * w)) := by
  obtain ⟨-, -, -, hcoeff, hlow, hhigh, -⟩ := mul_eq h hd
  obtain ⟨x, hxl, hxh, hx⟩ := ha
  obtain ⟨y, hyl, hyh, hy⟩ := hb
  have hcorners := corners hxl hxh hyl hyh
  refine ⟨x * y, by omega, by omega, (int32_modEq _).trans ((hx.mul hy).trans ?_)⟩
  rw [hcoeff, linearProduct_offset hlinear ⟨hxl, hxh⟩ ⟨hyl, hyh⟩]

theorem shl_contains32 (h : shl a b = some d) (hd : d.related = true)
    (hexact : ExactShift a b.low) (ha : a.Contains32 i v) :
    d.Contains32 i (int32 (v * 2 ^ b.low.toNat)) := by
  obtain ⟨-, -, -, -, -, hcoeff, hlow, hhigh, -⟩ := shl_eq h hd
  obtain ⟨x, hxl, hxh, hx⟩ := ha
  have hpow : (0 : ℤ) < 2 ^ b.low.toNat := by positivity
  have hvalue : int32 (v * 2 ^ b.low.toNat) ≡
      d.coeff * i + x * 2 ^ b.low.toNat [ZMOD 2 ^ 32] := by
    refine (int32_modEq _).trans ((hx.mul_right _).trans ?_)
    rw [hcoeff, add_mul]
    refine Int.ModEq.add_right _ ?_
    rw [mul_right_comm]
    exact ((int32_modEq _).mul_right _).symm
  rcases hexact with hsingle | ⟨hlowExact, hlastExact⟩
  · have hxa : x = a.low := by omega
    have hlast : a.high - 1 = a.low := by omega
    rw [hlast] at hhigh
    refine ⟨d.low, le_rfl, by omega, hvalue.trans ?_⟩
    rw [hxa, hlow]
    exact (int32_modEq _).symm.add_left _
  · rw [hlowExact] at hlow
    rw [hlastExact] at hhigh
    refine ⟨x * 2 ^ b.low.toNat, ?_, ?_, hvalue⟩
    · rw [hlow]
      exact Int.mul_le_mul_of_nonneg_right hxl hpow.le
    · rw [hhigh]
      exact lt_add_one_of_le (Int.mul_le_mul_of_nonneg_right (by omega) hpow.le)

end Machine

end DiffRange

end Quadrants.Analysis
