import Quadrants.Simplify.AlgExact

/-!
The two lowerings of a power: the loop of `transform_pow_op_impl` and the products of
`exponent_n_optimize`.
-/

namespace Quadrants.Simplify

open Folding Library.BinaryRounding Library.SquareMultiply BitVec

section Loop

variable {α : Type} [MulOneClass α] {w : ℕ}

structure PowLocals (α : Type) (w : ℕ) where
  a : α
  b : BitVec w
  result : α

def powRound (s : PowLocals α w) : Option (PowLocals α w) :=
  if s.b.sle 0 then none
  else
    some { a := s.a * s.a
           b := s.b.sshiftRight 1
           result := if s.b &&& 1 != 0 then s.result * s.a else s.result }

def powRun : ℕ → PowLocals α w → Option α
  | 0, _ => none
  | rounds + 1, s =>
    match powRound s with
    | none => some s.result
    | some s' => powRun rounds s'

structure AfterRounds (x : α) (n k : ℕ) (s : PowLocals α w) : Prop where
  a_eq : s.a = square x k
  b_eq : s.b.toInt = (n / 2 ^ k : ℕ)
  result_eq : s.result = (digitProduct x n k).getD 1

theorem sle_zero_iff (b : BitVec w) : b.sle 0 = true ↔ b.toInt ≤ 0 := by
  rw [sle_iff_toInt_le]
  exact iff_of_eq (congrArg (b.toInt ≤ ·) toInt_zero)

theorem slt_zero_iff (b : BitVec w) : b.slt 0 = true ↔ b.toInt < 0 := by
  rw [slt_iff_toInt_lt]
  exact iff_of_eq (congrArg (b.toInt < ·) toInt_zero)

variable {b : BitVec w} {k n : ℕ} {s : PowLocals α w} {x : α}

theorem AfterRounds.round (h : AfterRounds x n k s)
    (hk : 0 < n / 2 ^ k) : ∃ s', powRound s = some s' ∧ AfterRounds x n (k + 1) s' := by
  have hpos : 0 < s.b.toInt := by
    rw [h.b_eq]
    exact_mod_cast hk
  have hgoes : ¬s.b.sle 0 = true := by
    rw [sle_zero_iff]
    omega
  refine ⟨_, if_neg hgoes, ?_, ?_, ?_⟩
  · rw [square, h.a_eq]
  · have hhalf : n / 2 ^ (k + 1) = n / 2 ^ k / 2 := by
      rw [Nat.pow_succ, Nat.div_div_eq_div_mul]
    rw [toInt_sshiftRight, h.b_eq, hhalf]
    rfl
  · have hbit : (s.b &&& 1 != 0) = n.testBit k := by
      rw [and_one_bne_zero hpos, Nat.testBit_eq_decide_div_mod_eq, h.b_eq, decide_eq_decide]
      omega
    rw [digitProduct_succ, hbit, h.a_eq, h.result_eq]

theorem AfterRounds.stop (h : AfterRounds x n k s)
    (hk : n / 2 ^ k = 0) : powRound s = none ∧ s.result = binaryPower x n := by
  have hstops : s.b.sle 0 = true := by
    rw [sle_zero_iff, h.b_eq, hk]
    exact le_rfl
  refine ⟨if_pos hstops, ?_⟩
  rw [h.result_eq]
  exact digitProduct_getD ((Nat.div_eq_zero_iff_lt (Nat.two_pow_pos k)).1 hk)

theorem AfterRounds.run {rounds : ℕ} (h : AfterRounds x n k s)
    (hn : n / 2 ^ k < 2 ^ rounds) : powRun (rounds + 1) s = some (binaryPower x n) := by
  induction rounds generalizing k s with
  | zero =>
    obtain ⟨hround, hresult⟩ := h.stop (Nat.lt_one_iff.1 hn)
    rw [powRun, hround, hresult]
  | succ rounds ih =>
    rcases Nat.eq_zero_or_pos (n / 2 ^ k) with hzero | hpos
    · obtain ⟨hround, hresult⟩ := h.stop hzero
      rw [powRun, hround, hresult]
    · obtain ⟨s', hround, hs'⟩ := h.round hpos
      have hless : n / 2 ^ (k + 1) < 2 ^ rounds := by
        rw [Nat.pow_succ, ← Nat.div_div_eq_div_mul]
        omega
      rw [powRun, hround]
      exact ih hs' hless

variable [Div α]

/-- `transform_pow_op_impl`: the result is inverted for a real base and an exponent that is not
positive. -/
def transformPowOpImpl (isReal : Bool) (rounds : ℕ) (lhs : α) (rhs : BitVec w) : Option α :=
  (powRun rounds ⟨lhs, if rhs.slt 0 then -rhs else rhs, 1⟩).map fun result =>
    if isReal && rhs.sle 0 then 1 / result else result

def LoopReturns (isReal : Bool) (lhs : α) (rhs : BitVec w) (v : α) : Prop :=
  ∃ rounds, ∀ more, transformPowOpImpl isReal (rounds + more) lhs rhs = some v

theorem abs_toInt (h : b ≠ intMin w ∨ 0 ≤ b.toInt) :
    (if b.slt 0 then -b else b).toInt = b.toInt.natAbs := by
  split
  · next hneg =>
      rw [slt_zero_iff] at hneg
      rw [toInt_neg_of_ne_intMin (h.resolve_right (not_le.2 hneg))]
      omega
  · next hpos =>
      rw [slt_zero_iff] at hpos
      omega

theorem loopReturns_abs (isReal : Bool) (x : α) (h : b ≠ intMin w ∨ 0 ≤ b.toInt) :
    LoopReturns isReal x b (if isReal && b.sle 0 then 1 / binaryPower x b.toInt.natAbs
      else binaryPower x b.toInt.natAbs) := by
  have hstart : AfterRounds x b.toInt.natAbs 0
      (⟨x, if b.slt 0 then -b else b, 1⟩ : PowLocals α w) := by
    refine ⟨rfl, ?_, rfl⟩
    rw [Nat.pow_zero, Nat.div_one]
    exact abs_toInt h
  refine ⟨b.toInt.natAbs + 1, fun more => ?_⟩
  have hless : b.toInt.natAbs / 2 ^ 0 < 2 ^ (b.toInt.natAbs + more) := by
    rw [Nat.pow_zero, Nat.div_one]
    exact (Nat.le_add_right _ more).trans_lt Nat.lt_two_pow_self
  have hrun := hstart.run hless
  rw [transformPowOpImpl, Nat.add_right_comm, hrun]
  rfl

theorem loopReturns_nonneg (isReal : Bool) (x : α) (h : 0 ≤ b.toInt)
    (hreal : isReal = true → b.toInt ≠ 0) : LoopReturns isReal x b (binaryPower x b.toInt.toNat) := by
  have hreturns := loopReturns_abs isReal x (.inr h)
  have hle : ¬(isReal && b.sle 0) = true := by
    rw [Bool.and_eq_true, sle_zero_iff]
    rintro ⟨hr, hb⟩
    have hne := hreal hr
    omega
  rw [if_neg hle, show b.toInt.natAbs = b.toInt.toNat by omega] at hreturns
  exact hreturns

theorem loopReturns_neg (x : α) (h : b.toInt < 0) (hmin : b ≠ intMin w) :
    LoopReturns true x b (1 / binaryPower x b.toInt.natAbs) := by
  have hreturns := loopReturns_abs true x (.inl hmin)
  rw [if_pos (by rw [Bool.true_and, sle_zero_iff]; omega)] at hreturns
  exact hreturns

end Loop

section Chain

variable {α : Type} [MulOneClass α]

def evalMul (leaf : ℕ → Option α) : Stmt → Option α
  | .binary _ .mul l r => (evalMul leaf l).bind fun y => (evalMul leaf r).map fun z => y * z
  | s => leaf s.id

theorem evalMul_chain {leaf : ℕ → Option α} {next i j : ℕ} {lhs s : Stmt} {x : α} {t : IntType}
    {val : Value t} (hx : evalMul leaf lhs = some x)
    (hs : exponentNOptimize next i lhs (.const j t val) = some s) :
    0 < number t val ∧ number t val ≤ 32 ∧
      evalMul leaf s = some (binaryPower x (number t val).toNat) := by
  rw [exponentNOptimize, getExponentValue] at hs
  simp only [castToResultType_pow] at hs
  split at hs
  · next hrange =>
      have hsmall : (toDouble (number t val)).natAbs < 2 ^ 53 := by
        rw [maxWeakenExponent] at hrange
        omega
      have hsame : number t val = toDouble (number t val) := (toDouble_eq_iff hsmall).1 rfl
      rw [← hsame] at hrange
      rw [← hsame] at hs
      have hchain : ∃ s y, weakenExponent next (number t val).toNat 0 lhs none = some s ∧
          digitProduct x (number t val).toNat (number t val).toNat = some y ∧
            evalMul leaf s = some y := by
        apply @weakenExponent_value α _ (fun s y => evalMul leaf s = some y) x
        · intro next l r y z hl hr
          rw [evalMul, hl, hr]
          rfl
        · omega
        · exact hx
      obtain ⟨s', y, hs', hy, hvalue⟩ := hchain
      rw [hs, Option.some.injEq] at hs'
      subst hs'
      refine ⟨hrange.1, hrange.2, ?_⟩
      rw [hvalue, binaryPower, hy, Option.getD_some]
  · cases hs

end Chain

section Negative

variable {α : Type} [MulOneClass α] [Div α] {w : ℕ}

/-- `exponent_negative_optimize` for a real base: one over the power with the exponent `neg rhs`,
which is lowered after that. -/
def NegativeReturns (lhs : α) (rhs : BitVec w) (v : α) : Prop :=
  -maxWeakenExponent ≤ rhs.toInt ∧ rhs.toInt < 0 ∧ ∃ p, LoopReturns true lhs (-rhs) p ∧ v = 1 / p

variable {t : IntType} {b : Value t}

theorem toInt_neg_of_small (hs : t.isSigned = true)
    (h : -32 ≤ b.toInt) : b ≠ intMin t.bits ∧ (-b).toInt = -b.toInt := by
  have hbits : 0 < t.bits := bits_pos t
  have hmin : b ≠ intMin t.bits := by
    rintro rfl
    rw [toInt_intMin_of_pos hbits] at h
    have hpow : (2 : ℤ) ^ 7 ≤ 2 ^ (t.bits - 1) := by
      cases t <;> cases hs <;> decide
    omega
  exact ⟨hmin, toInt_neg_of_ne_intMin hmin⟩

theorem negative_agree (x : α) (hs : t.isSigned = true) (hge : -32 ≤ b.toInt) (hlt : b.toInt < 0) :
    ∃ p, LoopReturns true x b (1 / p) ∧ NegativeReturns x b (1 / p) ∧
      ∀ leaf next i j lhs s, evalMul leaf lhs = some x →
        exponentNOptimize next i lhs (.const j t (-b)) = some s → evalMul leaf s = some p := by
  obtain ⟨hmin, hneg⟩ := toInt_neg_of_small hs hge
  refine ⟨binaryPower x b.toInt.natAbs, loopReturns_neg x hlt hmin, ⟨hge, hlt, _, ?_, rfl⟩, ?_⟩
  · have hreturns := loopReturns_nonneg true x (b := -b) (by omega) (fun _ => by omega)
    rw [hneg, show (-b.toInt).toNat = b.toInt.natAbs by omega] at hreturns
    exact hreturns
  · intro leaf next i j lhs s hx hchain
    have hvalue := (evalMul_chain hx hchain).2.2
    rw [number_signed hs, hneg, show (-b.toInt).toNat = b.toInt.natAbs by omega] at hvalue
    exact hvalue

theorem visitPow_negative (next i j : ℕ) {lhs : Stmt}
    (hint : isIntegral lhs.retType = true) (hlt : number t b < 0) :
    visitPow next i lhs (.const j t b) =
      if -maxWeakenExponent ≤ toDouble (number t b) then
        .error "Negative exponent in pow(int, int) is not allowed."
      else .unchanged := by
  have hneg : toDouble (number t b) < 0 := (round_neg_iff (by decide)).2 hlt
  have hone : toDouble (number t b) ≠ 1 := by omega
  have hzero : toDouble (number t b) ≠ 0 := by omega
  have hrange : ¬(0 < toDouble (number t b) ∧ toDouble (number t b) ≤ maxWeakenExponent) := by omega
  have hchain : exponentNOptimize next i lhs (.const j t b) = none := by
    exact if_neg hrange
  rw [visitPow, hchain, getExponentValue]
  simp [if_neg hone, if_neg hzero, hint, hneg]

end Negative

theorem toNat_binaryPower {w : ℕ} (a : BitVec w) (n : ℕ) :
    (binaryPower a n).toNat = a.toNat ^ n % 2 ^ w := by
  rw [binaryPower_eq_pow]
  induction n with
  | zero =>
    rfl
  | succ n ih => rw [pow_succ, toNat_mul, ih, Nat.pow_succ, Nat.mod_mul_mod]

end Quadrants.Simplify
