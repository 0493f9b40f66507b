import Quadrants.Simplify.AlgOperands

/-!
What replaces a statement has its value, unless a cast is left out that changes it.
-/

namespace Quadrants.Simplify

open Folding Library.BinaryRounding BitVec Option Bool

variable {env : Env} {fastMath : Bool} {next i : ℕ} {lhs rhs s s' : Stmt} {op : BinaryOp}
  {t : IntType}

theorem keeps_lhs (hop : op ≠ .pow)
    (h : ∀ t a b r, lhs.eval env = some (.int t a) → rhs.eval env = some (.int t b) →
      runBinary op t a b = some r → Scalar.int (op.retType t) r = .int t a) :
    Keeps env (.binary i op lhs rhs) lhs :=
  keeps_of hop fun t a b r ha hb hr => ha.trans (congrArg some (h t a b r ha hb hr).symm)

theorem keeps_rhs (hop : op ≠ .pow)
    (h : ∀ t a b r, lhs.eval env = some (.int t a) → rhs.eval env = some (.int t b) →
      runBinary op t a b = some r → Scalar.int (op.retType t) r = .int t b) :
    Keeps env (.binary i op lhs rhs) rhs :=
  keeps_of hop fun t a b r ha hb hr => hb.trans (congrArg some (h t a b r ha hb hr).symm)

theorem keeps_replaceWith {z : ℤ} (hop : op ≠ .pow)
    (hs : replaceWith next (.binary i op lhs rhs) z = .replaced s')
    (h : ∀ t a b r, lhs.eval env = some (.int t a) → rhs.eval env = some (.int t b) →
      runBinary op t a b = some r → r = constantOf (op.retType t) z) :
    Keeps env (.binary i op lhs rhs) s' := by
  apply keeps_of hop
  intro t a b r ha hb hr
  rw [h t a b r ha hb hr]
  exact eval_replaceWith hs (retType_binary i op lhs rhs (retType_of_eval ha))

theorem pot_or_one_of_algIsTwo (h : algIsTwo s = true) : algIsPot s = true ∨ algIsOne s = true := by
  cases s with
  | const j u c =>
    obtain rfl : c = constantOf u 2 := beq_iff_eq.1 h
    cases u with
    | u1 => exact .inr rfl
    | i8 | i16 | i32 | i64 | u8 | u16 | u32 | u64 => exact .inl rfl
  | other | unary | binary => cases h

theorem optimizeMultiplication_keeps
    (h : optimizeMultiplication fastMath next i lhs rhs = .replaced s') :
    Keeps env (.binary i .mul lhs rhs) s' := by
  rw [optimizeMultiplication] at h
  split at h
  · next hone =>
      cases h
      split
      · next hleft =>
          apply keeps_rhs (by decide)
          rintro t a b _ ha - ⟨⟩
          rw [eval_of_algIsValue hleft ha, constantOf_one]
          exact congrArg (Scalar.int t) (BitVec.one_mul b)
      · next hleft =>
          have hright : algIsOne rhs = true := by
            rw [or_eq_true] at hone
            exact hone.resolve_left hleft
          apply keeps_lhs (by decide)
          rintro t a b _ - hb ⟨⟩
          rw [eval_of_algIsValue hright hb, constantOf_one]
          exact congrArg (Scalar.int t) (BitVec.mul_one a)
  next hone =>
    split at h
    · next hzero =>
        rw [and_eq_true, or_eq_true (algIsZero lhs)] at hzero
        apply keeps_replaceWith (by decide) h
        rintro t a b _ ha hb ⟨⟩
        rcases hzero.2 with hz | hz
        · rw [eval_of_algIsValue hz ha, constantOf_zero, constantOf_zero]
          exact zero_mul
        · rw [eval_of_algIsValue hz hb, constantOf_zero, constantOf_zero]
          exact mul_zero
    · split at h
      · next hpot =>
          rw [and_eq_true, or_eq_true] at hpot
          by_cases hleft : algIsPot lhs = true
          · simp only [if_pos hleft] at h
            split at h
            · next c hc =>
                cases h
                apply keeps_of (by decide)
                rintro t a b _ ha hb ⟨⟩
                rw [BitVec.mul_comm a b]
                exact eval_binary (by decide) hb (eval_getLog2rhs hc hb ha)
                  (shl_log2rhs (eval_of_algIsPot hleft ha))
            · cases h
          · simp only [if_neg hleft] at h
            split at h
            · next c hc =>
                cases h
                apply keeps_of (by decide)
                rintro t a b _ ha hb ⟨⟩
                exact eval_binary (by decide) ha (eval_getLog2rhs hc ha hb)
                  (shl_log2rhs (eval_of_algIsPot (hpot.2.resolve_left hleft) hb))
            · cases h
      next hpot =>
        split at h
        · next htwo =>
            apply keeps_of (by decide)
            intro t a b r ha hb hr
            exfalso
            have hint : isIntegral (Stmt.binary i .mul lhs rhs).retType = true := by
              rw [retType_binary i .mul lhs rhs (retType_of_eval ha)]
              rfl
            rw [hint, Bool.true_and, or_eq_true] at hpot
            rw [or_eq_true] at hone htwo
            rcases htwo with h | h
            · rcases pot_or_one_of_algIsTwo h with h | h
              · exact hpot (.inl h)
              · exact hone (.inl h)
            · rcases pot_or_one_of_algIsTwo h with h | h
              · exact hpot (.inr h)
              · exact hone (.inr h)
        · cases h

theorem optimizeDivision_keeps (hop : op = .div ∨ op = .floordiv)
    (hsame : sameValue lhs rhs = true → lhs.eval env = rhs.eval env)
    (h : optimizeDivision fastMath next i op lhs rhs = .replaced s') :
    Keeps env (.binary i op lhs rhs) s' := by
  have hne : op ≠ .pow := by rcases hop with rfl | rfl <;> decide
  rw [optimizeDivision] at h
  split at h
  · next hone =>
      cases h
      rw [and_eq_true] at hone
      apply keeps_lhs hne
      intro t a b r _ hb hr
      rw [eval_of_algIsValue hone.1 hb, constantOf_one] at hr
      rcases hop with rfl | rfl
      · exact congrArg (Scalar.int t) (Option.some.inj ((runDiv_one a).symm.trans hr)).symm
      · exact congrArg (Scalar.int t) (Option.some.inj ((floordiv_one a).symm.trans hr)).symm
  · split at h
    · next hequal =>
        rw [and_eq_true] at hequal
        apply keeps_replaceWith hne h
        intro t a b r ha hb hr
        have heq := hsame hequal.2
        rw [ha, hb, Option.some.injEq, Scalar.int.injEq] at heq
        obtain rfl := eq_of_heq heq.2
        rw [constantOf_one]
        rcases hop with rfl | rfl
        · exact runDiv_self hr
        · exact floordiv_self hr
    · split at h
      · next hpot =>
          rw [and_eq_true, and_eq_true] at hpot
          split at h
          · next c hc =>
              cases h
              apply keeps_of hne
              intro t a b r ha hb hr
              have hunsigned : t.isSigned = false := by
                have hu := hpot.1.2
                rw [retType_of_eval ha] at hu
                exact not_eq_true' _ ▸ hu
              have hsar := sar_log2rhs hunsigned (a := a) (eval_of_algIsPot hpot.2 hb)
              have hshift : (Stmt.binary (next + 1) .bitSar lhs c).eval env =
                  some (.int t (a / b)) :=
                eval_binary (by decide) ha (eval_getLog2rhs hc ha hb) hsar
              rcases hop with rfl | rfl
              · rw [runDiv_of_unsigned hunsigned hr]
                exact hshift
              · have hdiv : runDiv t a b = some r :=
                  (demoteIfloordiv_unsigned hunsigned a b).symm.trans hr
                rw [runDiv_of_unsigned hunsigned hdiv]
                exact hshift
          · cases h
      · cases h

theorem operand_eq (hsame : lhs.eval env = rhs.eval env) {a b : Value t}
    (ha : lhs.eval env = some (.int t a)) (hb : rhs.eval env = some (.int t b)) : a = b := by
  rw [ha, hb, Option.some.injEq, Scalar.int.injEq] at hsame
  exact eq_of_heq hsame.2

theorem visitSum_keeps (hop : op = .add ∨ op = .sub ∨ op = .bitOr ∨ op = .bitXor)
    (hsame : sameValue lhs rhs = true → lhs.eval env = rhs.eval env)
    (h : visitBinary fastMath next i op lhs rhs = .replaced s') :
    Keeps env (.binary i op lhs rhs) s' := by
  have hne : op ≠ .pow := by rcases hop with rfl | rfl | rfl | rfl <;> decide
  have hvisit : visitBinary fastMath next i op lhs rhs =
      if algIsZero rhs then .replaced lhs
      else if op != .sub && algIsZero lhs then .replaced rhs
      else if op == .bitOr && sameValue lhs rhs then .replaced lhs
      else if (op == .sub || op == .bitXor) &&
          (fastMath || isIntegral (Stmt.binary i op lhs rhs).retType) && sameValue lhs rhs then
        replaceWith next (.binary i op lhs rhs) 0
      else .unchanged := by
    rcases hop with rfl | rfl | rfl | rfl <;> rfl
  rw [hvisit] at h
  split at h
  · next hzero =>
      cases h
      apply keeps_lhs hne
      intro t a b r _ hb hr
      rw [eval_of_algIsValue hzero hb, constantOf_zero] at hr
      rcases hop with rfl | rfl | rfl | rfl <;> cases hr
      · exact congrArg (Scalar.int t) (BitVec.add_zero a)
      · exact congrArg (Scalar.int t) (BitVec.sub_zero a)
      · exact congrArg (Scalar.int t) or_zero
      · exact congrArg (Scalar.int t) xor_zero
  · split at h
    · next hzero =>
        cases h
        rw [and_eq_true, bne_iff_ne] at hzero
        apply keeps_rhs hne
        intro t a b r ha _ hr
        rw [eval_of_algIsValue hzero.2 ha, constantOf_zero] at hr
        rcases hop with rfl | rfl | rfl | rfl
        · cases hr
          exact congrArg (Scalar.int t) (BitVec.zero_add b)
        · exact absurd rfl hzero.1
        · cases hr
          exact congrArg (Scalar.int t) zero_or
        · cases hr
          exact congrArg (Scalar.int t) zero_xor
    · split at h
      · next hequal =>
          cases h
          rw [and_eq_true, beq_iff_eq] at hequal
          obtain ⟨rfl, hequal⟩ := hequal
          apply keeps_lhs hne
          rintro t a b _ ha hb ⟨⟩
          rw [← operand_eq (hsame hequal) ha hb]
          exact congrArg (Scalar.int t) BitVec.or_self
      · split at h
        · next hequal =>
            rw [and_eq_true, and_eq_true, or_eq_true, beq_iff_eq, beq_iff_eq] at hequal
            apply keeps_replaceWith hne h
            intro t a b r ha hb hr
            rw [← operand_eq (hsame hequal.2) ha hb] at hr
            rw [constantOf_zero]
            rcases hequal.1.1 with rfl | rfl <;> cases hr
            · exact BitVec.sub_self a
            · exact BitVec.xor_self
        · cases h

theorem visitAnd_keeps (hsame : sameValue lhs rhs = true → lhs.eval env = rhs.eval env)
    (h : visitBinary fastMath next i .bitAnd lhs rhs = .replaced s') :
    Keeps env (.binary i .bitAnd lhs rhs) s' := by
  rw [visitBinary] at h
  split at h
  · next hones =>
      cases h
      apply keeps_lhs (by decide)
      rintro t a b _ - hb ⟨⟩
      rw [eval_of_algIsValue hones hb, constantOf_neg_one]
      exact congrArg (Scalar.int t) and_allOnes
  · split at h
    · next hones =>
        cases h
        apply keeps_rhs (by decide)
        rintro t a b _ ha - ⟨⟩
        rw [eval_of_algIsValue hones ha, constantOf_neg_one]
        exact congrArg (Scalar.int t) allOnes_and
    · split at h
      · next hzero =>
          rw [or_eq_true] at hzero
          apply keeps_replaceWith (by decide) h
          rintro t a b _ ha hb ⟨⟩
          rcases hzero with hz | hz
          · rw [eval_of_algIsValue hz ha, constantOf_zero, constantOf_zero]
            exact zero_and
          · rw [eval_of_algIsValue hz hb, constantOf_zero, constantOf_zero]
            exact and_zero
      · split at h
        · next hequal =>
            cases h
            apply keeps_lhs (by decide)
            rintro t a b _ ha hb ⟨⟩
            rw [← operand_eq (hsame hequal) ha hb]
            exact congrArg (Scalar.int t) BitVec.and_self
        · cases h

theorem visitShift_keeps (hop : op = .bitSar ∨ op = .bitShl ∨ op = .bitShr)
    (h : visitBinary fastMath next i op lhs rhs = .replaced s') :
    Keeps env (.binary i op lhs rhs) s' := by
  have hne : op ≠ .pow := by rcases hop with rfl | rfl | rfl <;> decide
  have hvisit : visitBinary fastMath next i op lhs rhs =
      if algIsZero rhs || algIsZero lhs then .replaced lhs else .unchanged := by
    rcases hop with rfl | rfl | rfl <;> rfl
  rw [hvisit] at h
  split at h
  · next hzero =>
      cases h
      rw [or_eq_true] at hzero
      apply keeps_lhs hne
      intro t a b r ha hb hr
      rcases hzero with hz | hz
      · rw [eval_of_algIsValue hz hb, constantOf_zero] at hr
        rcases hop with rfl | rfl | rfl
        · exact congrArg (Scalar.int t) (Option.some.inj ((runSar_zero a).symm.trans hr)).symm
        · exact congrArg (Scalar.int t) (Option.some.inj ((runShl_zero a).symm.trans hr)).symm
        · exact congrArg (Scalar.int t) (Option.some.inj ((demoteBitShr_zero a).symm.trans hr)).symm
      · rw [eval_of_algIsValue hz ha, constantOf_zero] at hr ⊢
        rcases hop with rfl | rfl | rfl
        · exact congrArg (Scalar.int t) (runSar_of_zero hr)
        · exact congrArg (Scalar.int t) (runShl_of_zero hr)
        · exact congrArg (Scalar.int t) (demoteBitShr_of_zero hr)
  · cases h

theorem visitComparison_keeps (hop : op.isComparison = true)
    (hsame : sameValue lhs rhs = true → lhs.eval env = rhs.eval env)
    (h : visitBinary fastMath next i op lhs rhs = .replaced s') :
    Keeps env (.binary i op lhs rhs) s' := by
  have hne : op ≠ .pow := by
    rintro rfl
    cases hop
  have hvisit : visitBinary fastMath next i op lhs rhs =
      if (fastMath || isIntegral lhs.retType) && sameValue lhs rhs then
        replaceWith next (.binary i op lhs rhs)
          (if op = .cmpEq ∨ op = .cmpGe ∨ op = .cmpLe then 1 else 0)
      else .unchanged := by
    cases op <;> first | rfl | cases hop
  rw [hvisit] at h
  split at h
  · next hequal =>
      rw [and_eq_true] at hequal
      apply keeps_replaceWith hne h
      intro t a b r ha hb hr
      rw [← operand_eq (hsame hequal.2) ha hb] at hr
      have hless : less t a a = false := by
        rw [less]
        split
        · rw [slt_eq_decide]
          exact decide_eq_false (lt_irrefl _)
        · exact decide_eq_false (lt_irrefl _)
      cases op <;> cases hop <;> cases hr
      all_goals simp only [hless, beq_self_eq_true, bne_self_eq_false]
      all_goals rfl
  · cases h

theorem getExponentValue_eq {e : ℤ} {b : Value t} (h : getExponentValue s = some e)
    (hs : s.eval env = some (.int t b)) : e = toDouble (number t b) := by
  cases s with
  | const j u c =>
    obtain ⟨rfl, hc⟩ := Scalar.int.inj (Option.some.inj hs)
    rw [← eq_of_heq hc]
    exact (Option.some.inj h).symm
  | other | unary | binary => cases h

theorem castToResultType_pow (next i : ℕ) (lhs rhs : Stmt) :
    castToResultType next lhs (.binary i .pow lhs rhs) = (lhs, next) :=
  if_neg fun hne => hne rfl

theorem eval_exponentNOptimize {t' : IntType} {a : Value t} {b : Value t'} {p : Stmt}
    (ha : lhs.eval env = some (.int t a)) (hb : rhs.eval env = some (.int t' b))
    (hp : exponentNOptimize next i lhs rhs = some p) : 0 < number t' b ∧
      p.eval env = some (.int t (BitVec.ofInt t.bits (a.toInt ^ (number t' b).toNat))) := by
  rw [exponentNOptimize] at hp
  split at hp
  · cases hp
  · next e he =>
      have hexp := getExponentValue_eq he hb
      split at hp
      · next hrange =>
          rw [maxWeakenExponent] at hrange
          have hsame : number t' b = e := (toDouble_eq_iff (by omega)).1 hexp.symm
          have hchain : ∃ q, weakenExponent next e.toNat 0 lhs none = some q ∧
              q.eval env = some (.int t (BitVec.ofInt t.bits (a.toInt ^ e.toNat))) :=
            weakenExponent_power (by omega) ha
          obtain ⟨q, hq, hvalue⟩ := hchain
          rw [castToResultType_pow] at hp
          obtain rfl : q = p := Option.some.inj (hq.symm.trans hp)
          rw [hsame]
          exact ⟨hrange.1, hvalue⟩
      · cases hp

theorem visitPow_keeps (h : visitPow next i lhs rhs = .replaced s') :
    Keeps env (.binary i .pow lhs rhs) s' := by
  intro v hv
  obtain ⟨x, hx, hv⟩ := bind_eq_some_iff.1 hv
  obtain ⟨y, hy, hv⟩ := bind_eq_some_iff.1 hv
  rcases runOp_eq_some hv with ⟨t, t', a, b, r, rfl, rfl, -, hr, rfl⟩ | ⟨t, a, b, r, -, -, hne, -⟩
  · have hret := retType_of_eval hx
    have hself : a = BitVec.ofInt t.bits a.toInt := ofInt_toInt.symm
    rw [visitPow] at h
    split at h
    · cases h
    · next e he =>
        have hexp := getExponentValue_eq he hy
        split at h
        · next hone =>
            cases h
            have hb : number t' b = 1 := (toDouble_eq_iff (by decide)).1 (hexp.symm.trans hone)
            have hpow := transformPow_eq_some hr (by omega)
            rw [hb, Int.toNat_one, pow_one, ← hself] at hpow
            rw [hpow]
            exact hx
        · split at h
          · next hzero =>
              have hb : number t' b = 0 := (toDouble_eq_iff (by decide)).1 (hexp.symm.trans hzero)
              have hpow := transformPow_eq_some hr (by omega)
              rw [hb, Int.toNat_zero, pow_zero] at hpow
              rw [hpow, ← number_one t, ofInt_number, ← constantOf_one]
              exact eval_replaceWith h (retType_binary i .pow lhs rhs hret)
          · split at h
            · next p hp =>
                cases h
                obtain ⟨hpos, hchain⟩ := eval_exponentNOptimize hx hy hp
                rw [transformPow_eq_some hr hpos.le]
                exact hchain
            · split at h <;> cases h
  · exact absurd rfl hne

theorem visitBinary_keeps (hsame : sameValue lhs rhs = true → lhs.eval env = rhs.eval env)
    (h : visitBinary fastMath next i op lhs rhs = .replaced s') :
    Keeps env (.binary i op lhs rhs) s' := by
  cases op with
  | mul => exact optimizeMultiplication_keeps h
  | div => exact optimizeDivision_keeps (.inl rfl) hsame h
  | floordiv => exact optimizeDivision_keeps (.inr rfl) hsame h
  | add => exact visitSum_keeps (.inl rfl) hsame h
  | sub => exact visitSum_keeps (.inr (.inl rfl)) hsame h
  | bitOr => exact visitSum_keeps (.inr (.inr (.inl rfl))) hsame h
  | bitXor => exact visitSum_keeps (.inr (.inr (.inr rfl))) hsame h
  | pow => exact visitPow_keeps h
  | bitAnd => exact visitAnd_keeps hsame h
  | bitSar => exact visitShift_keeps (.inl rfl) h
  | bitShl => exact visitShift_keeps (.inr (.inl rfl)) h
  | bitShr => exact visitShift_keeps (.inr (.inr rfl)) h
  | cmpLt | cmpLe | cmpGt | cmpGe | cmpEq | cmpNe => exact visitComparison_keeps rfl hsame h
  | max | min | mod | logicalAnd | logicalOr => cases h

theorem keeps_operand {castOp : CastOp} {d : DataType} (h : d = s.retType) :
    Keeps env (.unary i castOp d s) s := by
  intro v hv
  subst h
  cases castOp with
  | castValue =>
    obtain ⟨x, hx, hv⟩ := bind_eq_some_iff.1 hv
    rw [← eval_type hx, castValue_self, Option.some.injEq] at hv
    rw [hx, hv]
  | castBits =>
    obtain ⟨x, hx, hv⟩ := bind_eq_some_iff.1 hv
    rw [← eval_type hx] at hv
    obtain ⟨t, u, a, rfl, htype, -, rfl⟩ := castBits_eq_some hv
    obtain rfl := DataType.int.inj htype
    rw [hx, setWidth_eq]

theorem keeps_castBits {j : ℕ} {d e : DataType} :
    Keeps env (.unary i .castBits e (.unary j .castBits d s)) (.unary i .castBits e s) := by
  intro v hv
  obtain ⟨y, hy, hv⟩ := bind_eq_some_iff.1 hv
  obtain ⟨x, hx, hy⟩ := bind_eq_some_iff.1 hy
  obtain ⟨t, u, a, rfl, rfl, hbits, rfl⟩ := castBits_eq_some hy
  obtain ⟨t', u', b, hb, rfl, hbits', rfl⟩ := castBits_eq_some hv
  obtain ⟨rfl, hb⟩ := Scalar.int.inj hb
  rw [Stmt.eval, hx, bind_some, castBits, runUnary, if_pos (hbits.trans hbits'),
    ← eq_of_heq hb, setWidth_setWidth_of_le _ hbits'.ge]
  rfl

theorem visitUnary_cases {castOp : CastOp} {e : DataType}
    (h : visitUnary fastMath i castOp e s = .replaced s') : (e = s.retType ∧ s' = s) ∨
      e ≠ s.retType ∧ ∃ j d x, s = .unary j castOp d x ∧ s' = .unary i castOp e x ∧
        (castOp = .castValue → isRedundantCast fastMath d e = true) := by
  rw [visitUnary.eq_def] at h
  split at h
  · next heq =>
      cases h
      exact .inl ⟨heq, rfl⟩
  · next hne =>
      refine .inr ⟨hne, ?_⟩
      split at h
      · next j prevOp d x =>
          split at h
          · next hbits =>
              obtain ⟨rfl, rfl⟩ := hbits
              cases h
              exact ⟨j, d, x, rfl, rfl, fun hop => nomatch hop⟩
          · split at h
            · next hvalue =>
                obtain ⟨rfl, rfl, hred⟩ := hvalue
                cases h
                exact ⟨j, d, x, rfl, rfl, fun _ => hred⟩
            · cases h
      · cases h

theorem eval_chain {j : ℕ} {d e : DataType} {x : Scalar} (hx : s.eval env = some x) :
    (Stmt.unary i .castValue e (.unary j .castValue d s)).eval env =
        (castValue d x).bind (castValue e) ∧
      (Stmt.unary i .castValue e s).eval env = castValue e x := by
  constructor
  · rw [Stmt.eval, Stmt.eval, hx, bind_some]
  · rw [Stmt.eval, hx, bind_some]

theorem preserved_cast_iff {castOp : CastOp} {e : DataType} :
    Preserved env fastMath next (.unary i castOp e s) ↔
      CastsHold env fastMath (.unary i castOp e s) := by
  constructor
  · intro h
    cases castOp with
    | castBits => exact trivial
    | castValue =>
      cases s with
      | const | other | binary => exact trivial
      | unary j castOp' d x =>
        cases castOp' with
        | castBits => exact trivial
        | castValue =>
          intro hne hred y hy
          rw [← chainPreserved_iff hred hne]
          have hvisit :
              visit fastMath next (.unary i .castValue e (.unary j .castValue d x)) =
                .replaced (.unary i .castValue e x) := by
            have hbits : ¬(CastOp.castValue = .castBits ∧ CastOp.castValue = .castBits) := by
              decide
            have hself : e ≠ (Stmt.unary j .castValue d x).retType := hne
            rw [visit, visitUnary, if_neg hself, if_neg hbits, if_pos ⟨rfl, rfl, hred⟩]
          intro v hv
          obtain ⟨hchain, hsingle⟩ := @eval_chain env i x j d e y hy
          rw [← hsingle]
          exact h _ hvisit v (hchain.trans hv)
  · intro h s' hs' v hv
    rcases visitUnary_cases hs' with ⟨heq, rfl⟩ | ⟨hne, j, d, x, rfl, rfl, hred⟩
    · exact keeps_operand heq v hv
    · cases castOp with
      | castBits => exact keeps_castBits v hv
      | castValue =>
        obtain ⟨y, hy, hv'⟩ := bind_eq_some_iff.1 hv
        obtain ⟨z, hz, -⟩ := bind_eq_some_iff.1 hy
        obtain ⟨hchain, hsingle⟩ := @eval_chain env i x j d e z hz
        rw [hsingle]
        have hred' := hred rfl
        exact (chainPreserved_iff hred' hne z).2 (h hne hred' z hz) v (hchain ▸ hv)

theorem preserved_of_castsHold_iff (p : NumberedStmt) :
    Preserved env fastMath next p.stmt ↔ CastsHold env fastMath p.stmt := by
  obtain ⟨s, hids⟩ := p
  cases s with
  | const | other =>
    constructor
    · exact fun _ => trivial
    · exact fun _ _ hs' => nomatch hs'
  | unary i castOp e x => exact preserved_cast_iff
  | binary i op lhs rhs =>
    constructor
    · exact fun _ => trivial
    · intro _ s' hs' v hv
      have hsame : sameValue lhs rhs = true → lhs.eval env = rhs.eval env := by
        apply eval_of_sameValue
        intro a ha b hb
        exact hids a (List.mem_cons_of_mem _ ha) b (List.mem_cons_of_mem _ hb)
      exact visitBinary_keeps hsame hs' v hv

inductive Replaces (env : Env) (fastMath : Bool) : Stmt → Stmt → Prop where
  | visited (next : ℕ) (p : NumberedStmt) (s' : Stmt)
      (hs : visit fastMath next p.stmt = .replaced s')
      (hcasts : CastsHold env fastMath p.stmt) : Replaces env fastMath p.stmt s'
  | operand (i : ℕ) (castOp : CastOp) (d : DataType) (a a' : Stmt)
      (h : Replaces env fastMath a a') :
      Replaces env fastMath (.unary i castOp d a) (.unary i castOp d a')
  | left (i : ℕ) (op : BinaryOp) (a a' b : Stmt) (h : Replaces env fastMath a a') :
      Replaces env fastMath (.binary i op a b) (.binary i op a' b)
  | right (i : ℕ) (op : BinaryOp) (a b b' : Stmt) (h : Replaces env fastMath b b') :
      Replaces env fastMath (.binary i op a b) (.binary i op a b')

end Quadrants.Simplify
