import Quadrants.Folding.Powers

/-!
Operations on one operand.
-/

namespace Quadrants.Folding

open Library.BinaryRounding BitVec

section Parts

variable {t : IntType}

variable {a : Value t} {op : UnaryOp}

theorem foldUnary_of_host (hbits : ∀ dst, op ≠ .castBits dst)
    (hcast : op ≠ .castValue t) (hgood : t.isGood = true) {v : HostValue}
    (hhost : hostUnary t a op = some v) : foldUnary op t a = typedConstant _ v := by
  have hbad : ¬t.isGood = false := by rw [hgood]; decide
  cases op with
  | castBits dst => exact absurd rfl (hbits dst)
  | neg | abs | bitNot | logicNot | sgn | popcnt | clz | ffs | castValue =>
    simp [foldUnary, hcast, hbad, hhost]

theorem foldUnary_of_none (hbits : ∀ dst, op ≠ .castBits dst)
    (hcast : op ≠ .castValue t) (hhost : hostUnary t a op = none) :
    foldUnary op t a = .kept := by
  cases op with
  | castBits dst => exact absurd rfl (hbits dst)
  | neg | abs | bitNot | logicNot | sgn | popcnt | clz | ffs | castValue =>
    simp [foldUnary, hcast, hhost]

theorem foldUnary_of_bad (hbits : ∀ dst, op ≠ .castBits dst)
    (hcast : op ≠ .castValue t) (hgood : t.isGood = false) (a : Value t) :
    foldUnary op t a = .kept := by
  cases op with
  | castBits dst => exact absurd rfl (hbits dst)
  | neg | abs | bitNot | logicNot | sgn | popcnt | clz | ffs | castValue =>
    simp [foldUnary, hcast, hgood]

theorem kinds (t : IntType) :
    (t = .i32 ∨ t = .i64) ∨ (t = .u32 ∨ t = .u64) ∨ t = .u1 ∨ t.isGood = false := by
  cases t <;> decide

theorem agrees_neg (a : Value t) : Agrees (runUnary .neg t a) (foldUnary .neg t a) := by
  rcases kinds t with ht | ht | rfl | ht
  · obtain ⟨hsigned, hbits, hne, -⟩ := signed_facts ht
    have hhost : hostUnary t a .neg = some (.int64 (-a.signExtend 64)) := by
      rw [hostUnary, if_neg hne, if_pos hsigned]
    rw [foldUnary_of_host (by simp) (by simp) (by rcases ht with rfl | rfl <;> rfl) hhost]
    exact agrees_int64 ht (by rw [setWidth_neg_of_le hbits, low_signExtend hbits])
  · obtain ⟨hsigned, hbits, hne, -, -⟩ := unsigned_facts ht
    have hnot : t.isSigned ≠ true := by rw [hsigned]; decide
    have hhost : hostUnary t a .neg = some (.uint64 (-a.setWidth 64)) := by
      rw [hostUnary, if_neg hne, if_neg hnot]
    rw [foldUnary_of_host (by simp) (by simp) (by rcases ht with rfl | rfl <;> rfl) hhost]
    exact agrees_uint64 ht (by rw [setWidth_neg_of_le hbits, low_setWidth hbits])
  · trivial
  · rw [foldUnary_of_bad (by simp) (by simp) ht]
    trivial

theorem agrees_bitNot (a : Value t) : Agrees (runUnary .bitNot t a) (foldUnary .bitNot t a) := by
  rcases kinds t with ht | ht | rfl | ht
  · obtain ⟨hsigned, hbits, hne, -⟩ := signed_facts ht
    have hhost : hostUnary t a .bitNot = some (.int64 (~~~a.signExtend 64)) := by
      rw [hostUnary, if_neg hne, if_pos hsigned]
    rw [foldUnary_of_host (by simp) (by simp) (by rcases ht with rfl | rfl <;> rfl) hhost]
    refine agrees_int64 ht ?_
    rw [setWidth_not hbits, low_signExtend hbits]
    rfl
  · obtain ⟨hsigned, hbits, hne, -, -⟩ := unsigned_facts ht
    have hnot : t.isSigned ≠ true := by rw [hsigned]; decide
    have hhost : hostUnary t a .bitNot = some (.uint64 (~~~a.setWidth 64)) := by
      rw [hostUnary, if_neg hne, if_neg hnot]
    rw [foldUnary_of_host (by simp) (by simp) (by rcases ht with rfl | rfl <;> rfl) hhost]
    refine agrees_uint64 ht ?_
    rw [setWidth_not hbits, low_setWidth hbits]
    rfl
  · revert a
    decide
  · rw [foldUnary_of_bad (by simp) (by simp) ht]
    trivial

theorem agrees_logicNot (a : Value t) :
    Agrees (runUnary .logicNot t a) (foldUnary .logicNot t a) := by
  by_cases hgood : t.isGood = true
  · rw [foldUnary_of_host (by simp) (by simp) hgood rfl]
    exact agrees_bool rfl
  · rw [foldUnary_of_bad (by simp) (by simp) (Bool.not_eq_true _ ▸ hgood)]
    trivial

theorem agrees_castBits (dst : IntType) (a : Value t) :
    Agrees (runUnary (.castBits dst) t a) (foldUnary (.castBits dst) t a) := by
  change Agrees (if t.bits = dst.bits then some (a.setWidth dst.bits) else none)
    (.installed (a.setWidth dst.bits))
  split
  · exact agrees_installed_some.2 rfl
  · exact agrees_none_installed

def castTo (t dst : IntType) (a : Value t) : Value dst :=
  if dst = .u1 then (ofBool (a != 0)).setWidth dst.bits else intCast t dst a

theorem assign_eq_castTo {dst : IntType} {isZero : Bool} {low : Value dst}
    (hzero : (!isZero) = (a != 0)) (hlow : low = intCast t dst a) :
    assign dst isZero low = castTo t dst a := by
  rw [assign, castTo, hzero, hlow]

theorem agrees_castValue (dst : IntType) (a : Value t) :
    Agrees (runUnary (.castValue dst) t a) (foldUnary (.castValue dst) t a) := by
  by_cases hdst : t = dst
  · subst hdst
    have hrun : runUnary (.castValue t) t a = some (a.setWidth t.bits) :=
      congrArg some (if_pos rfl)
    have hfold : foldUnary (.castValue t) t a = .installed (a.setWidth t.bits) := by
      simp only [foldUnary, if_true]
      rfl
    rw [hrun, hfold]
    exact agrees_installed_some.2 rfl
  have hne : UnaryOp.castValue dst ≠ .castValue t := fun h => hdst (UnaryOp.castValue.inj h).symm
  have hrun : runUnary (.castValue dst) t a = some (castTo t dst a) :=
    congrArg some (if_neg hdst)
  rw [hrun]
  rcases kinds t with ht | ht | rfl | ht
  · obtain ⟨hsigned, hbits, hu1, -⟩ := signed_facts ht
    have hhost : hostUnary t a (.castValue dst) = some (.int64 (a.signExtend 64)) := by
      rw [hostUnary, if_neg hu1, if_pos hsigned]
    rw [foldUnary_of_host (by simp) hne (by rcases ht with rfl | rfl <;> rfl) hhost]
    refine agrees_installed_some.2 (assign_eq_castTo ?_ ?_)
    · refine congrArg not (beq_congr ?_)
      rw [eq_zero_iff, toInt_signExtend_of_le hbits, eq_zero_iff]
    · rw [intCast, if_pos hsigned, signExtend, toInt_signExtend_of_le hbits]
      rfl
  · obtain ⟨hsigned, hbits, hu1, -, -⟩ := unsigned_facts ht
    have hnot : t.isSigned ≠ true := by rw [hsigned]; decide
    have hhost : hostUnary t a (.castValue dst) = some (.uint64 (a.setWidth 64)) := by
      rw [hostUnary, if_neg hu1, if_neg hnot]
    rw [foldUnary_of_host (by simp) hne (by rcases ht with rfl | rfl <;> rfl) hhost]
    refine agrees_installed_some.2 (assign_eq_castTo ?_ ?_)
    · refine congrArg not (beq_congr ?_)
      rw [← toNat_inj, toNat_setWidth_of_le hbits, ← toNat_inj]
      simp
    · rw [intCast, if_neg hnot]
      exact setWidth_setWidth (by omega)
  · have hhost : hostUnary .u1 a (.castValue dst) = some (.bool (a != 0)) := rfl
    rw [foldUnary_of_host (by simp) hne rfl hhost]
    have hbool : ∀ a : BitVec 1, ofBool (a != 0) = a := by decide
    have hcast : castTo .u1 dst a = a.setWidth dst.bits := if_neg (Ne.symm hdst)
    refine agrees_installed_some.2 ?_
    rw [hcast]
    exact congrArg (setWidth dst.bits) (hbool a)
  · rw [foldUnary_of_bad (by simp) hne ht]
    trivial

theorem abs_toDouble_eq_iff (x : ℤ) : |toDouble x| = |x| ↔ Representable 53 x := by
  rw [← round_eq_self_iff, toDouble, Int.abs_eq_natAbs, Int.abs_eq_natAbs]
  rcases lt_or_ge x 0 with h | h
  · rw [round_of_neg h]
    omega
  · rw [round_of_nonneg h]
    omega

theorem abs_inRange (ht : t = .i32 ∨ t = .i64) (h : a ≠ intMin t.bits) :
    -2 ^ (t.bits - 1) ≤ |a.toInt| ∧ |a.toInt| < 2 ^ (t.bits - 1) := by
  have hbounds := (inRange_signed (signed_facts ht).1).1 (toInt_inRange (signed_facts ht).1 a)
  have hmin : a.toInt ≠ -2 ^ (t.bits - 1) := fun heq => h ((eq_intMin_iff (bits_pos _) a).2 heq)
  rw [abs_lt, le_abs]
  omega

theorem runAbs_signed (ht : t = .i32 ∨ t = .i64) (h : a ≠ intMin t.bits) :
    runAbs t a = some (BitVec.ofInt t.bits |a.toInt|) := by
  rw [runAbs, if_pos ht, if_neg h]
  apply congrArg some
  apply eq_of_toInt_eq
  have hrange := abs_inRange ht h
  rw [toInt_ofInt_eq_self (bits_pos _) hrange.1 hrange.2]
  have hzero : (0 : Value t).toInt = 0 := toInt_zero
  simp only [slt_iff_toInt_lt, hzero]
  split
  · rename_i hneg
    rw [toInt_neg_of_ne_intMin h, abs_of_neg hneg]
  · rename_i hpos
    rw [abs_of_nonneg (not_lt.1 hpos)]

theorem agrees_abs_signed (ht : t = .i32 ∨ t = .i64) (a : Value t) :
    Agrees (runAbs t a) (typedConstant t (.float64 |toDouble (number t a)|)) ↔
      (t = .i64 → Representable 53 (number t a)) := by
  rw [number_signed (signed_facts ht).1]
  by_cases hmin : a = intMin t.bits
  · have hnone : runAbs t a = none := by rw [runAbs, if_pos ht, if_pos hmin]
    rw [hnone, (eq_intMin_iff (bits_pos _) a).1 hmin]
    refine iff_of_true (agrees_none (typedConstant_ne_trap _ _)) fun h => ?_
    subst h
    decide
  · have hrange : InRange t |a.toInt| := (inRange_signed (signed_facts ht).1).2 (abs_inRange ht hmin)
    rw [runAbs_signed ht hmin, agrees_float64 (.inl ht) hrange, abs_toDouble_eq_iff]
    rcases ht with rfl | rfl
    · refine iff_of_true (representable_of_natAbs_lt (by decide) ?_) (by rintro ⟨⟩)
      have hlt := (abs_inRange (.inl rfl) hmin).2
      rw [Int.abs_eq_natAbs] at hlt
      change (a.toInt.natAbs : ℤ) < 2 ^ 31 at hlt
      omega
    · exact ⟨fun h _ => h, fun h => h rfl⟩

theorem agrees_abs_iff (a : Value t) : Agrees (runUnary .abs t a) (foldUnary .abs t a) ↔
      (t = .i64 → Representable 53 (number t a)) := by
  rcases kinds t with ht | ht | rfl | ht
  · obtain ⟨hsigned, hbits, hne, -⟩ := signed_facts ht
    have hhost : hostUnary t a .abs = some (.float64 |toDouble (number t a)|) := if_neg hne
    rw [foldUnary_of_host (by simp) (by simp) (by rcases ht with rfl | rfl <;> rfl) hhost]
    exact agrees_abs_signed ht a
  · have hcontra : t ≠ .i64 := by rcases ht with rfl | rfl <;> decide
    have hnone : runUnary .abs t a = none := by
      rcases ht with rfl | rfl
      · rfl
      · rfl
    have hhost : hostUnary t a .abs = some (.float64 |toDouble (number t a)|) :=
      if_neg (unsigned_facts ht).2.2.1
    rw [foldUnary_of_host (by simp) (by simp) (by rcases ht with rfl | rfl <;> rfl) hhost, hnone]
    exact iff_of_true (agrees_none (typedConstant_ne_trap _ _)) fun h => absurd h hcontra
  · exact iff_of_true trivial fun h => (nomatch h)
  · rw [foldUnary_of_bad (by simp) (by simp) ht]
    refine iff_of_true trivial fun h => ?_
    subst h
    cases ht

end Parts

end Quadrants.Folding

/-!
When the constants that `ConstantFold` installs are the values that the generated code computes.
-/

namespace Quadrants.Folding

open Library.BinaryRounding

theorem agrees_plain_u1 (op : BinaryOp) (hop : op.isPlain = true) :
    ∀ a b : Value .u1, Agrees (runBinary op .u1 a b) (foldBinary op .u1 .u1 a b) := by
  cases op <;> cases hop <;> decide

theorem agrees_add_u1 :
    ∀ a b : Value .u1, Agrees (runBinary .add .u1 a b) (foldBinary .add .u1 .u1 a b) ↔
      ¬(number .u1 a = 1 ∧ number .u1 b = 1) := by
  decide

theorem agrees_div_u1 :
    ∀ a b : Value .u1, Agrees (runBinary .div .u1 a b) (foldBinary .div .u1 .u1 a b) ↔
      number .u1 b ≠ 0 := by
  decide

theorem agrees_floordiv_u1 :
    ∀ a b : Value .u1, Agrees (runBinary .floordiv .u1 a b) (foldBinary .floordiv .u1 .u1 a b) ↔
      number .u1 b ≠ 0 := by
  decide

theorem floorExact_u1 :
    ∀ a b : Value .u1, number .u1 b ≠ 0 → FloorExact (number .u1 a) (number .u1 b) := by
  decide

theorem agrees_mod_u1 (a b : Value .u1) :
    Agrees (runBinary .mod .u1 a b) (foldBinary .mod .u1 .u1 a b) := by
  trivial

theorem agrees_plain {op : BinaryOp} (hop : op.isPlain = true) (t : IntType) (a b : Value t) :
    Agrees (runBinary op t a b) (foldBinary op t t a b) := by
  rcases kinds t with ht | ht | rfl | ht
  · by_cases hintegral : op.isIntegral = true
    · rcases ht with rfl | rfl
      · exact agrees_integral_int32 hop hintegral a b
      · exact agrees_integral_int64 hop hintegral a b
    · exact agrees_signed ht a b (.inl hop) (Bool.not_eq_true _ ▸ hintegral)
  · exact agrees_unsigned ht a b (.inl hop)
  · exact agrees_plain_u1 op hop a b
  · rw [foldBinary_bad ht (by rintro rfl; cases hop)]
    trivial

variable (t : IntType)

variable (a b : Value t)

theorem agrees_add_iff : Agrees (runBinary .add t a b) (foldBinary .add t t a b) ↔
      BinaryHolds .add t (number t a) (number t b) := by
  rcases kinds t with ht | ht | rfl | ht
  · refine iff_of_true (agrees_signed ht a b (.inr rfl) rfl) fun h => ?_
    exact absurd h (signed_facts ht).2.2.1
  · refine iff_of_true (agrees_unsigned ht a b (.inr rfl)) fun h => ?_
    exact absurd h (unsigned_facts ht).2.2.1
  · rw [agrees_add_u1]
    exact ⟨fun h _ => h, fun h => h rfl⟩
  · rw [foldBinary_bad ht (by decide)]
    refine iff_of_true trivial fun h => ?_
    subst h
    cases ht

theorem agrees_div_iff : Agrees (runBinary .div t a b) (foldBinary .div t t a b) ↔
      BinaryHolds .div t (number t a) (number t b) := by
  rcases kinds t with ht | ht | rfl | ht
  · have hgood : t.isGood = true := by rcases ht with rfl | rfl <;> rfl
    rw [agrees_signed_div_iff ht]
    exact ⟨fun h _ => h, fun h => h hgood⟩
  · have hgood : t.isGood = true := by rcases ht with rfl | rfl <;> rfl
    have hnever := not_isOverflow ht a b
    rw [agrees_unsigned_div_iff ht]
    exact ⟨fun h _ => ⟨h, fun hover => hnever hover.2⟩, fun h => (h hgood).1⟩
  · rw [agrees_div_u1]
    exact ⟨fun h _ => ⟨h, fun hover => (nomatch hover.1)⟩, fun h => (h rfl).1⟩
  · rw [foldBinary_bad ht (by decide)]
    exact iff_of_true trivial fun h => absurd (ht.symm.trans h) (by decide)

theorem agrees_floordiv_iff : Agrees (runBinary .floordiv t a b) (foldBinary .floordiv t t a b) ↔
      BinaryHolds .floordiv t (number t a) (number t b) := by
  rcases kinds t with ht | ht | rfl | ht
  · have hgood : t.isGood = true := by rcases ht with rfl | rfl <;> rfl
    rw [agrees_signed_floordiv_iff ht]
    exact ⟨fun h _ => h, fun h => h hgood⟩
  · have hgood : t.isGood = true := by rcases ht with rfl | rfl <;> rfl
    have hnever := not_isOverflow ht a b
    rw [agrees_unsigned_floordiv_iff ht]
    constructor
    · exact fun h _ => ⟨h.1, fun hover => hnever hover.2, .inr h.2⟩
    · exact fun h => ⟨(h hgood).1, (h hgood).2.2.resolve_left hnever⟩
  · rw [agrees_floordiv_u1]
    constructor
    · exact fun h _ => ⟨h, fun hover => (nomatch hover.1), .inr (floorExact_u1 a b h)⟩
    · exact fun h => (h rfl).1
  · rw [foldBinary_bad ht (by decide)]
    exact iff_of_true trivial fun h => absurd (ht.symm.trans h) (by decide)

theorem agrees_mod_iff : Agrees (runBinary .mod t a b) (foldBinary .mod t t a b) ↔
      BinaryHolds .mod t (number t a) (number t b) := by
  rcases kinds t with ht | ht | rfl | ht
  · have hunsigned : ¬(t = .u32 ∨ t = .u64) := by rcases ht with rfl | rfl <;> decide
    rw [agrees_signed_mod_iff ht]
    exact ⟨fun h => ⟨fun _ => h, fun hcontra => absurd hcontra hunsigned⟩, fun h => h.1 ht⟩
  · have hsigned : ¬(t = .i32 ∨ t = .i64) := by rcases ht with rfl | rfl <;> decide
    rw [agrees_unsigned_mod_iff ht]
    exact ⟨fun h => ⟨fun hcontra => absurd hcontra hsigned, fun _ => h⟩, fun h => h.2 ht⟩
  · refine iff_of_true (agrees_mod_u1 a b) ⟨fun h => ?_, fun h => ?_⟩
    · exact absurd h (by decide)
    · exact absurd h (by decide)
  · rw [foldBinary_bad ht (by decide)]
    refine iff_of_true trivial ⟨fun h => ?_, fun h => ?_⟩
    · rcases h with rfl | rfl <;> cases ht
    · rcases h with rfl | rfl <;> cases ht

theorem agrees_unary_iff (op : UnaryOp) (t : IntType) (a : Value t) :
    Agrees (runUnary op t a) (foldUnary op t a) ↔ UnaryHolds op t (number t a) := by
  cases op with
  | abs =>
    rw [agrees_abs_iff]
    exact ⟨fun h _ => h, fun h => h rfl⟩
  | neg => exact iff_of_true (agrees_neg a) fun h => (nomatch h)
  | bitNot => exact iff_of_true (agrees_bitNot a) fun h => (nomatch h)
  | logicNot => exact iff_of_true (agrees_logicNot a) fun h => (nomatch h)
  | castValue dst => exact iff_of_true (agrees_castValue dst a) fun h => (nomatch h)
  | castBits dst => exact iff_of_true (agrees_castBits dst a) fun h => (nomatch h)
  | sgn | popcnt | clz | ffs =>
    rw [foldUnary_of_none (by simp) (by simp) rfl]
    exact iff_of_true trivial fun h => (nomatch h)

theorem agrees_binary_iff (op : BinaryOp) (t : IntType) (a b : Value t) :
    Agrees (runBinary op t a b) (foldBinary op t t a b) ↔
      BinaryHolds op t (number t a) (number t b) := by
  cases op with
  | add => exact agrees_add_iff t a b
  | div => exact agrees_div_iff t a b
  | floordiv => exact agrees_floordiv_iff t a b
  | mod => exact agrees_mod_iff t a b
  | pow => exact agrees_pow_iff t t a b
  | mul | sub | cmpLt | cmpLe | cmpGt | cmpGe | cmpEq | cmpNe | max | min | bitAnd | bitOr | bitXor
  | bitShl | bitShr | bitSar | logicalAnd | logicalOr =>
    exact iff_of_true (agrees_plain rfl t a b) trivial

/-- A statement that `ConstantFold` visits, with its constant operands. Only `pow` has operands of
two types after type promotion. -/
inductive Foldable where
  | binary (op : BinaryOp) (t : IntType) (a b : Value t)
  | power (t t' : IntType) (a : Value t) (b : Value t')
  | unary (op : UnaryOp) (t : IntType) (a : Value t)

def Foldable.FoldAgrees : Foldable → Prop
  | .binary op t a b => Agrees (runBinary op t a b) (foldBinary op t t a b)
  | .power t t' a b => Agrees (transformPow t t' a b) (foldBinary .pow t t' a b)
  | .unary op t a => Agrees (runUnary op t a) (foldUnary op t a)

def Foldable.Holds : Foldable → Prop
  | .binary op t a b => BinaryHolds op t (number t a) (number t b)
  | .power t t' a b => PowHolds t t' (number t a) (number t' b)
  | .unary op t a => UnaryHolds op t (number t a)

/-- Folding does not stop the process and installs the right constant if and only if the operands
are not among the exceptions of the operation. -/
theorem fold_agrees_iff (s : Foldable) : s.FoldAgrees ↔ s.Holds := by
  cases s with
  | binary op t a b => exact agrees_binary_iff op t a b
  | power t t' a b => exact agrees_pow_iff t t' a b
  | unary op t a => exact agrees_unary_iff op t a

/-- `-7 // 2` is folded to `-3`, and `1 / 0` is divided on the host. -/
theorem fold_not_agrees : foldBinary .floordiv .i32 .i32 (-7) 2 = .installed (-3) ∧
    runBinary .floordiv .i32 (-7) 2 = some (-4 : Value .i32) ∧
    ¬(Foldable.binary .floordiv .i32 (-7) 2).FoldAgrees ∧
    foldBinary .div .i32 .i32 1 0 = .trap ∧ ¬(Foldable.binary .div .i32 1 0).FoldAgrees := by
  have hfold : foldBinary .floordiv .i32 .i32 (-7) 2 = .installed (-3) := by decide
  have hrun : runBinary .floordiv .i32 (-7) 2 = some (-4 : Value .i32) := by rfl
  have hdiv : foldBinary .div .i32 .i32 1 0 = .trap := by decide
  refine ⟨hfold, hrun, ?_, hdiv, ?_⟩
  · intro h
    have heq : (-3 : Value .i32) = -4 := h _ hrun
    exact absurd heq (by decide)
  · intro h
    exact h

end Quadrants.Folding
