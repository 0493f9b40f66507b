import Quadrants.Folding.Widths

/-!
The operations that are folded right for all operands.
-/

namespace Quadrants.Folding

def BinaryOp.isPlain : BinaryOp → Bool
  | .floordiv | .div | .mod | .pow | .add => false
  | _ => true

section Constants

variable {dst : IntType}

theorem typedConstant_int32 (h : dst ≠ .u1) (v : BitVec 32) :
    typedConstant dst (.int32 v) = .installed (v.signExtend dst.bits) := by
  rw [typedConstant, assign, if_neg h]

theorem typedConstant_int64 (h : dst ≠ .u1) (v : BitVec 64) :
    typedConstant dst (.int64 v) = .installed (v.signExtend dst.bits) := by
  rw [typedConstant, assign, if_neg h]

theorem typedConstant_uint64 (h : dst ≠ .u1) (v : BitVec 64) :
    typedConstant dst (.uint64 v) = .installed (v.setWidth dst.bits) := by
  rw [typedConstant, assign, if_neg h]

theorem agrees_bool {x y : Bool} (h : x = y) :
    @Agrees .u1 (some (BitVec.ofBool y)) (typedConstant .u1 (.bool x)) := by
  rw [h]
  exact fun v hv => Option.some.inj hv

end Constants

theorem runSar_casts {u t : IntType} (hbits : t.bits = u.bits) (hu : u.isSigned = false)
    (a b : Value t) : (runSar u (a.setWidth _) (b.setWidth _)).map (·.setWidth t.bits) =
      if b.toNat < t.bits then some (a >>> b.toNat) else none := by
  have hnot : u.isSigned ≠ true := by rw [hu]; decide
  rw [runSar, BitVec.toNat_setWidth_of_le hbits.le, if_neg hnot]
  by_cases h : b.toNat < t.bits
  · rw [if_pos h, if_pos (hbits ▸ h)]
    refine congrArg some (BitVec.eq_of_toNat_eq ?_)
    rw [BitVec.toNat_setWidth_of_le hbits.ge, BitVec.toNat_ushiftRight, BitVec.toNat_ushiftRight,
      BitVec.toNat_setWidth_of_le hbits.le]
  · rw [if_neg h, if_neg (hbits ▸ h)]
    rfl

theorem demoteBitShr_eq {t : IntType} (ht : t.isGood = true) (a b : Value t) :
    demoteBitShr t a b = if b.toNat < t.bits then some (a >>> b.toNat) else none := by
  cases t with
  | i32 => exact @runSar_casts .u32 .i32 rfl rfl a b
  | i64 => exact @runSar_casts .u64 .i64 rfl rfl a b
  | u1 | u32 | u64 => exact runSar_casts rfl rfl a b
  | i8 | i16 | u8 | u16 => cases ht

section Signed

variable {t : IntType} (ht : t = .i32 ∨ t = .i64) (a b : Value t)

include ht

theorem signed_facts : t.isSigned = true ∧ t.bits ≤ 64 ∧ t ≠ .u1 ∧ hasMinMax t = true := by
  rcases ht with rfl | rfl <;> decide

theorem agrees_int64 {l : BitVec 64} {v : Value t} (h : l.setWidth t.bits = v) :
    Agrees (some v) (typedConstant t (.int64 l)) := by
  obtain ⟨-, hbits, hne, -⟩ := signed_facts ht
  rw [typedConstant_int64 hne, agrees_installed_some, BitVec.signExtend_eq_setWidth_of_le _ hbits, h]

theorem setWidth_ite_signExtend {c : Bool} (l r : Value t) :
    (if c then l.signExtend 64 else r.signExtend 64).setWidth t.bits = if c then l else r := by
  obtain ⟨-, hbits, -, -⟩ := signed_facts ht
  split
  · exact low_signExtend hbits l
  · exact low_signExtend hbits r

theorem agrees_signed {op : BinaryOp} (hop : op.isPlain = true ∨ op = .add)
    (hintegral : op.isIntegral = false) : Agrees (runBinary op t a b) (foldBinary op t t a b) := by
  obtain ⟨hsigned, hbits, hne, hminmax⟩ := signed_facts ht
  have hla := low_signExtend hbits a
  have hlb := low_signExtend hbits b
  by_cases hlogical : op = .logicalAnd ∨ op = .logicalOr
  · rcases hlogical with rfl | rfl <;> exact trivial
  rw [not_or] at hlogical
  have hpow : op ≠ .pow := by
    rintro rfl
    exact hop.elim (fun h => nomatch h) (fun h => nomatch h)
  rw [foldBinary_signed ht hintegral hpow hlogical.1 hlogical.2]
  have hslt := slt_signExtend hbits
  cases op with
  | mul =>
    exact agrees_int64 ht (by rw [BitVec.setWidth_mul _ _ hbits, hla, hlb])
  | add =>
    exact agrees_int64 ht (by rw [BitVec.setWidth_add _ _ hbits, hla, hlb])
  | sub =>
    refine agrees_int64 ht ?_
    rw [BitVec.sub_eq_add_neg, BitVec.setWidth_add _ _ hbits, BitVec.setWidth_neg_of_le hbits,
      hla, hlb, ← BitVec.sub_eq_add_neg]
  | max =>
    change Agrees (if hasMinMax t then some (if less t b a then a else b) else none)
      (typedConstant t (.int64 (if (a.signExtend 64).slt (b.signExtend 64) then b.signExtend 64
        else a.signExtend 64)))
    rw [if_pos hminmax]
    refine agrees_int64 ht ?_
    rw [setWidth_ite_signExtend ht, hslt, less, if_pos hsigned, max_slt]
  | min =>
    change Agrees (if hasMinMax t then some (if less t a b then a else b) else none)
      (typedConstant t (.int64 (if (b.signExtend 64).slt (a.signExtend 64) then b.signExtend 64
        else a.signExtend 64)))
    rw [if_pos hminmax]
    refine agrees_int64 ht ?_
    rw [setWidth_ite_signExtend ht, hslt, less, if_pos hsigned, min_slt]
  | cmpLt => exact agrees_bool (by rw [hslt, less, if_pos hsigned])
  | cmpLe => exact agrees_bool (by rw [sle_eq_not_slt, hslt, less, if_pos hsigned])
  | cmpGt => exact agrees_bool (by rw [hslt, less, if_pos hsigned])
  | cmpGe => exact agrees_bool (by rw [sle_eq_not_slt, hslt, less, if_pos hsigned])
  | cmpEq => exact agrees_bool (beq_congr (signExtend_eq_iff hbits a b))
  | cmpNe => exact agrees_bool (congrArg not (beq_congr (signExtend_eq_iff hbits a b)))
  | floordiv | div | pow => exact absurd hop (by decide)
  | mod | bitAnd | bitOr | bitXor | bitShl | bitShr | bitSar => cases hintegral
  | logicalAnd => exact absurd rfl hlogical.1
  | logicalOr => exact absurd rfl hlogical.2

end Signed

section Integral

variable {op : BinaryOp} (hop : op.isPlain = true) (hintegral : op.isIntegral = true)

include hop hintegral

theorem agrees_integral {t : IntType} (ht : t = .i32 ∨ t = .i64) {int : BitVec t.bits → HostValue}
    (hint : ∀ v, typedConstant t (int v) = .installed v) (a b : Value t) :
    @Agrees (op.retType t) (runBinary op t a b) ((hostSigned int a b op).install _) := by
  obtain ⟨hsigned, hbits, -, -⟩ := signed_facts ht
  have hinstalled : ∀ v, Agrees (some v) (typedConstant t (int v)) := by
    intro v
    rw [hint, agrees_installed_some]
  have hamount : b.toNat < t.bits → (b.setWidth 32).toNat = b.toNat := by
    intro h
    rw [BitVec.toNat_setWidth]
    exact Nat.mod_eq_of_lt (by omega)
  cases op with
  | bitAnd => exact hinstalled (a &&& b)
  | bitOr => exact hinstalled (a ||| b)
  | bitXor => exact hinstalled (a ^^^ b)
  | bitShl => exact agrees_shift id fun _ => hinstalled _
  | bitShr =>
    change Agrees (demoteBitShr t a b) _
    rw [demoteBitShr_eq (by rcases ht with rfl | rfl <;> decide)]
    refine agrees_shift (fun h => ?_) fun h => ?_
    · rwa [hamount h]
    · rw [hamount h]
      exact hinstalled _
  | bitSar =>
    change Agrees (runSar t a b) _
    rw [runSar, if_pos hsigned]
    refine agrees_shift (fun h => ?_) fun h => ?_
    · rwa [hamount h]
    · rw [hamount h, BitVec.not_sshiftRight_not, ite_self]
      exact hinstalled _
  | mod => cases hop
  | mul | add | sub | floordiv | div | cmpLt | cmpLe | cmpGt | cmpGe | cmpEq | cmpNe | max | min
  | pow | logicalAnd | logicalOr => cases hintegral

theorem agrees_integral_int32 (a b : Value .i32) :
    Agrees (runBinary op .i32 a b) (foldBinary op .i32 .i32 a b) := by
  rw [foldBinary_int32 hintegral]
  refine agrees_integral hop hintegral (.inl rfl) (fun v => ?_) a b
  exact (typedConstant_int32 (by decide) v).trans
    (congrArg Outcome.installed (BitVec.signExtend_eq v))

theorem agrees_integral_int64 (a b : Value .i64) :
    Agrees (runBinary op .i64 a b) (foldBinary op .i64 .i64 a b) := by
  rw [foldBinary_int64 hintegral]
  refine agrees_integral hop hintegral (.inr rfl) (fun v => ?_) a b
  exact (typedConstant_int64 (by decide) v).trans
    (congrArg Outcome.installed (BitVec.signExtend_eq v))

end Integral

section Unsigned

variable {t : IntType} (ht : t = .u32 ∨ t = .u64) (a b : Value t)

include ht

theorem unsigned_facts :
    t.isSigned = false ∧ t.bits ≤ 64 ∧ t ≠ .u1 ∧ hasMinMax t = true ∧ toUnsigned t = t := by
  rcases ht with rfl | rfl <;> decide

theorem agrees_uint64 {l : BitVec 64} {v : Value t} (h : l.setWidth t.bits = v) :
    Agrees (some v) (typedConstant t (.uint64 l)) := by
  obtain ⟨-, -, hne, -, -⟩ := unsigned_facts ht
  rw [typedConstant_uint64 hne, agrees_installed_some, h]

theorem setWidth_ite_setWidth {c : Bool} (l r : Value t) :
    (if c then l.setWidth 64 else r.setWidth 64).setWidth t.bits = if c then l else r := by
  obtain ⟨-, hbits, -, -, -⟩ := unsigned_facts ht
  split
  · exact low_setWidth hbits l
  · exact low_setWidth hbits r

theorem setWidth_ushiftRight (n : ℕ) : ((a.setWidth 64) >>> n).setWidth t.bits = a >>> n := by
  obtain ⟨-, hbits, -, -, -⟩ := unsigned_facts ht
  apply BitVec.eq_of_toNat_eq
  rw [BitVec.toNat_setWidth, BitVec.toNat_ushiftRight, BitVec.toNat_setWidth_of_le hbits]
  refine Nat.mod_eq_of_lt (lt_of_le_of_lt ?_ a.isLt)
  rw [Nat.shiftRight_eq_div_pow]
  exact Nat.div_le_self _ _

theorem toNat_shift_amount (h : b.toNat < t.bits) :
    ((b.setWidth 64).setWidth 32).toNat = b.toNat := by
  obtain ⟨-, hbits, -, -, -⟩ := unsigned_facts ht
  rw [BitVec.toNat_setWidth, BitVec.toNat_setWidth_of_le hbits]
  exact Nat.mod_eq_of_lt (by omega)

theorem agrees_unsigned {op : BinaryOp} (hop : op.isPlain = true ∨ op = .add) :
    Agrees (runBinary op t a b) (foldBinary op t t a b) := by
  obtain ⟨hsigned, hbits, hne, hminmax, hunsigned⟩ := unsigned_facts ht
  have hnot : t.isSigned ≠ true := by rw [hsigned]; decide
  have hla := low_setWidth hbits a
  have hlb := low_setWidth hbits b
  by_cases hlogical : op = .logicalAnd ∨ op = .logicalOr
  · rcases hlogical with rfl | rfl <;> exact trivial
  rw [not_or] at hlogical
  have hpow : op ≠ .pow := by
    rintro rfl
    exact hop.elim (fun h => nomatch h) (fun h => nomatch h)
  rw [foldBinary_unsigned ht hpow hlogical.1 hlogical.2]
  have hult := ult_setWidth hbits
  cases op with
  | mul =>
    exact agrees_uint64 ht (by rw [BitVec.setWidth_mul _ _ hbits, hla, hlb])
  | add =>
    exact agrees_uint64 ht (by rw [BitVec.setWidth_add _ _ hbits, hla, hlb])
  | sub =>
    refine agrees_uint64 ht ?_
    rw [BitVec.sub_eq_add_neg, BitVec.setWidth_add _ _ hbits, BitVec.setWidth_neg_of_le hbits,
      hla, hlb, ← BitVec.sub_eq_add_neg]
  | max =>
    change Agrees (if hasMinMax t then some (if less t b a then a else b) else none)
      (typedConstant t (.uint64 (if (a.setWidth 64).ult (b.setWidth 64) then b.setWidth 64
        else a.setWidth 64)))
    rw [if_pos hminmax]
    refine agrees_uint64 ht ?_
    rw [setWidth_ite_setWidth ht, hult, less, if_neg hnot, max_ult]
  | min =>
    change Agrees (if hasMinMax t then some (if less t a b then a else b) else none)
      (typedConstant t (.uint64 (if (b.setWidth 64).ult (a.setWidth 64) then b.setWidth 64
        else a.setWidth 64)))
    rw [if_pos hminmax]
    refine agrees_uint64 ht ?_
    rw [setWidth_ite_setWidth ht, hult, less, if_neg hnot, min_ult]
  | cmpLt => exact agrees_bool (by rw [hult, less, if_neg hnot])
  | cmpLe => exact agrees_bool (by rw [ule_eq_not_ult, hult, less, if_neg hnot])
  | cmpGt => exact agrees_bool (by rw [hult, less, if_neg hnot])
  | cmpGe => exact agrees_bool (by rw [ule_eq_not_ult, hult, less, if_neg hnot])
  | cmpEq => exact agrees_bool (beq_congr (setWidth_eq_iff hbits a b))
  | cmpNe => exact agrees_bool (congrArg not (beq_congr (setWidth_eq_iff hbits a b)))
  | bitAnd => exact agrees_uint64 ht (by rw [BitVec.setWidth_and, hla, hlb])
  | bitOr => exact agrees_uint64 ht (by rw [BitVec.setWidth_or, hla, hlb])
  | bitXor => exact agrees_uint64 ht (by rw [BitVec.setWidth_xor, hla, hlb])
  | bitShl =>
    refine agrees_shift (fun h => ?_) fun h => agrees_uint64 ht ?_
    · rw [BitVec.toNat_setWidth_of_le hbits]
      omega
    · rw [BitVec.toNat_setWidth_of_le hbits, BitVec.setWidth_shiftLeft_of_le hbits, hla]
  | bitShr =>
    change Agrees (demoteBitShr t a b) _
    rw [demoteBitShr_eq (by rcases ht with rfl | rfl <;> decide)]
    refine agrees_shift (fun h => ?_) fun h => agrees_uint64 ht ?_
    · rw [toNat_shift_amount ht b h]
      omega
    · rw [toNat_shift_amount ht b h, setWidth_ushiftRight ht]
  | bitSar =>
    change Agrees (runSar t a b) _
    rw [runSar, if_neg hnot]
    refine agrees_shift (fun h => ?_) fun h => agrees_uint64 ht ?_
    · rw [toNat_shift_amount ht b h]
      omega
    · rw [toNat_shift_amount ht b h, setWidth_ushiftRight ht]
  | floordiv | div | mod | pow => exact absurd hop (by decide)
  | logicalAnd => exact absurd rfl hlogical.1
  | logicalOr => exact absurd rfl hlogical.2

end Unsigned

end Quadrants.Folding
