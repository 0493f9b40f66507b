import Quadrants.Folding.Powers
import Quadrants.Simplify.Casts

/-!
When the first of two casts can be left out.
-/

namespace Quadrants.Simplify

open Folding Library.BinaryRounding BitVec Option Int

variable {d1 d2 : DataType} {f : FloatType} {fastMath : Bool} {r z : ℤ} {t u : IntType}
variable {x : RealValue}

theorem convert_of_ne (hf : f ≠ .f16) (z : ℤ) :
    convert f (.finite z) = .finite (round f.precision z) := by
  rw [convert, if_neg fun h => hf h.1]

theorem toFloat_of_ne (hf : f ≠ .f16) (x : RealValue) : toFloat f x = convert f x :=
  if_neg hf

theorem toFloat_f16 (x : RealValue) : toFloat .f16 x = convert .f16 (convert .f32 x) :=
  if_pos rfl

theorem convert_f16_cases (z : ℤ) :
    65504 < (round 11 z).natAbs ∧ convert .f16 (.finite z) = .infinite (decide (z < 0)) ∨
      (round 11 z).natAbs ≤ 65504 ∧ convert .f16 (.finite z) = .finite (round 11 z) := by
  by_cases hlarge : 65504 < (round 11 z).natAbs
  · exact .inl ⟨hlarge, if_pos ⟨rfl, hlarge⟩⟩
  · exact .inr ⟨not_lt.1 hlarge, if_neg fun h => hlarge h.2⟩

theorem RealValue.Fits.f32 (h : x.Fits .f16) : x.Fits .f32 := by
  cases x with
  | infinite negative => rfl
  | finite z =>
    rw [Fits, convert_of_ne (by decide)]
    rcases convert_f16_cases z with ⟨-, hz⟩ | ⟨-, hz⟩
    · rw [Fits, hz] at h
      cases h
    · rw [Fits, hz, RealValue.finite.injEq, round_eq_self_iff] at h
      rw [RealValue.finite.injEq, round_eq_self_iff]
      exact h.mono (by decide)

theorem toFloat_of_fits (h : x.Fits f) : toFloat f x = x := by
  by_cases hf : f = .f16
  · subst hf
    rw [toFloat_f16, h.f32]
    exact h
  · rw [toFloat_of_ne hf]
    exact h

theorem convert_f16_of_large (h : 2 ^ 53 ≤ z.natAbs) :
    convert .f16 (.finite z) = .infinite (decide (z < 0)) := by
  have hround : 2 ^ 53 ≤ (round 11 z).natAbs := by
    rw [natAbs_round]
    exact two_pow_le_roundNat (by decide) h
  rcases convert_f16_cases z with ⟨-, hz⟩ | ⟨hsmall, -⟩
  · exact hz
  · omega

theorem round_neg_iff {p : ℕ} (hp : 0 < p) : round p z < 0 ↔ z < 0 := by
  rw [← sign_eq_neg_one_iff_neg, sign_round hp, sign_eq_neg_one_iff_neg]

theorem toFloat_f16_f64 (x : RealValue) : toFloat .f16 (toFloat .f64 x) = toFloat .f16 x := by
  cases x with
  | infinite negative => rfl
  | finite z =>
    change convert .f16 (.finite (round 24 (round 53 z))) = convert .f16 (.finite (round 24 z))
    rcases Nat.lt_or_ge z.natAbs (2 ^ 53) with hsmall | hlarge
    · rw [round_of_natAbs_lt (by decide) hsmall]
    · have hstill : 2 ^ 53 ≤ (round 53 z).natAbs := by
        rw [natAbs_round]
        exact two_pow_le_roundNat (by decide) hlarge
      have hshort : ∀ y : ℤ, 2 ^ 53 ≤ y.natAbs → 2 ^ 53 ≤ (round 24 y).natAbs := by
        intro y hy
        rw [natAbs_round]
        exact two_pow_le_roundNat (by decide) hy
      rw [convert_f16_of_large (hshort _ hstill), convert_f16_of_large (hshort _ hlarge)]
      simp only [round_neg_iff (p := 24) (by decide), round_neg_iff (p := 53) (by decide)]

theorem toFloat_f16_f32 (x : RealValue) : toFloat .f16 (toFloat .f32 x) = toFloat .f16 x := by
  exact congrArg (convert .f16) (convert_fits .f32 x)

theorem toFloat_f32_f64_iff (x : RealValue) : toFloat .f32 (toFloat .f64 x) = toFloat .f32 x ↔
      ∀ z, x = .finite z → ¬RoundsTwice 24 53 z.natAbs := by
  cases x with
  | infinite negative => exact ⟨fun _ _ h => (nomatch h), fun _ => rfl⟩
  | finite z =>
    rw [toFloat_of_ne (by decide), toFloat_of_ne (by decide), toFloat_of_ne (by decide),
      convert_of_ne (by decide), convert_of_ne (by decide), convert_of_ne (by decide),
      RealValue.finite.injEq]
    constructor
    · rintro h _ ⟨⟩
      exact (round_round_eq_iff (by decide) (by decide)).1 h
    · exact fun h => (round_round_eq_iff (by decide) (by decide)).2 (h z rfl)

theorem isNonzero_toFloat (f : FloatType) (x : RealValue) :
    isNonzero (toFloat f x) = isNonzero x := by
  have hconvert : ∀ g y, isNonzero (convert g y) = isNonzero y := by
    intro g y
    cases y with
    | infinite negative => rfl
    | finite z =>
      rw [convert]
      split
      · next h =>
          have hz : z ≠ 0 := by
            rintro rfl
            rw [(round_eq_zero_iff g.precision_pos).2 rfl] at h
            exact absurd h.2 (by decide)
          exact (bne_iff_ne.2 hz).symm
      · rw [isNonzero, isNonzero, Bool.eq_iff_iff, bne_iff_ne, bne_iff_ne, ne_eq,
          round_eq_zero_iff g.precision_pos]
  rw [toFloat]
  split
  · rw [hconvert, hconvert]
  · exact hconvert f x

theorem toFloat_error (h : toFloat f (.finite z) = .finite r) : 4 * (r - z).natAbs ≤ z.natAbs := by
  have herror : ∀ p, 11 ≤ p → ∀ y : ℤ, 2048 * (round p y - y).natAbs ≤ y.natAbs := by
    intro p hp y
    calc 2048 * (round p y - y).natAbs = 2 ^ 11 * (round p y - y).natAbs := rfl
      _ ≤ 2 ^ p * (round p y - y).natAbs :=
          Nat.mul_le_mul_right _ (Nat.pow_le_pow_right (by decide) hp)
      _ ≤ y.natAbs := round_error (by omega) y
  by_cases hf : f = .f16
  · subst hf
    rw [toFloat_f16, convert_of_ne (by decide)] at h
    rcases convert_f16_cases (round FloatType.f32.precision z) with ⟨-, hz⟩ | ⟨-, hz⟩
    · rw [hz] at h
      cases h
    · rw [hz, RealValue.finite.injEq] at h
      have hfirst := herror FloatType.f32.precision (by decide) z
      have hsecond := herror 11 (by decide) (round FloatType.f32.precision z)
      omega
  · rw [toFloat_of_ne hf, convert_of_ne hf, RealValue.finite.injEq] at h
    have hfirst := herror f.precision (by cases f <;> decide) z
    omega

section Numbers

variable {t : IntType}

variable {v : Value t}

theorem number_eq_zero_iff : number t v = 0 ↔ v = 0 := by
  have hzero : number t 0 = 0 := by cases t <;> rfl
  constructor
  · intro h
    rw [← ofInt_number v, ← ofInt_number (0 : Value t), h, hzero]
  · rintro rfl
    exact hzero

theorem intCast_eq (t dst : IntType) (v : Value t) :
    intCast t dst v = BitVec.ofInt dst.bits (number t v) := by
  rw [intCast, number]
  split
  · rfl
  · rw [ofInt_natCast]
    apply eq_of_toNat_eq
    rw [toNat_setWidth, toNat_ofNat]

theorem number_ofInt_emod (t : IntType) (z : ℤ) :
    (2 : ℤ) ^ t.bits ∣ number t (BitVec.ofInt t.bits z) - z := by
  rw [← ofInt_eq_iff_dvd, ofInt_number]

theorem isNonzero_num : (v != 0) = isNonzero (Scalar.int t v).num := by
  rw [Scalar.num, isNonzero, Bool.eq_iff_iff, bne_iff_ne, bne_iff_ne, ne_eq, ne_eq,
    number_eq_zero_iff]

end Numbers

theorem castValue_real (f : FloatType) (s : Scalar) :
    castValue (.real f) s = some (.real f (toFloat f s.num) (toFloat_fits f s.num)) := by
  cases s with
  | int t v => rfl
  | real g x h =>
    rw [castValue]
    split
    · next hg =>
        subst hg
        have hx : toFloat g (Scalar.real g x h).num = x := toFloat_of_fits h
        simp only [hx]
    · rfl

theorem castValue_int_int (t dst : IntType) (v : Value t) : castValue (.int dst) (.int t v) =
      some (.int dst (if t = dst then v.setWidth dst.bits
        else if dst = .u1 then (ofBool (v != 0)).setWidth dst.bits
        else intCast t dst v)) :=
  rfl

theorem castValue_bool (s : Scalar) :
    castValue (.int .u1) s = some (.int .u1 (ofBool (isNonzero s.num))) := by
  cases s with
  | int t v =>
    rw [castValue_int_int, ← isNonzero_num]
    split
    · next ht =>
        subst ht
        have hbit : ∀ w : BitVec 1, w.setWidth 1 = ofBool (w != 0) := by decide
        exact congrArg (fun w => some (Scalar.int .u1 w)) (hbit v)
    · rfl
  | real f x h => rfl

theorem castValue_int (ht : t ≠ .u1) (t' : IntType) (v : Value t') :
    castValue (.int t) (.int t' v) = some (.int t (BitVec.ofInt t.bits (number t' v))) := by
  rw [castValue_int_int]
  split
  · next heq =>
      subst heq
      rw [ofInt_number, setWidth_eq]
  · rw [intCast_eq]

theorem castValue_float (ht : t ≠ .u1)
    (h : x.Fits f) {v : Scalar} : castValue (.int t) (.real f x h) = some v ↔
      ∃ z, x = .finite z ∧ InRange t z ∧ v = .int t (BitVec.ofInt t.bits z) := by
  cases x with
  | infinite negative =>
    rw [castValue, floatToInt, if_neg ht]
    constructor
    · exact fun hv => nomatch hv
    · rintro ⟨z, ⟨⟩, -⟩
  | finite z =>
    rw [castValue, floatToInt, if_neg ht]
    simp only [RealValue.finite.injEq]
    constructor
    · intro hv
      split at hv
      · next hz => exact ⟨z, rfl, hz, (Option.some.inj hv).symm⟩
      · cases hv
    · rintro ⟨_, rfl, hz, rfl⟩
      rw [if_pos hz]
      rfl

/-- If `second_cast(first_cast(a))` has a value, then `second_cast(a)` has the same one. -/
def ChainPreserved (d1 d2 : DataType) (s : Scalar) : Prop :=
  ∀ v, (castValue d1 s).bind (castValue d2) = some v → castValue d2 s = some v

theorem chainPreserved_of_eq {s : Scalar}
    (h : (castValue d1 s).bind (castValue d2) = castValue d2 s) : ChainPreserved d1 d2 s :=
  fun _ hv => h ▸ hv

theorem chain_real_real (f g : FloatType) (s : Scalar) :
    ChainPreserved (.real f) (.real g) s ↔ toFloat g (toFloat f s.num) = toFloat g s.num := by
  rw [ChainPreserved, castValue_real, bind_some, castValue_real, castValue_real]
  constructor
  · intro h
    exact (Scalar.real.inj (Option.some.inj (h _ rfl))).2.symm
  · rintro h _ ⟨⟩
    change some (Scalar.real g (toFloat g s.num) _) =
      some (Scalar.real g (toFloat g (toFloat f s.num)) _)
    simp only [h]

theorem chain_real_bool (f : FloatType) (s : Scalar) : ChainPreserved (.real f) (.int .u1) s := by
  apply chainPreserved_of_eq
  rw [castValue_real, bind_some, castValue_bool, castValue_bool, Scalar.num, isNonzero_toFloat]

theorem ofInt_eq_iff_of_toFloat (h : toFloat f (.finite z) = .finite r) (hr : InRange t r) :
    BitVec.ofInt t.bits z = BitVec.ofInt t.bits r ↔ z = r := by
  constructor
  · intro heq
    by_contra hne
    have herror := toFloat_error h
    have hdvd := natAbs_dvd_natAbs.2 (ofInt_eq_iff_dvd.1 heq.symm)
    have hlarge := Nat.le_of_dvd (natAbs_pos.2 (by omega)) hdvd
    change 2 ^ t.bits ≤ _ at hlarge
    have hbound : r.natAbs ≤ 2 ^ t.bits := by
      have hpow : ((2 ^ t.bits : ℕ) : ℤ) = 2 ^ t.bits := by push_cast; rfl
      have hhalf : (2 : ℤ) ^ (t.bits - 1) ≤ 2 ^ t.bits :=
        pow_le_pow_right₀ (by decide) (Nat.sub_le _ _)
      rw [InRange, IntType.minValue, IntType.maxValue] at hr
      split at hr <;> omega
    omega
  · rintro rfl
    rfl

theorem chain_real_int (ht : t ≠ .u1) (s : Scalar) : ChainPreserved (.real f) (.int t) s ↔
      ∀ r, toFloat f s.num = .finite r → InRange t r → s.num = .finite r := by
  rw [ChainPreserved, castValue_real, bind_some]
  simp only [castValue_float ht]
  constructor
  · intro h r hr hrange
    have hsame := h _ ⟨r, hr, hrange, rfl⟩
    cases s with
    | int t' v =>
      rw [castValue_int ht, Option.some.injEq, Scalar.int.injEq] at hsame
      exact congrArg RealValue.finite
        ((ofInt_eq_iff_of_toFloat hr hrange).1 (eq_of_heq hsame.2))
    | real g x hx =>
      obtain ⟨z, hz, hzrange, heq⟩ := (castValue_float ht hx).1 hsame
      have hnumber := congrArg (number t) (eq_of_heq (Scalar.int.inj heq).2)
      rw [number_ofInt hrange, number_ofInt hzrange] at hnumber
      rw [hnumber]
      exact hz
  · rintro h v ⟨r, hr, hrange, rfl⟩
    have hnum := h r hr hrange
    cases s with
    | int t' v =>
      rw [castValue_int ht, RealValue.finite.inj hnum]
    | real g x hx => exact (castValue_float ht hx).2 ⟨r, hnum, hrange, rfl⟩

theorem chain_int_bool (ht : t ≠ .u1) (s : Scalar) :
    ChainPreserved (.int t) (.int .u1) s ↔ ChainHolds (.int t) (.int .u1) s := by
  have hholds : ChainHolds (.int t) (.int .u1) s ↔
      ∀ t' v, s = .int t' v → (2 : ℤ) ^ t.bits ∣ number t' v → number t' v = 0 := by
    cases s with
    | int t' v =>
      have hint : ChainHolds (.int t) (.int .u1) (.int t' v) ↔
          ((2 : ℤ) ^ t.bits ∣ number t' v → number t' v = 0) := by
        cases t <;> first | exact absurd rfl ht | exact Iff.rfl
      rw [hint]
      constructor
      · rintro h _ _ ⟨⟩
        exact h
      · exact fun h => h t' v rfl
    | real f x hx =>
      have hreal : ChainHolds (.int t) (.int .u1) (.real f x hx) ↔ True := by
        cases t <;> first | exact absurd rfl ht | exact Iff.rfl
      rw [hreal]
      exact ⟨fun _ _ _ h => (nomatch h), fun _ => trivial⟩
  rw [hholds, ChainPreserved]
  cases s with
  | int t' v =>
    rw [castValue_int ht, bind_some, castValue_bool, castValue_bool]
    have hzero : number t (BitVec.ofInt t.bits (number t' v)) = 0 ↔
        (2 : ℤ) ^ t.bits ∣ number t' v := by
      rw [number_eq_zero_iff, show (0 : Value t) = BitVec.ofInt t.bits 0 from rfl,
        ofInt_eq_iff_dvd, sub_zero]
    constructor
    · rintro h _ _ ⟨⟩ hdvd
      have hbool := (Scalar.int.inj (Option.some.inj (h _ rfl))).2
      have hsame := ofBool_eq_iff_eq.1 (eq_of_heq hbool)
      rw [Scalar.num, Scalar.num, isNonzero, hzero.2 hdvd] at hsame
      exact not_not.1 fun hne => absurd (bne_iff_ne.2 hne) (by rw [hsame]; decide)
    · rintro h _ ⟨⟩
      have hsame : number t' v = 0 ↔ number t (BitVec.ofInt t.bits (number t' v)) = 0 := by
        rw [hzero]
        exact ⟨fun hz => hz ▸ dvd_zero _, h t' v rfl⟩
      have hbool : isNonzero (Scalar.int t' v).num =
          isNonzero (Scalar.int t (BitVec.ofInt t.bits (number t' v))).num := by
        rw [Scalar.num, Scalar.num, isNonzero, isNonzero, Bool.eq_iff_iff, bne_iff_ne, bne_iff_ne,
          ne_eq, hsame]
      rw [hbool]
  | real f x hx =>
    constructor
    · exact fun _ _ _ h => nomatch h
    · intro _ v hv
      obtain ⟨w, hw, hv⟩ := bind_eq_some_iff.1 hv
      obtain ⟨z, rfl, hz, rfl⟩ := (castValue_float ht hx).1 hw
      rw [castValue_bool, Scalar.num, number_ofInt hz] at hv
      exact hv

theorem chain_bool_byte (s : Scalar) :
    ChainPreserved (.int .u1) (.int .u8) s ↔ ChainHolds (.int .u1) (.int .u8) s := by
  have hbyte : ∀ b : Bool, castValue (.int .u8) (.int .u1 (ofBool b)) =
      some (.int .u8 (if b then 1 else 0)) := by
    intro b
    cases b <;> rfl
  rw [ChainPreserved, castValue_bool, bind_some, hbyte]
  cases s with
  | int t v =>
    rw [castValue_int (by decide)]
    rw [Scalar.num, isNonzero]
    have hone : BitVec.ofInt 8 (number t v) = 1 ↔ number t v % 256 = 1 := by
      rw [show (1 : BitVec 8) = BitVec.ofInt 8 1 from rfl, ofInt_eq_iff_dvd]
      omega
    constructor
    · intro h
      have hsame := eq_of_heq (Scalar.int.inj (Option.some.inj (h _ rfl))).2
      by_cases hz : number t v = 0
      · exact .inl hz
      · rw [if_pos (bne_iff_ne.2 hz)] at hsame
        exact .inr (hone.1 hsame)
    · rintro (h | h) _ ⟨⟩
      · rw [h]
        rfl
      · have hz : number t v ≠ 0 := by omega
        rw [if_pos (bne_iff_ne.2 hz)]
        exact congrArg (fun w => some (Scalar.int .u8 w)) (hone.2 h)
  | real f x hx =>
    simp only [Option.some.injEq, forall_eq', castValue_float (show IntType.u8 ≠ .u1 by decide)]
    constructor
    · rintro ⟨z, rfl, hz, heq⟩
      have hsame := congrArg (number .u8) (eq_of_heq (Scalar.int.inj heq).2)
      rw [number_ofInt hz, Scalar.num] at hsame
      split at hsame
      · exact .inr (congrArg RealValue.finite hsame.symm)
      · exact .inl (congrArg RealValue.finite hsame.symm)
    · rintro (rfl | rfl)
      · exact ⟨0, rfl, by decide, rfl⟩
      · exact ⟨1, rfl, by decide, rfl⟩

theorem chain_int_int (ht : t ≠ .u1) (hu : u ≠ .u1) (hbits : u.bits ≤ t.bits)
    (s : Scalar) : ChainPreserved (.int t) (.int u) s ↔
      ∀ f x hx, s = .real f x hx → ∀ z, x = .finite z → InRange t z → InRange u z := by
  cases s with
  | int t' v =>
    constructor
    · exact fun _ _ _ _ h => nomatch h
    · intro _
      apply chainPreserved_of_eq
      have hsame : BitVec.ofInt u.bits (number t (BitVec.ofInt t.bits (number t' v))) =
          BitVec.ofInt u.bits (number t' v) :=
        ofInt_eq_iff_dvd.2 ((pow_dvd_pow 2 hbits).trans (number_ofInt_emod t _))
      rw [castValue_int ht, bind_some, castValue_int hu, castValue_int hu, hsame]
  | real f x hx =>
    constructor
    · rintro h _ _ _ ⟨⟩ z rfl hz
      have horig := (castValue_float ht hx).2 ⟨z, rfl, hz, rfl⟩
      rw [ChainPreserved, horig, bind_some] at h
      obtain ⟨y, hy, hrange, -⟩ := (castValue_float hu hx).1 (h _ rfl)
      rw [RealValue.finite.inj hy]
      exact hrange
    · intro h v hv
      obtain ⟨w, hw, hv⟩ := bind_eq_some_iff.1 hv
      obtain ⟨z, rfl, hz, rfl⟩ := (castValue_float ht hx).1 hw
      rw [castValue_int hu, number_ofInt hz] at hv
      exact (castValue_float hu hx).2 ⟨z, rfl, h f _ hx rfl z rfl hz, (Option.some.inj hv).symm⟩

theorem chain_int_iff
    (hred : isRedundantCast fastMath (.int t) (.int u) = true) (hne : u ≠ t) (s : Scalar) :
    ChainPreserved (.int t) (.int u) s ↔ ChainHolds (.int t) (.int u) s := by
  rw [isRedundantCast, Bool.and_eq_true, decide_eq_true_eq] at hred
  by_cases ht : t = .u1
  · subst ht
    have hu : u = .u8 := by
      revert hred hne
      cases u <;> decide
    subst hu
    exact chain_bool_byte s
  · by_cases hu : u = .u1
    · subst hu
      exact chain_int_bool ht s
    · have hbits : u.bits ≤ t.bits := by
        have hsize : ∀ r : IntType, r ≠ .u1 → dataTypeBits (.int r) = r.bits := by
          intro r hr
          cases r <;> first | exact absurd rfl hr | rfl
        rw [← hsize u hu, ← hsize t ht]
        exact hred.1
      rw [chain_int_int ht hu hbits]
      have hholds : ChainHolds (.int t) (.int u) s ↔
          ∀ f x hx, s = .real f x hx → ∀ z, x = .finite z → InRange t z → InRange u z := by
        cases s with
        | int t' v =>
          have hint : ChainHolds (.int t) (.int u) (.int t' v) ↔ True := by
            cases t <;> cases u <;>
              first | exact absurd rfl ht | exact absurd rfl hu | exact Iff.rfl
          rw [hint]
          exact ⟨fun _ _ _ _ h => (nomatch h), fun _ => trivial⟩
        | real f x hx =>
          have hreal : ChainHolds (.int t) (.int u) (.real f x hx) ↔
              ∀ z, x = .finite z → InRange t z → InRange u z := by
            cases t <;> cases u <;>
              first | exact absurd rfl ht | exact absurd rfl hu | exact Iff.rfl
          rw [hreal]
          constructor
          · rintro h _ _ _ ⟨⟩
            exact h
          · exact fun h => h f x hx rfl
      rw [hholds]

theorem chainPreserved_iff
    (hred : isRedundantCast fastMath d1 d2 = true) (hne : d2 ≠ d1) (s : Scalar) :
    ChainPreserved d1 d2 s ↔ ChainHolds d1 d2 s := by
  cases d1 with
  | int t =>
    cases d2 with
    | int u => exact chain_int_iff hred (fun h => hne (congrArg DataType.int h)) s
    | real g => cases hred
  | real f =>
    cases d2 with
    | int u =>
      by_cases hu : u = .u1
      · subst hu
        have hholds : ChainHolds (.real f) (.int .u1) s ↔ True := by cases f <;> exact Iff.rfl
        rw [hholds]
        exact iff_true_intro (chain_real_bool f s)
      · have hholds : ChainHolds (.real f) (.int u) s ↔
            ∀ r, toFloat f s.num = .finite r → InRange u r → s.num = .finite r := by
          cases f <;> cases u <;> first | exact absurd rfl hu | exact Iff.rfl
        rw [hholds]
        exact chain_real_int hu s
    | real g =>
      rw [chain_real_real]
      cases f <;> cases g <;> first
        | exact absurd rfl hne
        | exact toFloat_f32_f64_iff s.num
        | exact iff_true_intro (toFloat_f16_f64 s.num)
        | exact iff_true_intro (toFloat_f16_f32 s.num)
        | cases hred

end Quadrants.Simplify
