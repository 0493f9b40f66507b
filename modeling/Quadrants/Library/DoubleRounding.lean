import Quadrants.Library.BinaryRounding

/-!
Integers rounded twice, first to more significant bits and then to fewer.
-/

namespace Quadrants.Library.BinaryRounding

open Nat Int

/-- The number is not a half of the last bit that is kept, but it is rounded to one, and the even
neighbour of this half is not the nearer one. -/
def RoundsTwice (p q n : ℕ) : Prop :=
  0 < excess q n ∧
    (2 ^ excess p n < 2 * (n % 2 ^ excess p n) ∧
        2 * (n % 2 ^ excess p n) ≤ 2 ^ excess p n + 2 ^ excess q n ∧
        n / 2 ^ excess p n % 2 = 0 ∨
      2 * (n % 2 ^ excess p n) < 2 ^ excess p n ∧
        2 ^ excess p n ≤ 2 * (n % 2 ^ excess p n) + 2 ^ excess q n ∧
        n / 2 ^ excess p n % 2 = 1)

instance (p q n : ℕ) : Decidable (RoundsTwice p q n) :=
  inferInstanceAs (Decidable (_ ∧ _))

variable {p q n : ℕ}

theorem excess_add (hpq : p ≤ q) (h : 0 < excess q n) : excess p n = excess q n + (q - p) := by
  rw [excess] at h
  rw [excess, excess]
  omega

def carry (q n : ℕ) : ℕ :=
  if RoundsUp q n then 1 else 0

theorem carry_cases (q n : ℕ) : carry q n = 0 ∧ ¬RoundsUp q n ∨ carry q n = 1 ∧ RoundsUp q n := by
  rw [carry]
  split
  · exact .inr ⟨rfl, ‹_›⟩
  · exact .inl ⟨rfl, ‹_›⟩

/-- Both roundings look at the same parts of the number: `a` above the last bit that is kept, `b`
between the two last bits and `c` below. -/
structure Parts (p q n : ℕ) where
  a : ℕ
  b : ℕ
  c : ℕ
  half : ℕ
  unit : ℕ
  two_le_half : 2 ≤ half
  half_even : half % 2 = 0
  b_lt : b < 2 * half
  c_lt : c < unit
  unit_eq : 2 ^ excess q n = unit
  width_eq : 2 ^ excess p n = 2 * half * unit
  div_unit : n / unit = a * (2 * half) + b
  mod_unit : n % unit = c
  div_width : n / (2 * half * unit) = a
  mod_width : n % (2 * half * unit) = b * unit + c

theorem exists_parts (hpq : p + 2 ≤ q) (h : 0 < excess q n) : Nonempty (Parts p q n) := by
  have hexcess := excess_add (p := p) (by omega) h
  obtain ⟨s, hs⟩ : ∃ s, q - p = s + 2 := ⟨q - p - 2, by omega⟩
  have hhalf : 2 * 2 ^ (s + 1) = 2 ^ (q - p) := by
    rw [hs]
    ring
  have hunit : 0 < 2 ^ excess q n := Nat.two_pow_pos _
  have hwidth : 2 ^ excess p n = 2 * 2 ^ (s + 1) * 2 ^ excess q n := by
    rw [hexcess, Nat.pow_add, hhalf, Nat.mul_comm]
  have hdiv : n / (2 * 2 ^ (s + 1) * 2 ^ excess q n) =
      n / 2 ^ excess q n / (2 * 2 ^ (s + 1)) := by
    rw [Nat.mul_comm, Nat.div_div_eq_div_mul]
  refine ⟨⟨n / 2 ^ excess q n / (2 * 2 ^ (s + 1)), n / 2 ^ excess q n % (2 * 2 ^ (s + 1)),
    n % 2 ^ excess q n, 2 ^ (s + 1), 2 ^ excess q n, ?_, ?_, ?_, mod_lt _ hunit, rfl, hwidth,
    ?_, rfl, hdiv, ?_⟩⟩
  · calc 2 = 2 ^ 1 := rfl
      _ ≤ 2 ^ (s + 1) := Nat.pow_le_pow_right (by decide) (by omega)
  · omega
  · exact mod_lt _ (by positivity)
  · exact (div_add_mod' _ _).symm
  · rw [Nat.mul_comm (2 * 2 ^ (s + 1)), mod_mul]
    ring

namespace Parts

variable (s : Parts p q n)

def low : ℕ :=
  s.b * s.unit + s.c

theorem mul_parity : (s.a * (2 * s.half) + s.b) % 2 = s.b % 2 := by
  have heven : s.a * (2 * s.half) = 2 * (s.a * s.half) := by ring
  omega

theorem roundsUp_short : RoundsUp p n ↔
    2 * s.half * s.unit < 2 * s.low ∨ 2 * s.low = 2 * s.half * s.unit ∧ s.a % 2 = 1 := by
  rw [RoundsUp, s.width_eq, s.div_width, s.mod_width, low]

theorem roundsUp_long : RoundsUp q n ↔
    s.unit < 2 * s.c ∨ 2 * s.c = s.unit ∧ s.b % 2 = 1 := by
  rw [RoundsUp, s.unit_eq, s.div_unit, s.mod_unit, s.mul_parity]

theorem roundNat_short :
    roundNat p n = (s.a + if RoundsUp p n then 1 else 0) * (2 * s.half * s.unit) := by
  rw [roundNat, s.width_eq, s.div_width]

theorem roundNat_long : roundNat q n =
    s.a * (2 * s.half * s.unit) + (s.b + carry q n) * s.unit := by
  rw [roundNat, s.unit_eq, s.div_unit, carry]
  ring

theorem roundsTwice_iff (h : 0 < excess q n) : RoundsTwice p q n ↔
    2 * s.half * s.unit < 2 * s.low ∧ 2 * s.low ≤ 2 * s.half * s.unit + s.unit ∧ s.a % 2 = 0 ∨
      2 * s.low < 2 * s.half * s.unit ∧ 2 * s.half * s.unit ≤ 2 * s.low + s.unit ∧
        s.a % 2 = 1 := by
  rw [RoundsTwice, s.width_eq, s.unit_eq, s.div_width, s.mod_width]
  exact and_iff_right h

theorem roundNat_long_lt (hp : p ≤ q) (h : 0 < excess q n) (hb : s.b + carry q n < 2 * s.half) :
    roundNat q n < 2 ^ (n.log2 + 1) := by
  have hlt := div_two_pow_excess_lt p n
  rw [s.width_eq, s.div_width] at hlt
  have hexcess := excess_add hp h
  have hunit : 0 < s.unit := (Nat.zero_le _).trans_lt s.c_lt
  calc roundNat q n = s.a * (2 * s.half * s.unit) + (s.b + carry q n) * s.unit := s.roundNat_long
    _ < s.a * (2 * s.half * s.unit) + 2 * s.half * s.unit :=
        Nat.add_lt_add_left (Nat.mul_lt_mul_of_pos_right hb hunit) _
    _ = (s.a + 1) * 2 ^ excess p n := by
        rw [s.width_eq]
        ring
    _ ≤ 2 ^ p * 2 ^ excess p n := Nat.mul_le_mul_right _ hlt
    _ = 2 ^ (n.log2 + 1) := by
        rw [← Nat.pow_add, log2_eq (hexcess ▸ Nat.add_pos_left h _)]

theorem excess_roundNat (hp : 0 < p) (hpq : p ≤ q) (h : 0 < excess q n)
    (hb : s.b + carry q n < 2 * s.half) : excess p (roundNat q n) = excess p n := by
  have hn : n ≠ 0 := by
    rintro rfl
    rw [excess_eq_zero (hp.trans_le hpq) (Nat.two_pow_pos q)] at h
    omega
  have hge := two_pow_log2_le_roundNat (hp.trans_le hpq) hn
  have hne : roundNat q n ≠ 0 := by
    have hpos := Nat.two_pow_pos n.log2
    omega
  have hlog : (roundNat q n).log2 = n.log2 :=
    le_antisymm (Nat.lt_succ_iff.1 ((log2_lt hne).2 (s.roundNat_long_lt hpq h hb)))
      ((le_log2 hne).2 hge)
  rw [excess, excess, hlog]

theorem roundNat_roundNat_of_lt (hp : 0 < p) (hpq : p ≤ q) (h : 0 < excess q n)
    (hb : s.b + carry q n < 2 * s.half) : roundNat p (roundNat q n) =
      (s.a + if s.half < s.b + carry q n ∨ s.b + carry q n = s.half ∧ s.a % 2 = 1 then 1 else 0) *
        (2 * s.half * s.unit) := by
  have hunit : 0 < s.unit := (Nat.zero_le _).trans_lt s.c_lt
  have hlt : (s.b + carry q n) * s.unit < 2 * s.half * s.unit :=
    Nat.mul_lt_mul_of_pos_right hb hunit
  have hlong : roundNat q n = s.a * (2 * s.half * s.unit) + (s.b + carry q n) * s.unit :=
    s.roundNat_long
  have hdiv : roundNat q n / (2 * s.half * s.unit) = s.a := by
    rw [hlong, Nat.mul_comm s.a, mul_add_div (by omega), div_eq_of_lt hlt, Nat.add_zero]
  have hmod : roundNat q n % (2 * s.half * s.unit) = (s.b + carry q n) * s.unit := by
    rw [hlong, mul_add_mod_self_right, mod_eq_of_lt hlt]
  have hup : RoundsUp p (roundNat q n) ↔
      s.half < s.b + carry q n ∨ s.b + carry q n = s.half ∧ s.a % 2 = 1 := by
    have hassoc : 2 * s.half * s.unit = 2 * (s.half * s.unit) := by ring
    rw [RoundsUp, s.excess_roundNat hp hpq h hb, s.width_eq, hdiv, hmod, hassoc,
      Nat.mul_lt_mul_left Nat.two_pos, Nat.mul_lt_mul_right hunit,
      Nat.mul_right_inj (by decide), Nat.mul_left_inj hunit.ne']
  rw [roundNat, s.excess_roundNat hp hpq h hb, s.width_eq, hdiv]
  simp only [hup]

theorem roundNat_eq : roundNat p n =
      (s.a + if 2 * s.half * s.unit < 2 * s.low ∨
          2 * s.low = 2 * s.half * s.unit ∧ s.a % 2 = 1 then 1 else 0) *
        (2 * s.half * s.unit) := by
  rw [s.roundNat_short]
  simp only [s.roundsUp_short]

theorem roundNat_roundNat_of_ge (hp : 0 < p) (hb : 2 * s.half ≤ s.b + carry q n) :
    roundNat p (roundNat q n) = roundNat p n := by
  have hcarry := carry_cases q n
  have hlt := s.b_lt
  have htwo := s.two_le_half
  have hlow : s.half * s.unit < s.low := by
    calc s.half * s.unit < (s.half + 1) * s.unit :=
          Nat.mul_lt_mul_of_pos_right (lt_succ_self _) ((Nat.zero_le _).trans_lt s.c_lt)
      _ ≤ s.b * s.unit := Nat.mul_le_mul_right _ (by omega)
      _ ≤ s.low := Nat.le_add_right _ _
  have hassoc : 2 * s.half * s.unit = 2 * (s.half * s.unit) := by ring
  have hshort : roundNat p n = roundNat q n := by
    rw [s.roundNat_eq, if_pos (.inl (by omega)), s.roundNat_long,
      show s.b + carry q n = 2 * s.half by omega]
    ring
  rw [← hshort]
  exact roundNat_roundNat hp n

end Parts

theorem roundNat_roundNat_ne_iff (hp : 0 < p) (hpq : p + 2 ≤ q) :
    roundNat p (roundNat q n) ≠ roundNat p n ↔ RoundsTwice p q n := by
  by_cases h : 0 < excess q n
  · obtain ⟨s⟩ := exists_parts hpq h
    have hparity := s.half_even
    have hc := s.c_lt
    have hcarry := carry_cases q n
    rw [s.roundsUp_long] at hcarry
    have hassoc : 2 * s.half * s.unit = 2 * (s.half * s.unit) := by ring
    have hlow : s.low = s.b * s.unit + s.c := rfl
    have hstep : ∀ x y : ℕ, x + 1 ≤ y → x * s.unit + s.unit ≤ y * s.unit := by
      intro x y hxy
      calc x * s.unit + s.unit = (x + 1) * s.unit := by ring
        _ ≤ y * s.unit := Nat.mul_le_mul_right _ hxy
    rw [s.roundsTwice_iff h]
    rcases Nat.lt_or_ge (s.b + carry q n) (2 * s.half) with hb | hb
    · have hwidth : 2 * s.half * s.unit ≠ 0 := by
        have hpos : 0 < s.half * s.unit := Nat.mul_pos (by omega) (by omega)
        omega
      rw [s.roundNat_roundNat_of_lt hp (by omega) h hb, s.roundNat_eq, ne_eq,
        Nat.mul_left_inj hwidth]
      rcases Nat.lt_trichotomy (s.b + carry q n) s.half with hside | hside | hside
      · have hbelow := hstep s.b s.half (by omega)
        rw [if_neg (by omega), if_neg (by omega)]
        have hfar : carry q n = 1 ∨ s.b + 2 ≤ s.half →
            s.b * s.unit + 2 * s.unit ≤ s.half * s.unit := by
          intro hfar
          have hnext := hstep (s.b + 1) s.half (by omega)
          rw [Nat.add_mul] at hnext
          omega
        omega
      · rcases hcarry with hcarry | hcarry
        · have hsame : s.b * s.unit = s.half * s.unit := by rw [← hside, hcarry.1, Nat.add_zero]
          split <;> split <;> omega
        · have hnext : s.b * s.unit + s.unit = s.half * s.unit := by
            rw [← hside, hcarry.1, Nat.add_mul, Nat.one_mul]
          split <;> split <;> omega
      · rw [if_pos (by omega)]
        have hfar : s.half + 1 ≤ s.b → s.half * s.unit + s.unit ≤ s.b * s.unit := hstep s.half s.b
        have hge : s.half * s.unit ≤ s.b * s.unit := Nat.mul_le_mul_right _ (by omega)
        rw [if_pos (by
          rcases hcarry with hcarry | hcarry
          · exact .inl (by omega)
          · exact .inl (by omega))]
        omega
    · have hover := s.b_lt
      have hlarge := hstep s.half s.b (by omega)
      rw [s.roundNat_roundNat_of_ge hp hb]
      omega
  · have hlong : roundNat q n = n := by
      rw [roundNat_eq_self_iff, Nat.eq_zero_of_not_pos h]
      exact Nat.one_dvd n
    rw [hlong]
    constructor
    · exact fun hne => absurd rfl hne
    · exact fun htwice => absurd htwice.1 h

theorem roundNat_eq_zero_iff (hp : 0 < p) : roundNat p n = 0 ↔ n = 0 := by
  constructor
  · intro h
    by_contra hn
    have hge := two_pow_log2_le_roundNat hp hn
    have hpos := Nat.two_pow_pos n.log2
    omega
  · rintro rfl
    exact roundNat_zero p

theorem round_eq_zero_iff (hp : 0 < p) {z : ℤ} : round p z = 0 ↔ z = 0 := by
  rw [← natAbs_eq_zero, natAbs_round, roundNat_eq_zero_iff hp, natAbs_eq_zero]

theorem sign_round (hp : 0 < p) (z : ℤ) : (round p z).sign = z.sign := by
  rcases Int.lt_trichotomy z 0 with h | rfl | h
  · have hne := (roundNat_eq_zero_iff (n := z.natAbs) hp).not.2 (by omega)
    rw [round_of_neg h, sign_eq_neg_one_of_neg h, sign_eq_neg_one_of_neg (by omega)]
  · rw [(round_eq_zero_iff hp).2 rfl]
  · have hne := (roundNat_eq_zero_iff (n := z.natAbs) hp).not.2 (by omega)
    rw [round_of_nonneg h.le, sign_eq_one_of_pos h, sign_eq_one_of_pos (by omega)]

theorem round_round_eq_iff (hp : 0 < p) (hpq : p + 2 ≤ q) {z : ℤ} :
    round p (round q z) = round p z ↔ ¬RoundsTwice p q z.natAbs := by
  rw [← roundNat_roundNat_ne_iff hp hpq, not_not, ← natAbs_round q, ← natAbs_round p,
    ← natAbs_round p]
  constructor
  · exact congrArg natAbs
  · intro h
    rw [← sign_mul_natAbs (round p (round q z)), ← sign_mul_natAbs (round p z), h,
      sign_round hp, sign_round (by omega), sign_round hp]

theorem Representable.mono {z : ℤ} (hpq : p ≤ q) (h : Representable p z) : Representable q z := by
  refine (Nat.pow_dvd_pow 2 ?_).trans h
  rw [excess, excess]
  omega

end Quadrants.Library.BinaryRounding
