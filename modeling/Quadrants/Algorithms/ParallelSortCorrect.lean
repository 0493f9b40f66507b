import Mathlib.Logic.Function.Basic
import Mathlib.Tactic.SplitIfs
import Quadrants.Algorithms.Staircase
import Quadrants.Library.BinaryRounding
import Quadrants.Library.OddEvenMerge

/-!
`parallel_sort` of `algorithms/_algorithms.py` and its kernel `sort_stage`. A field is a function of
the index counted from the offset of the field.
-/

namespace Quadrants.Algorithms

open Library.BinaryRounding

inductive DefaultFp where
  | f32
  | f64
  deriving DecidableEq, Repr

def DefaultFp.precision : DefaultFp → ℕ
  | f32 => 24
  | f64 => 53

/-- `int(a / (p * 2))`: both operands become `default_fp`, and the quotient of `a` by a power of two
is exact in it. -/
def blockOf (fp : DefaultFp) (p a : ℕ) : ℤ :=
  (round fp.precision a).tdiv (i32 (p * 2))

def firstIndex (p k inv : ℕ) : ℕ :=
  k % p + inv * 2 * k

def invocationPairs (fp : DefaultFp) (N p k inv : ℕ) : List (ℕ × ℕ) :=
  let j := firstIndex p k inv
  ((List.range (min (k : ℤ) (N - j - k)).toNat).map fun i => (i + j, i + j + k)).filter
    fun (a, b) => blockOf fp p a = blockOf fp p b

def invocations (N p k : ℕ) : ℤ :=
  ((N : ℤ) - k - (k % p : ℕ)).tdiv (2 * k) + 1

def stagePairs (fp : DefaultFp) (N p k : ℕ) : List (ℕ × ℕ) :=
  (List.range (invocations N p k).toNat).flatMap (invocationPairs fp N p k)

def stagesOf (p k : ℕ) : List (ℕ × ℕ) :=
  if 1 ≤ k then (p, k) :: stagesOf p (k / 2) else []

def stagesFrom (N p : ℕ) : List (ℕ × ℕ) :=
  if 0 < p ∧ p < N then stagesOf p p ++ stagesFrom N (p * 2) else []
  termination_by N - p

def stages (N : ℕ) : List (ℕ × ℕ) :=
  stagesFrom N 1

section Fields

structure Fields (K V : Type) where
  keys : ℕ → K
  values : Option (ℕ → V)

variable {K V : Type} [LinearOrder K]

def swapAt {α : Type} (a b : ℕ) (field : ℕ → α) : ℕ → α :=
  let temp := field a
  Function.update (Function.update field a (field b)) b temp

def compareSwap (f : Fields K V) (pair : ℕ × ℕ) : Fields K V :=
  if f.keys pair.1 > f.keys pair.2 then
    { keys := swapAt pair.1 pair.2 f.keys
      values := f.values.map (swapAt pair.1 pair.2) }
  else f

/-- The invocations of a stage run in parallel, so their pairs are taken in some order. -/
inductive RunsStages (fp : DefaultFp) (N : ℕ) : List (ℕ × ℕ) → Fields K V → Fields K V → Prop where
  | done (f : Fields K V) : RunsStages fp N [] f f
  | stage {p k : ℕ} {rest : List (ℕ × ℕ)} {f g : Fields K V} {order : List (ℕ × ℕ)} :
      order.Perm (stagePairs fp N p k) → RunsStages fp N rest (order.foldl compareSwap f) g →
      RunsStages fp N ((p, k) :: rest) f g

def ParallelSort (fp : DefaultFp) (N : ℕ) (f g : Fields K V) : Prop :=
  RunsStages fp N (stages N) f g

def records (N : ℕ) (f : Fields K V) : List (K × Option V) :=
  (List.range N).map fun i => (f.keys i, f.values.map fun values => values i)

end Fields

end Quadrants.Algorithms

namespace Quadrants.Algorithms

open Library.BinaryRounding
open Library.SortingNetwork
open Library.OddEvenMerge

section Pairs

variable {fp : DefaultFp} {N p k inv : ℕ}

variable {c : ℕ × ℕ} {inv' : ℕ}

theorem mem_invocationPairs : c ∈ invocationPairs fp N p k inv ↔
      ∃ i < k, i + firstIndex p k inv + k < N ∧
        c = (i + firstIndex p k inv, i + firstIndex p k inv + k) ∧
        blockOf fp p c.1 = blockOf fp p c.2 := by
  rw [invocationPairs, List.mem_filter, List.mem_map]
  constructor
  · rintro ⟨⟨i, hi, rfl⟩, hblock⟩
    rw [List.mem_range] at hi
    exact ⟨i, by omega, by omega, rfl, of_decide_eq_true hblock⟩
  · rintro ⟨i, hik, hiN, rfl, hblock⟩
    refine ⟨⟨i, List.mem_range.2 (by omega), rfl⟩, decide_eq_true hblock⟩

theorem firstIndex_le (hc : c ∈ invocationPairs fp N p k inv) :
    firstIndex p k inv ≤ c.1 ∧ c.1 < firstIndex p k inv + k ∧ c.2 = c.1 + k := by
  obtain ⟨i, hik, -, rfl, -⟩ := mem_invocationPairs.1 hc
  refine ⟨?_, ?_, rfl⟩
  · exact Nat.le_add_left _ _
  · omega

theorem firstIndex_add_le (p k : ℕ) {inv : ℕ} (h : inv < inv') :
    firstIndex p k inv + 2 * k ≤ firstIndex p k inv' := by
  have hmul : (inv + 1) * (2 * k) ≤ inv' * (2 * k) := Nat.mul_le_mul_right _ h
  rw [Nat.succ_mul, ← Nat.mul_assoc, ← Nat.mul_assoc] at hmul
  rw [firstIndex, firstIndex]
  omega

theorem apart_of_lt (h : inv < inv') {d : ℕ × ℕ}
    (hc : c ∈ invocationPairs fp N p k inv) (hd : d ∈ invocationPairs fp N p k inv') :
    CellsApart c d := by
  have hle := firstIndex_add_le p k h
  obtain ⟨hc₁, hc₂, hc₃⟩ := firstIndex_le hc
  obtain ⟨hd₁, hd₂, hd₃⟩ := firstIndex_le hd
  unfold CellsApart
  omega

theorem apart_of_ne (h : inv ≠ inv') {d : ℕ × ℕ}
    (hc : c ∈ invocationPairs fp N p k inv) (hd : d ∈ invocationPairs fp N p k inv') :
    CellsApart c d := by
  rcases Nat.lt_or_gt_of_ne h with h | h
  · exact apart_of_lt h hc hd
  · exact (apart_of_lt h hd hc).symm

theorem pairwise_invocationPairs (fp : DefaultFp) (N p k inv : ℕ) :
    (invocationPairs fp N p k inv).Pairwise CellsApart := by
  refine List.Pairwise.filter _ ?_
  rw [List.pairwise_map]
  refine List.pairwise_lt_range.imp_of_mem ?_
  intro i j hi hj hij
  rw [List.mem_range] at hi hj
  unfold CellsApart
  omega

theorem pairwise_stagePairs (fp : DefaultFp) (N p k : ℕ) :
    (stagePairs fp N p k).Pairwise CellsApart := by
  rw [stagePairs, List.pairwise_flatMap]
  refine ⟨fun inv _ => pairwise_invocationPairs fp N p k inv, ?_⟩
  refine List.pairwise_lt_range.imp ?_
  intro inv inv' hlt c hc d hd
  exact apart_of_lt hlt hc hd

theorem mem_stagePairs (hk : 0 < k) : c ∈ stagePairs fp N p k ↔
      c.2 = c.1 + k ∧ c.2 < N ∧ k % p ≤ c.1 ∧ (c.1 - k % p) / k % 2 = 0 ∧
        blockOf fp p c.1 = blockOf fp p c.2 := by
  rw [stagePairs, List.mem_flatMap]
  constructor
  · rintro ⟨inv, -, hc⟩
    obtain ⟨i, hik, hN, rfl, hblock⟩ := mem_invocationPairs.1 hc
    have hcell : i + firstIndex p k inv - k % p = i + k * (2 * inv) := by
      rw [firstIndex]
      have hcomm : inv * 2 * k = k * (2 * inv) := by ring
      omega
    refine ⟨rfl, hN, ?_, ?_, hblock⟩
    · rw [firstIndex]
      omega
    · rw [hcell, Nat.add_mul_div_left _ _ hk, Nat.div_eq_of_lt hik]
      omega
  · rintro ⟨hb, hN, hfirst, heven, hblock⟩
    have hrow : (c.1 - k % p) / k / 2 * 2 * k = k * ((c.1 - k % p) / k) := by
      rw [Nat.div_mul_cancel (Nat.dvd_of_mod_eq_zero heven), Nat.mul_comm]
    have hdiv := Nat.div_add_mod (c.1 - k % p) k
    have hlt := Nat.mod_lt (c.1 - k % p) hk
    have hindex : (c.1 - k % p) % k + firstIndex p k ((c.1 - k % p) / k / 2) = c.1 := by
      rw [firstIndex]
      omega
    have hcount : (c.1 - k % p) / k / 2 < (invocations N p k).toNat := by
      have hle : (((c.1 - k % p) / k / 2 : ℕ) : ℤ) ≤
          ((N : ℤ) - k - (k % p : ℕ)).tdiv (2 * k) := by
        refine Int.le_tdiv_of_mul_le (by omega) ?_
        have hcast : (((c.1 - k % p) / k / 2 : ℕ) : ℤ) * (2 * k) =
            (((c.1 - k % p) / k / 2 * 2 * k : ℕ) : ℤ) := by
          push_cast
          ring
        omega
      rw [invocations]
      omega
    refine ⟨(c.1 - k % p) / k / 2, List.mem_range.2 hcount,
      mem_invocationPairs.2 ⟨(c.1 - k % p) % k, hlt, ?_, ?_, hblock⟩⟩
    · omega
    · rw [hindex, ← hb]

end Pairs

section Blocks

variable {fp : DefaultFp} {N : ℕ}

variable {a : ℕ}

theorem roundNat_near {m : ℕ} (hm : 2 ≤ m) (ha : a ≤ 2 ^ m + 2) :
    roundNat m a = if a = 2 ^ m + 1 then 2 ^ m else a := by
  have hfour : 4 ∣ 2 ^ m := Nat.pow_dvd_pow 2 hm
  have hpos := Nat.two_pow_pos m
  rcases Nat.lt_or_ge a (2 ^ m) with hlt | hge
  · rw [roundNat_of_lt (by omega) hlt, if_neg (by omega)]
  · rw [roundNat_of_excess_one hge (by rw [Nat.pow_succ]; omega)]
    split <;> split <;> omega

theorem two_le_precision (fp : DefaultFp) : 2 ≤ fp.precision := by
  cases fp <;> decide

theorem i32_double {s : ℕ} (hs : s ≤ 30) :
    i32 ((2 ^ s : ℕ) * 2) = (2 * 2 ^ s : ℕ) ∨ i32 ((2 ^ s : ℕ) * 2) = -(2 * 2 ^ s : ℕ) := by
  rcases Nat.lt_or_eq_of_le hs with hlt | rfl
  · left
    have hpow : 2 ^ s ≤ 2 ^ 29 := Nat.pow_le_pow_right (by decide) (by omega)
    rw [i32, Int.bmod_eq_of_le]
    · rw [Int.mul_comm]
      rfl
    · have hnonneg := Int.natCast_nonneg (2 ^ s)
      omega
    · omega
  · right
    rfl

theorem roundNat_div (hN : N ≤ 2 ^ fp.precision + 3) (s : ℕ) (ha : a < N) :
    roundNat fp.precision a / (2 * 2 ^ s) = a / (2 * 2 ^ s) := by
  rw [roundNat_near (two_le_precision fp) (by omega)]
  split
  · next hodd =>
      have heven : (2 ^ fp.precision + 1) / 2 = 2 ^ fp.precision / 2 := by
        have hdvd : 2 ∣ 2 ^ fp.precision := dvd_pow_self 2 (by cases fp <;> decide)
        omega
      rw [hodd, ← Nat.div_div_eq_div_mul, ← Nat.div_div_eq_div_mul, heven]
  · rfl

theorem blockOf_eq_iff (hN : N ≤ 2 ^ fp.precision + 3) (hwide : N < 2 ^ 31) {s b : ℕ}
    (hs : 2 ^ s < N) (ha : a < N) (hb : b < N) :
    blockOf fp (2 ^ s) a = blockOf fp (2 ^ s) b ↔ a / (2 * 2 ^ s) = b / (2 * 2 ^ s) := by
  have hexp : s ≤ 30 := by
    by_contra h
    have hpow : 2 ^ 31 ≤ 2 ^ s := Nat.pow_le_pow_right (by decide) (by omega)
    omega
  rw [← roundNat_div hN s ha, ← roundNat_div hN s hb, blockOf, blockOf,
    round_of_nonneg (Int.natCast_nonneg a), round_of_nonneg (Int.natCast_nonneg b),
    Int.natAbs_natCast, Int.natAbs_natCast]
  rcases i32_double hexp with hdouble | hdouble
  · rw [hdouble, ← Int.ofNat_tdiv, ← Int.ofNat_tdiv, Int.natCast_inj]
  · rw [hdouble, Int.tdiv_neg, Int.tdiv_neg, ← Int.ofNat_tdiv, ← Int.ofNat_tdiv, neg_inj,
      Int.natCast_inj]

end Blocks

section Data

variable {K V : Type} [LinearOrder K]

omit [LinearOrder K] in
theorem swapAt_eq {α : Type} (a b : ℕ) (field : ℕ → α) :
    swapAt a b field = field ∘ Equiv.swap a b := by
  funext i
  rw [swapAt, Function.comp_apply]
  by_cases hb : i = b
  · rw [hb, Function.update_self, Equiv.swap_apply_right]
  · rw [Function.update_of_ne hb]
    by_cases ha : i = a
    · rw [ha, Function.update_self, Equiv.swap_apply_left]
    · rw [Function.update_of_ne ha, Equiv.swap_apply_of_ne_of_ne ha hb]

theorem compareSwap_keys (f : Fields K V) (c : ℕ × ℕ) :
    (compareSwap f c).keys = exchange c f.keys := by
  rw [compareSwap, exchange]
  split
  · exact swapAt_eq c.1 c.2 f.keys
  · rfl

theorem foldl_compareSwap_keys (net : List (ℕ × ℕ)) (f : Fields K V) :
    (net.foldl compareSwap f).keys = run net f.keys := by
  induction net generalizing f with
  | nil => rfl
  | cons c net ih => rw [List.foldl_cons, ih, compareSwap_keys, run_cons]

theorem records_compareSwap {N : ℕ} {c : ℕ × ℕ} (hc : c.1 < N ∧ c.2 < N) (f : Fields K V) :
    (records N (compareSwap f c)).Perm (records N f) := by
  rw [compareSwap]
  split
  · have heq : records N (⟨swapAt c.1 c.2 f.keys, f.values.map (swapAt c.1 c.2)⟩ : Fields K V) =
        (List.range N).map ((fun i => (f.keys i, f.values.map fun values => values i)) ∘
          Equiv.swap c.1 c.2) := by
      refine List.map_congr_left fun i _ => ?_
      refine Prod.ext (congrFun (swapAt_eq c.1 c.2 f.keys) i) ?_
      rw [Option.map_map]
      refine congrArg (fun g => f.values.map g) (funext fun values => ?_)
      exact congrFun (swapAt_eq c.1 c.2 values) i
    rw [heq]
    refine perm_of_involutive (fun i hi => ⟨?_, Equiv.swap_apply_self c.1 c.2 i⟩) _
    rw [Equiv.swap_apply_def]
    split
    · exact hc.2
    · split
      · exact hc.1
      · exact hi
  · exact .refl _

theorem records_foldl {N : ℕ} {net : List (ℕ × ℕ)} (hnet : ∀ c ∈ net, c.1 < N ∧ c.2 < N)
    (f : Fields K V) : (records N (net.foldl compareSwap f)).Perm (records N f) := by
  induction net generalizing f with
  | nil => exact .refl _
  | cons c net ih =>
    refine (ih (fun d hd => hnet d (List.mem_cons_of_mem _ hd)) _).trans ?_
    exact records_compareSwap (hnet c List.mem_cons_self) f

end Data

section Stages

variable {fp : DefaultFp} {N : ℕ}

def padded (N : ℕ) (y : ℕ → Bool) (i : ℕ) : Bool :=
  if i < N then y i else true

theorem padded_of_lt {i : ℕ} (hi : i < N) (y : ℕ → Bool) : padded N y i = y i :=
  if_pos hi

theorem padded_of_le {i : ℕ} (hi : N ≤ i) (y : ℕ → Bool) : padded N y i = true :=
  if_neg (Nat.not_lt.2 hi)

theorem padded_run (hN : N ≤ 2 ^ fp.precision + 3) (hwide : N < 2 ^ 31) {s k : ℕ} (hs : 2 ^ s < N)
    (hk : 0 < k) {order : List (ℕ × ℕ)} (horder : order.Perm (stagePairs fp N (2 ^ s) k))
    (y : ℕ → Bool) : padded N (run order y) = layer (2 ^ s) k (padded N y) := by
  have hapart : order.Pairwise CellsApart :=
    (horder.pairwise_iff fun h => h.symm).2 (pairwise_stagePairs fp N (2 ^ s) k)
  have hmem : ∀ a b, (a, b) ∈ order ↔ b = a + k ∧ b < N ∧ Compares (2 ^ s) k a := by
    intro a b
    rw [horder.mem_iff, mem_stagePairs hk, Compares]
    refine and_congr_right fun hb => and_congr_right fun hbN => ?_
    change b = a + k at hb
    subst hb
    rw [blockOf_eq_iff hN hwide hs (by omega) hbN]
  have hrun := run_of_pairwise hapart y
  have hodd : ∀ a, k ≤ a → Compares (2 ^ s) k a → ¬Compares (2 ^ s) k (a - k) := by
    rintro a hka ⟨-, heven, -⟩ ⟨hfirst, heven', -⟩
    have hnext : a - k % 2 ^ s = a - k - k % 2 ^ s + k := by omega
    rw [hnext, Nat.add_div_right _ hk] at heven
    omega
  funext i
  rw [layer]
  by_cases hlow : Compares (2 ^ s) k i
  · rw [if_pos hlow]
    by_cases hend : i + k < N
    · have hpair := (hrun (i, i + k) ((hmem i (i + k)).2 ⟨rfl, hend, hlow⟩)).1
      rw [padded_of_lt (by omega), padded_of_lt (by omega), padded_of_lt hend]
      exact hpair
    · -- there is nothing to compare with
      have hnone : ∀ c ∈ order, i ≠ c.1 ∧ i ≠ c.2 := by
        rintro ⟨a, b⟩ hc
        obtain ⟨rfl, hbN, hcompare⟩ := (hmem a b).1 hc
        constructor
        · rintro rfl
          exact hend hbN
        · rintro rfl
          refine hodd _ (by omega) hlow ?_
          rwa [Nat.add_sub_cancel]
      rw [padded, run_of_forall_ne hnone, padded_of_le (Nat.not_lt.1 hend), Bool.and_true, padded]
  · rw [if_neg hlow]
    by_cases hhigh : k ≤ i ∧ Compares (2 ^ s) k (i - k)
    · rw [if_pos hhigh]
      rcases Nat.lt_or_ge i N with hi | hi
      · have hpair := (hrun (i - k, i) ((hmem (i - k) i).2 ⟨by omega, hi, hhigh.2⟩)).2
        rw [padded_of_lt hi, padded_of_lt (by omega), padded_of_lt hi]
        exact hpair
      · rw [padded_of_le hi, padded_of_le hi, Bool.or_true]
    · rw [if_neg hhigh]
      have hnone : ∀ c ∈ order, i ≠ c.1 ∧ i ≠ c.2 := by
        rintro ⟨a, b⟩ hc
        obtain ⟨rfl, -, hcompare⟩ := (hmem a b).1 hc
        constructor
        · rintro rfl
          exact hlow hcompare
        · rintro rfl
          refine hhigh ⟨by omega, ?_⟩
          rwa [Nat.add_sub_cancel]
      rw [padded, run_of_forall_ne hnone, padded]

def Valid (N : ℕ) (stage : ℕ × ℕ) : Prop :=
  ∃ s t, stage = (2 ^ s, 2 ^ t) ∧ t ≤ s ∧ 2 ^ s < N

theorem div_two_pow (t : ℕ) : 2 ^ (t + 1) / 2 = 2 ^ t := by
  rw [Nat.pow_succ, Nat.mul_div_cancel _ (by decide)]

theorem stagesOf_zero (p : ℕ) : stagesOf p 0 = [] := by
  rw [stagesOf]
  rfl

theorem stagesOf_one (p : ℕ) : stagesOf p 1 = [(p, 1)] := by
  rw [stagesOf]
  exact congrArg _ (stagesOf_zero p)

theorem stagesOf_two_pow (p t : ℕ) :
    stagesOf p (2 ^ (t + 1)) = (p, 2 ^ (t + 1)) :: stagesOf p (2 ^ t) := by
  rw [stagesOf, if_pos Nat.one_le_two_pow, div_two_pow]

theorem valid_stagesOf {s t : ℕ} (hs : 2 ^ s < N) (ht : t ≤ s) :
    ∀ stage ∈ stagesOf (2 ^ s) (2 ^ t), Valid N stage := by
  induction t with
  | zero =>
    intro stage hstage
    rw [Nat.pow_zero, stagesOf_one, List.mem_singleton] at hstage
    exact ⟨s, 0, hstage, ht, hs⟩
  | succ t ih =>
    intro stage hstage
    rw [stagesOf_two_pow, List.mem_cons] at hstage
    rcases hstage with rfl | hstage
    · exact ⟨s, t + 1, rfl, ht, hs⟩
    · exact ih (by omega) stage hstage

def applyStages (list : List (ℕ × ℕ)) (y : ℕ → Bool) : ℕ → Bool :=
  list.foldl (fun y stage => layer stage.1 stage.2 y) y

theorem applyStages_stagesOf (s t : ℕ) (y : ℕ → Bool) :
    applyStages (stagesOf (2 ^ s) (2 ^ t)) y = layers (2 ^ s) t y := by
  induction t generalizing y with
  | zero =>
    rw [Nat.pow_zero, stagesOf_one]
    rfl
  | succ t ih =>
    rw [stagesOf_two_pow, layers, ← ih]
    rfl

theorem valid_stagesFrom (N s : ℕ) : ∀ stage ∈ stagesFrom N (2 ^ s), Valid N stage := by
  generalize hp : 2 ^ s = p
  induction p using stagesFrom.induct N generalizing s with
  | case1 p hlt ih =>
    subst hp
    intro stage hstage
    rw [stagesFrom, if_pos hlt, List.mem_append] at hstage
    rcases hstage with hstage | hstage
    · exact valid_stagesOf hlt.2 le_rfl stage hstage
    · exact ih (s + 1) (Nat.pow_succ 2 s) stage hstage
  | case2 p hge =>
    intro stage hstage
    rw [stagesFrom, if_neg hge] at hstage
    exact absurd hstage List.not_mem_nil

theorem applyStages_stagesFrom (N s : ℕ) {y : ℕ → Bool} (hy : Runs (2 ^ s) y) :
    ∃ r, N ≤ 2 ^ r ∧ Runs (2 ^ r) (applyStages (stagesFrom N (2 ^ s)) y) := by
  generalize hp : 2 ^ s = p
  induction p using stagesFrom.induct N generalizing s y with
  | case1 p hlt ih =>
    subst hp
    rw [stagesFrom, if_pos hlt, applyStages, List.foldl_append]
    refine ih (s + 1) ?_ (Nat.pow_succ 2 s)
    have hmerged := layers_runs s hy
    rw [← applyStages_stagesOf] at hmerged
    exact hmerged
  | case2 p hge =>
    rw [stagesFrom, if_neg hge]
    refine ⟨s, ?_, hy⟩
    have hpos := Nat.two_pow_pos s
    omega

end Stages

section Runs

variable {fp : DefaultFp} {N : ℕ} {K V : Type} [LinearOrder K]

variable {f g : Fields K V} {list : List (ℕ × ℕ)}

theorem RunsStages.exists_net (h : RunsStages fp N list f g) : ∃ orders : List (List (ℕ × ℕ)),
      List.Forall₂ (fun order stage => order.Perm (stagePairs fp N stage.1 stage.2)) orders list ∧
        g = orders.flatten.foldl compareSwap f := by
  induction h with
  | done f => exact ⟨[], .nil, rfl⟩
  | stage horder hrest ih =>
    obtain ⟨orders, horders, rfl⟩ := ih
    refine ⟨_ :: orders, .cons horder horders, ?_⟩
    rw [List.flatten_cons, List.foldl_append]

theorem padded_flatten (hN : N ≤ 2 ^ fp.precision + 3) (hwide : N < 2 ^ 31)
    {orders : List (List (ℕ × ℕ))}
    (horders : List.Forall₂ (fun order stage => order.Perm (stagePairs fp N stage.1 stage.2))
      orders list) (hvalid : ∀ stage ∈ list, Valid N stage) (y : ℕ → Bool) :
    padded N (run orders.flatten y) = applyStages list (padded N y) := by
  induction horders generalizing y with
  | nil => rfl
  | cons horder horders ih =>
    obtain ⟨s, t, rfl, -, hs⟩ := hvalid _ List.mem_cons_self
    have hrest := ih (fun stage hstage => hvalid stage (List.mem_cons_of_mem _ hstage))
    rw [List.flatten_cons, run_append, hrest, padded_run hN hwide hs (Nat.two_pow_pos t) horder]
    rfl

theorem forall_flatten {P : ℕ × ℕ → Prop} {orders : List (List (ℕ × ℕ))}
    (horders : List.Forall₂ (fun order stage => order.Perm (stagePairs fp N stage.1 stage.2))
      orders list)
    (hlist : ∀ stage ∈ list, ∀ c ∈ stagePairs fp N stage.1 stage.2, P c) :
    ∀ c ∈ orders.flatten, P c := by
  induction horders with
  | nil => exact fun c hc => nomatch hc
  | cons horder horders ih =>
    intro c hc
    rw [List.flatten_cons, List.mem_append] at hc
    rcases hc with hc | hc
    · exact hlist _ List.mem_cons_self c (horder.mem_iff.1 hc)
    · exact ih (fun stage hstage => hlist stage (List.mem_cons_of_mem _ hstage)) c hc

theorem stages_valid (N : ℕ) : ∀ stage ∈ stages N, Valid N stage :=
  valid_stagesFrom N 0

theorem lt_of_mem_stagePairs {stage : ℕ × ℕ} (hstage : Valid N stage) {c : ℕ × ℕ}
    (hc : c ∈ stagePairs fp N stage.1 stage.2) : c.1 < N ∧ c.2 < N := by
  obtain ⟨s, t, rfl, -, -⟩ := hstage
  obtain ⟨hnext, hlt, -⟩ := (mem_stagePairs (Nat.two_pow_pos t)).1 hc
  exact ⟨(Nat.le_add_right c.1 (2 ^ t)).trans_lt (hnext ▸ hlt), hlt⟩

theorem ParallelSort.perm (h : ParallelSort fp N f g) : (records N g).Perm (records N f) := by
  obtain ⟨orders, horders, rfl⟩ := RunsStages.exists_net h
  refine records_foldl (forall_flatten horders fun stage hstage c hc => ?_) f
  exact lt_of_mem_stagePairs (stages_valid N stage hstage) hc

theorem ParallelSort.sorted (hN : N ≤ 2 ^ fp.precision + 3) (hwide : N < 2 ^ 31)
    (h : ParallelSort fp N f g) : ∀ i j, i ≤ j → j < N → g.keys i ≤ g.keys j := by
  obtain ⟨orders, horders, rfl⟩ := RunsStages.exists_net h
  rw [foldl_compareSwap_keys]
  have hbits : ∀ y : ℕ → Bool, MonotoneOn (run orders.flatten y) (Set.Iio N) := by
    intro y i hi j hj hij
    have hnet := padded_flatten hN hwide horders (stages_valid N) y
    obtain ⟨r, hr, hruns⟩ := applyStages_stagesFrom N 0 (runs_one (padded N y))
    have hsorted := hruns.sorted hij (hj.trans_le hr)
    rw [← padded_of_lt hi (run orders.flatten y), ← padded_of_lt hj (run orders.flatten y), hnet]
    exact hsorted
  intro i j hij hj
  exact sorted_of_bits (run orders.flatten) (run orders.flatten) (fun F hF x => run_comp hF _ x)
    hbits f.keys (Set.mem_Iio.2 (hij.trans_lt hj)) (Set.mem_Iio.2 hj) hij

theorem exists_runsStages (fp : DefaultFp) (N : ℕ) (list : List (ℕ × ℕ)) (f : Fields K V) :
    ∃ g, RunsStages fp N list f g := by
  induction list generalizing f with
  | nil => exact ⟨f, .done f⟩
  | cons stage list ih =>
    obtain ⟨g, hg⟩ := ih ((stagePairs fp N stage.1 stage.2).foldl compareSwap f)
    exact ⟨g, .stage (.refl _) hg⟩

end Runs

section Lengths

variable {fp : DefaultFp} {N : ℕ}

/-- All fields of a length are sorted, and the invocations of a stage do not meet. -/
def SortsEvery (fp : DefaultFp) (N : ℕ) : Prop :=
  (∀ (K V : Type) [LinearOrder K] (f g : Fields K V), ParallelSort fp N f g →
    (∀ i j, i ≤ j → j < N → g.keys i ≤ g.keys j) ∧ (records N g).Perm (records N f)) ∧
  ∀ stage ∈ stages N, ∀ inv inv', inv ≠ inv' →
    ∀ c ∈ invocationPairs fp N stage.1 stage.2 inv,
      ∀ d ∈ invocationPairs fp N stage.1 stage.2 inv', CellsApart c d

theorem blockOf_ne (fp : DefaultFp) :
    blockOf fp 1 (2 ^ fp.precision + 2) ≠ blockOf fp 1 (2 ^ fp.precision + 3) := by
  cases fp <;> decide +kernel

theorem swap_le_swap {a i j : ℕ} (hij : i < j) (hne : (i, j) ≠ (a, a + 1)) :
    Equiv.swap a (a + 1) i ≤ Equiv.swap a (a + 1) j := by
  rw [Ne, Prod.mk.injEq] at hne
  rw [Equiv.swap_apply_def, Equiv.swap_apply_def]
  split_ifs <;> omega

theorem not_mem_stagePairs {stage : ℕ × ℕ} (hstage : Valid N stage) :
    (2 ^ fp.precision + 2, 2 ^ fp.precision + 3) ∉ stagePairs fp N stage.1 stage.2 := by
  obtain ⟨s, t, rfl, hts, -⟩ := hstage
  rw [mem_stagePairs (Nat.two_pow_pos t)]
  rintro ⟨hnext, -, -, heven, hblock⟩
  have ht : t = 0 := by
    by_contra h
    have htwo : 2 ^ 1 ≤ 2 ^ t := Nat.pow_le_pow_right (by decide) (by omega)
    omega
  subst ht
  cases s with
  | zero => exact blockOf_ne fp hblock
  | succ s =>
    have hmod : 2 ^ 0 % 2 ^ (s + 1) = 1 := Nat.mod_eq_of_lt (Nat.one_lt_two_pow (by omega))
    have hdvd : 2 ∣ 2 ^ fp.precision := dvd_pow_self 2 (by cases fp <;> decide)
    rw [hmod, Nat.div_one] at heven
    generalize 2 ^ fp.precision = width at heven hdvd
    omega

def swappedNeighbours (fp : DefaultFp) : Fields ℕ Unit :=
  ⟨Equiv.swap (2 ^ fp.precision + 2) (2 ^ fp.precision + 3), none⟩

theorem not_sortsEvery (hN : 2 ^ fp.precision + 3 < N) : ¬SortsEvery fp N := by
  rintro ⟨hsorts, -⟩
  obtain ⟨g, hg⟩ := exists_runsStages fp N (stages N) (swappedNeighbours fp)
  have hsorted := (hsorts ℕ Unit _ g hg).1 (2 ^ fp.precision + 2) (2 ^ fp.precision + 3)
    (by omega) hN
  obtain ⟨orders, horders, rfl⟩ := RunsStages.exists_net hg
  have hkeep : run orders.flatten (swappedNeighbours fp).keys = (swappedNeighbours fp).keys := by
    refine run_of_le (forall_flatten horders fun stage hstage c hc => ?_)
    have hvalid := stages_valid N stage hstage
    refine swap_le_swap ?_ fun heq => ?_
    · obtain ⟨s, t, rfl, -, -⟩ := hvalid
      rw [((mem_stagePairs (Nat.two_pow_pos t)).1 hc).1]
      exact Nat.lt_add_of_pos_right (Nat.two_pow_pos t)
    · have hpair : c = (2 ^ fp.precision + 2, 2 ^ fp.precision + 3) := heq
      exact not_mem_stagePairs hvalid (hpair ▸ hc)
  rw [foldl_compareSwap_keys, hkeep] at hsorted
  change Equiv.swap _ _ _ ≤ Equiv.swap _ _ _ at hsorted
  rw [Equiv.swap_apply_left, Equiv.swap_apply_right] at hsorted
  omega

/-- Every field of a length is sorted as long as the rounding takes no neighbours apart. -/
theorem parallelSort_sorts_iff (fp : DefaultFp) {N : ℕ} (hwide : N < 2 ^ 31) :
    SortsEvery fp N ↔ N ≤ 2 ^ fp.precision + 3 := by
  constructor
  · intro h
    by_contra hlt
    exact not_sortsEvery (Nat.not_le.1 hlt) h
  · intro hN
    refine ⟨fun K V _ f g h => ⟨h.sorted hN hwide, h.perm⟩, ?_⟩
    intro stage _ inv inv' hne c hc d hd
    exact apart_of_ne hne hc hd

theorem parallelSort_sorts_iff_thousand :
    1000 < 2 ^ 31 ∧ (SortsEvery .f32 1000 ↔ 1000 ≤ 2 ^ 24 + 3) :=
  ⟨by decide, parallelSort_sorts_iff .f32 (by decide)⟩

theorem not_sorts_of_rounded : ¬SortsEvery .f32 (2 ^ 24 + 4) :=
  not_sortsEvery (Nat.lt_succ_self _)

end Lengths

end Quadrants.Algorithms
