import Quadrants.Algorithms.Select
import Quadrants.Algorithms.StaircaseCorrect

namespace Quadrants.Algorithms

variable {D N n : ℕ}

theorem hostBlockCount_pos (h : 0 < n) : 0 < hostBlockCount n := by
  simp only [hostBlockCount, BLOCK_DIM]
  omega

theorem hostBlockCount_mono (h : n ≤ N) : hostBlockCount n ≤ hostBlockCount N :=
  Nat.div_le_div_right (Nat.add_le_add_right h _)

theorem partials_mono (h : n ≤ N) (levels : ℕ) : partials n levels ≤ partials N levels := by
  induction levels generalizing n N with
  | zero => exact le_rfl
  | succ levels ih => exact Nat.add_le_add (hostBlockCount_mono h) (ih (hostBlockCount_mono h))

theorem sumLevels_eq (levels cur cursor : ℕ) :
    sumLevels levels cur cursor = cursor + partials cur levels := by
  induction levels generalizing cur cursor with
  | zero => rfl
  | succ levels ih =>
    rw [sumLevels, ih, partials]
    omega

def counted (n : ℕ) : ℕ → ℕ
  | 0 => 0
  | levels + 1 =>
    (if hostBlockCount n > 1 then hostBlockCount n else 0) + counted (hostBlockCount n) levels

theorem levelPartialsLoop_eq (levels t cursor : ℕ) :
    levelPartialsLoop levels t cursor = cursor + counted t levels := by
  induction levels generalizing t cursor with
  | zero => rfl
  | succ levels ih =>
    rw [levelPartialsLoop, ih, counted]
    split_ifs
    · omega
    · omega

theorem counted_of_le (h : n ≤ BLOCK_DIM) (levels : ℕ) : counted n levels = 0 := by
  induction levels generalizing n with
  | zero => rfl
  | succ levels ih =>
    have hle : hostBlockCount n ≤ 1 := hostBlockCount_le_pow (k := 0) (by simpa using h)
    rw [counted, if_neg (by omega), ih (hle.trans (by decide))]

theorem counted_add {j : ℕ} (h : n ≤ BLOCK_DIM ^ (j + 1)) (k : ℕ) :
    counted n (j + k) = counted n j := by
  induction j generalizing n with
  | zero => rw [counted_of_le (by simpa using h), counted]
  | succ j ih => rw [Nat.succ_add, counted, counted, ih (hostBlockCount_le_pow h)]

theorem reduceDepthLoop_shift (n cap depth : ℕ) (hcap : 0 < cap) :
    reduceDepthLoop n (cap * BLOCK_DIM) (depth + 1) (Nat.mul_pos hcap (by decide)) =
      reduceDepthLoop (hostBlockCount n) cap depth hcap + 1 := by
  have hstep : cap * BLOCK_DIM < n ↔ cap < hostBlockCount n := by
    simp only [hostBlockCount, BLOCK_DIM]
    omega
  rcases Nat.lt_or_ge (cap * BLOCK_DIM) n with h | h
  · rw [reduceDepthLoop, if_pos h, reduceDepthLoop.eq_def (hostBlockCount n), if_pos (hstep.mp h)]
    exact reduceDepthLoop_shift n (cap * BLOCK_DIM) (depth + 1) (Nat.mul_pos hcap (by decide))
  · have h' : ¬ cap < hostBlockCount n := fun hlt => Nat.not_lt.mpr h (hstep.mpr hlt)
    rw [reduceDepthLoop, if_neg (Nat.not_lt.mpr h), reduceDepthLoop, if_neg h']
termination_by n - cap
decreasing_by
  simp only [BLOCK_DIM] at *
  omega

theorem reduceDepthForN_of_le (h : n ≤ BLOCK_DIM) : reduceDepthForN n = 1 := by
  rw [reduceDepthForN, reduceDepthLoop, if_neg (Nat.not_lt.mpr h)]

theorem reduceDepthForN_of_lt (h : BLOCK_DIM < n) :
    reduceDepthForN n = reduceDepthForN (hostBlockCount n) + 1 := by
  rw [reduceDepthForN, reduceDepthLoop, if_pos h]
  exact reduceDepthLoop_shift n BLOCK_DIM 1 (by decide)

theorem one_le_reduceDepthForN (n : ℕ) : 1 ≤ reduceDepthForN n := by
  rcases Nat.lt_or_ge BLOCK_DIM n with h | h
  · rw [reduceDepthForN_of_lt h]
    omega
  · rw [reduceDepthForN_of_le h]

theorem one_lt_hostBlockCount_iff : 1 < hostBlockCount n ↔ BLOCK_DIM < n := by
  simp only [hostBlockCount, BLOCK_DIM]
  omega

theorem counted_add_flat (hn : 0 < n) (levels : ℕ) :
    counted n levels + (levels + 1 - reduceDepthForN n) = partials n levels := by
  induction levels generalizing n with
  | zero =>
    have := one_le_reduceDepthForN n
    simp only [counted, partials]
    omega
  | succ levels ih =>
    have hB := hostBlockCount_pos hn
    have hrec := ih hB
    rw [counted, partials]
    rcases Nat.lt_or_ge BLOCK_DIM n with h | h
    · rw [if_pos (one_lt_hostBlockCount_iff.mpr h), reduceDepthForN_of_lt h]
      omega
    · have hflat : ¬ 1 < hostBlockCount n := fun h' => by
        have := one_lt_hostBlockCount_iff.mp h'
        omega
      rw [if_neg hflat, reduceDepthForN_of_le h]
      rw [reduceDepthForN_of_le (n := hostBlockCount n) (by simp only [BLOCK_DIM]; omega)] at hrec
      omega

theorem le_pow_of_reduceDepthForN_le {k : ℕ} (h : reduceDepthForN n ≤ k) : n ≤ BLOCK_DIM ^ k := by
  induction k generalizing n with
  | zero =>
    have := one_le_reduceDepthForN n
    omega
  | succ k ih =>
    rcases Nat.lt_or_ge BLOCK_DIM n with hn | hn
    · rw [reduceDepthForN_of_lt hn] at h
      have hB := ih (n := hostBlockCount n) (by omega)
      have hle := le_hostBlockCount_mul n
      calc n ≤ hostBlockCount n * BLOCK_DIM := hle
        _ ≤ BLOCK_DIM ^ k * BLOCK_DIM := Nat.mul_le_mul_right _ hB
        _ = BLOCK_DIM ^ (k + 1) := (Nat.pow_succ BLOCK_DIM k).symm
    · exact hn.trans (Nat.le_self_pow (by omega) _)

theorem reduceScratchSlots_eq (h : D ≤ MAX_LOG256_MAX_N) (n : ℕ) :
    reduceScratchSlots n D = .ok (atLeastOne (partials n (D - 1))) := by
  rw [reduceScratchSlots, validateLog256MaxN_of_le h, sumLevels_eq, Nat.zero_add]
  rfl

theorem exclusiveScanScratchSlots_eq {levels : ℕ} (h : levels + 2 ≤ MAX_LOG256_MAX_N) (n : ℕ) :
    exclusiveScanScratchSlots n (levels + 2) = .ok (atLeastOne (partials n (levels + 1))) := by
  have hsum := sumLevels_eq levels (hostBlockCount n) (hostBlockCount n)
  rw [exclusiveScanScratchSlots, validateLog256MaxN_of_le h, partials, ← hsum]
  rfl

theorem le_atLeastOne (slots : ℕ) : slots ≤ atLeastOne slots := Nat.le_add_right _ _

theorem atLeastOne_of_pos {slots : ℕ} (h : 0 < slots) : atLeastOne slots = slots := by
  rw [atLeastOne, if_neg (by omega), Nat.add_zero]

theorem selectScratchSlots_eq (hn : 0 < n) : selectScratchSlots n =
      n + hostBlockCount n + counted (hostBlockCount n) MAX_SCRATCH_LEVELS := by
  simp only [selectScratchSlots, if_pos hn, Nat.mul_one, scanTotalScratchSlots, levelPartialsSlots,
    levelPartialsLoop_eq]
  exact atLeastOne_of_pos (by omega)

theorem reduceByKeyScratchSlots_eq (hn : 0 < n) :
    reduceByKeyScratchSlots n = n + counted n (MAX_SCRATCH_LEVELS + 1) := by
  simp only [reduceByKeyScratchSlots, if_pos hn, scanTotalScratchSlots, levelPartialsSlots,
    levelPartialsLoop_eq]
  rcases Nat.lt_or_ge BLOCK_DIM n with h | h
  · rw [if_pos h, counted, if_pos (one_lt_hostBlockCount_iff.mpr h), atLeastOne_of_pos (by omega)]
    omega
  · rw [if_neg (Nat.not_lt.mpr h), counted_of_le h, atLeastOne_of_pos (by omega)]
    omega

theorem selectScratchSlots_add_flat (hN : 0 < N) (hD : 2 ≤ D) (hmax : D ≤ MAX_LOG256_MAX_N)
    (hle : N ≤ BLOCK_DIM ^ D) :
    selectScratchSlots N + (D - max 2 (reduceDepthForN N)) = N + partials N (D - 1) := by
  obtain ⟨levels, rfl⟩ : ∃ levels, D = levels + 2 := ⟨D - 2, by omega⟩
  have hB := hostBlockCount_pos hN
  have hcounted := counted_add (hostBlockCount_le_pow hle) (MAX_SCRATCH_LEVELS - levels)
  have hflat := counted_add_flat hB levels
  have hsum : levels + (MAX_SCRATCH_LEVELS - levels) = MAX_SCRATCH_LEVELS := by
    simp only [MAX_SCRATCH_LEVELS, MAX_LOG256_MAX_N] at *
    omega
  rw [hsum] at hcounted
  have hpartials : partials N (levels + 2 - 1) =
      hostBlockCount N + partials (hostBlockCount N) levels := rfl
  rw [selectScratchSlots_eq hN, hcounted]
  rcases Nat.lt_or_ge BLOCK_DIM N with h | h
  · have hdepth := reduceDepthForN_of_lt h
    have := one_le_reduceDepthForN (hostBlockCount N)
    omega
  · have hone : hostBlockCount N ≤ BLOCK_DIM := (hostBlockCount_le N).trans h
    rw [reduceDepthForN_of_le hone] at hflat
    rw [reduceDepthForN_of_le h]
    omega

theorem reduceByKeyScratchSlots_add_flat (hN : 0 < N) (hD : 1 ≤ D)
    (hmax : D ≤ MAX_LOG256_MAX_N) (hle : N ≤ BLOCK_DIM ^ D) :
    reduceByKeyScratchSlots N + (D - reduceDepthForN N) = N + partials N (D - 1) := by
  obtain ⟨levels, rfl⟩ : ∃ levels, D = levels + 1 := ⟨D - 1, by omega⟩
  have hcounted := counted_add hle (MAX_SCRATCH_LEVELS + 1 - levels)
  have hflat := counted_add_flat hN levels
  have hsum : levels + (MAX_SCRATCH_LEVELS + 1 - levels) = MAX_SCRATCH_LEVELS + 1 := by
    simp only [MAX_SCRATCH_LEVELS, MAX_LOG256_MAX_N] at *
    omega
  rw [hsum] at hcounted
  rw [reduceByKeyScratchSlots_eq hN, Nat.add_sub_cancel]
  omega

end Quadrants.Algorithms
