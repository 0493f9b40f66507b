import Mathlib.Data.BitVec
import Mathlib.Data.List.Basic
import Mathlib.Algebra.Order.Ring.Int
import Quadrants.Library.StridedLoop

/-!
`cpu_range_for.h` and the loops that `make_cpu_per_worker_range_for.cpp` builds with it.
-/

namespace Quadrants.Offload

open List

open Library.StridedLoop (mapM_eq_some)

def int64 (x : ℤ) : Option ℤ :=
  if -2 ^ 63 ≤ x ∧ x < 2 ^ 63 then some x else none

def getCpuPerWorkerBlockStartIndex (originalRangeBegin originalRangeEnd numBlocks minBlockSize
    boundaryIndex : BitVec 32) : Option (BitVec 32) := do
  let difference ← int64 (originalRangeEnd.toInt - originalRangeBegin.toInt)
  let count := max 0 difference
  let sum ← int64 (count + numBlocks.toInt)
  let dividend ← int64 (sum - 1)
  let quotient ← if numBlocks.toInt = 0 then none else int64 (dividend.tdiv numBlocks.toInt)
  let blockSize := max quotient minBlockSize.toInt
  let product ← int64 (blockSize * boundaryIndex.toInt)
  let boundary ← int64 (originalRangeBegin.toInt + product)
  pure (BitVec.ofInt 32 (min originalRangeEnd.toInt boundary))

example : getCpuPerWorkerBlockStartIndex 0#32 200#32 4#32 512#32 1#32 = some 200#32 := by decide

theorem toInt_add_one {i stop : BitVec 32} (h : i.toInt < stop.toInt) :
    (i + 1).toInt = i.toInt + 1 := by
  have hstop := BitVec.toInt_lt (x := stop)
  have hi := BitVec.le_toInt i
  have hone : (1 : BitVec 32).toInt = 1 := by decide
  rw [BitVec.toInt_add]
  apply Int.bmod_eq_of_le <;> omega

def rangeFor (i stop : BitVec 32) : List (BitVec 32) :=
  if i.toInt < stop.toInt then i :: rangeFor (i + 1) stop else []
  termination_by (stop.toInt - i.toInt).toNat
  decreasing_by
    rename_i h
    rw [toInt_add_one h]
    omega

def blockIterations (originalRangeBegin originalRangeEnd numBlocks minBlockSize
    blockIndex : BitVec 32) : Option (List (BitVec 32)) := do
  let start := getCpuPerWorkerBlockStartIndex originalRangeBegin originalRangeEnd numBlocks
    minBlockSize
  let nextBlockIndex := blockIndex + 1
  let blockBegin ← start blockIndex
  let blockEnd ← start nextBlockIndex
  pure (rangeFor blockBegin blockEnd)

theorem mem_rangeFor (i stop x : BitVec 32) :
    x ∈ rangeFor i stop ↔ i.toInt ≤ x.toInt ∧ x.toInt < stop.toInt := by
  fun_induction rangeFor i stop with
  | case1 i h ih =>
    rw [mem_cons, ih, toInt_add_one h]
    constructor
    · rintro (rfl | ⟨hle, hlt⟩)
      · exact ⟨le_rfl, h⟩
      · exact ⟨by omega, hlt⟩
    · rintro ⟨hle, hlt⟩
      rcases hle.eq_or_lt with heq | hlt'
      · exact Or.inl (BitVec.eq_of_toInt_eq heq.symm)
      · exact Or.inr ⟨hlt', hlt⟩
  | case2 i h =>
    refine iff_of_false not_mem_nil ?_
    rintro ⟨hle, hlt⟩
    omega

theorem rangeFor_pairwise (i stop : BitVec 32) :
    (rangeFor i stop).Pairwise fun x y => x.toInt < y.toInt := by
  fun_induction rangeFor i stop with
  | case1 i h ih =>
    refine pairwise_cons.2 ⟨fun x hx => ?_, ih⟩
    have hle := ((mem_rangeFor _ _ _).1 hx).1
    rw [toInt_add_one h] at hle
    omega
  | case2 i h => exact List.Pairwise.nil

theorem rangeFor_of_le {i stop : BitVec 32} (h : stop.toInt ≤ i.toInt) : rangeFor i stop = [] := by
  rw [rangeFor, if_neg (by omega)]

theorem rangeFor_append {i middle stop : BitVec 32} (hle : i.toInt ≤ middle.toInt)
    (hstop : middle.toInt ≤ stop.toInt) :
    rangeFor i middle ++ rangeFor middle stop = rangeFor i stop := by
  fun_induction rangeFor i middle with
  | case1 i h ih =>
    rw [rangeFor.eq_def i stop, if_pos (by omega), cons_append, ih]
    rw [toInt_add_one h]
    omega
  | case2 i h =>
    have heq : i = middle := BitVec.eq_of_toInt_eq (by omega)
    rw [heq, nil_append]

theorem flatMap_rangeFor {start : ℕ → BitVec 32} {n : ℕ}
    (hle : ∀ k < n, (start k).toInt ≤ (start (k + 1)).toInt) :
    (List.range n).flatMap (fun k => rangeFor (start k) (start (k + 1))) =
        rangeFor (start 0) (start n) ∧ (start 0).toInt ≤ (start n).toInt := by
  induction n with
  | zero => exact ⟨(rangeFor_of_le le_rfl).symm, le_rfl⟩
  | succ n ih =>
    obtain ⟨hrange, hfirst⟩ := ih fun k hk => hle k (by omega)
    have hlast := hle n (by omega)
    refine ⟨?_, hfirst.trans hlast⟩
    rw [range_succ, flatMap_append, hrange, flatMap_singleton]
    exact rangeFor_append hfirst hlast

section Blocks

def blockSize (originalRangeBegin originalRangeEnd numBlocks minBlockSize : BitVec 32) : ℤ :=
  max ((max 0 (originalRangeEnd.toInt - originalRangeBegin.toInt) + numBlocks.toInt - 1) /
    numBlocks.toInt) minBlockSize.toInt

def blockStart (originalRangeBegin originalRangeEnd numBlocks minBlockSize : BitVec 32) (k : ℕ) :
    ℤ :=
  min originalRangeEnd.toInt (originalRangeBegin.toInt +
    blockSize originalRangeBegin originalRangeEnd numBlocks minBlockSize * k)

variable (b e : BitVec 32) {n : BitVec 32} (m : BitVec 32)

theorem int64_of_lt {x : ℤ} (hle : -2 ^ 63 ≤ x) (hlt : x < 2 ^ 63) : int64 x = some x :=
  if_pos ⟨hle, hlt⟩

theorem toInt_bounds (x : BitVec 32) : -2 ^ 31 ≤ x.toInt ∧ x.toInt < 2 ^ 31 :=
  ⟨BitVec.le_toInt x, BitVec.toInt_lt⟩

omit b e m in
theorem toNat_of_pos (hn : 0 < n.toInt) : (n.toNat : ℤ) = n.toInt := by
  have hcond := BitVec.toInt_eq_toNat_cond n
  split at hcond <;> omega

theorem blockSize_nonneg (hn : 0 < n.toInt) : 0 ≤ blockSize b e n m := by
  refine le_trans (Int.ediv_nonneg ?_ hn.le) (le_max_left _ _)
  omega

theorem le_blockSize_mul (hn : 0 < n.toInt) : e.toInt - b.toInt ≤ blockSize b e n m * n.toInt := by
  rw [blockSize]
  generalize hdividend : max 0 (e.toInt - b.toInt) + n.toInt - 1 = dividend
  have hmod := Int.emod_lt_of_pos dividend hn
  have hdiv := Int.mul_ediv_add_emod dividend n.toInt
  have hclipped := mul_le_mul_of_nonneg_right (le_max_left (dividend / n.toInt) m.toInt) hn.le
  rw [mul_comm n.toInt] at hdiv
  omega

theorem blockSize_mul_le (hn : 0 < n.toInt) {k : ℤ} (hk : 0 ≤ k) (hle : k ≤ n.toInt) :
    blockSize b e n m * k ≤ 2 ^ 62 := by
  obtain ⟨-, hblocks⟩ := toInt_bounds n
  obtain ⟨hbegin, -⟩ := toInt_bounds b
  obtain ⟨-, hend⟩ := toInt_bounds e
  obtain ⟨-, hmin⟩ := toInt_bounds m
  rw [blockSize, max_mul_of_nonneg _ _ hk, max_le_iff]
  constructor
  · generalize hdividend : max 0 (e.toInt - b.toInt) + n.toInt - 1 = dividend
    have hpos : 0 ≤ dividend := by omega
    have hquotient := Int.ediv_mul_le dividend hn.ne'
    have hmul := mul_le_mul_of_nonneg_left hle (Int.ediv_nonneg hpos hn.le)
    omega
  · calc m.toInt * k ≤ 2 ^ 31 * k := mul_le_mul_of_nonneg_right hmin.le hk
      _ ≤ 2 ^ 31 * 2 ^ 31 := mul_le_mul_of_nonneg_left (hle.trans hblocks.le) (by omega)
      _ = 2 ^ 62 := rfl

theorem getCpuPerWorkerBlockStartIndex_eq (hn : 0 < n.toInt) {k : ℕ} (hk : k ≤ n.toInt) :
    getCpuPerWorkerBlockStartIndex b e n m (BitVec.ofNat 32 k) =
      some (BitVec.ofInt 32 (blockStart b e n m k)) := by
  obtain ⟨-, hblocks⟩ := toInt_bounds n
  obtain ⟨hbegin, hbegin'⟩ := toInt_bounds b
  obtain ⟨hend, hend'⟩ := toInt_bounds e
  have hindex : (BitVec.ofNat 32 k).toInt = k := by
    rw [BitVec.toInt_ofNat']
    apply Int.bmod_eq_of_le <;> omega
  have hproduct := blockSize_mul_le b e m hn (Int.natCast_nonneg k) hk
  have hproduct' := mul_nonneg (blockSize_nonneg b e m hn) (Int.natCast_nonneg k)
  have hdividend : 0 ≤ max 0 (e.toInt - b.toInt) + n.toInt - 1 := by omega
  have hquotient := Int.ediv_le_self n.toInt hdividend
  have hquotient' := Int.ediv_nonneg hdividend hn.le
  simp only [getCpuPerWorkerBlockStartIndex, Option.bind_eq_bind, Option.pure_def]
  rw [int64_of_lt (by omega) (by omega), Option.bind_some, int64_of_lt (by omega) (by omega),
    Option.bind_some, int64_of_lt (by omega) (by omega), Option.bind_some, if_neg hn.ne',
    Int.tdiv_eq_ediv_of_nonneg hdividend, int64_of_lt (by omega) (by omega), Option.bind_some,
    hindex, ← blockSize, int64_of_lt (by omega) (by omega), Option.bind_some,
    int64_of_lt (by omega) (by omega), Option.bind_some, blockStart]

theorem toInt_blockStart (hn : 0 < n.toInt) (k : ℕ) :
    (BitVec.ofInt 32 (blockStart b e n m k)).toInt = blockStart b e n m k := by
  have hproduct := mul_nonneg (blockSize_nonneg b e m hn) (Int.natCast_nonneg k)
  obtain ⟨hbegin, hbegin'⟩ := toInt_bounds b
  obtain ⟨hend, hend'⟩ := toInt_bounds e
  rw [BitVec.toInt_ofInt, blockStart]
  apply Int.bmod_eq_of_le <;> omega

theorem blockStart_le_succ (hn : 0 < n.toInt) (k : ℕ) :
    blockStart b e n m k ≤ blockStart b e n m (k + 1) := by
  have hsize := blockSize_nonneg b e m hn
  rw [blockStart, blockStart, Nat.cast_succ, mul_add_one]
  omega

theorem blockStart_zero : blockStart b e n m 0 = min e.toInt b.toInt := by
  rw [blockStart, Nat.cast_zero, mul_zero, add_zero]

theorem blockStart_last (hn : 0 < n.toInt) : blockStart b e n m n.toNat = e.toInt := by
  have hcover := le_blockSize_mul b e m hn
  rw [blockStart, toNat_of_pos hn]
  omega

variable {b e m} in
theorem iterations_eq (hn : 0 < n.toInt) :
    (List.range n.toNat).flatMap (fun k => rangeFor (BitVec.ofInt 32 (blockStart b e n m k))
        (BitVec.ofInt 32 (blockStart b e n m (k + 1)))) = rangeFor b e := by
  have hle (k : ℕ) : k < n.toNat → (BitVec.ofInt 32 (blockStart b e n m k)).toInt ≤
      (BitVec.ofInt 32 (blockStart b e n m (k + 1))).toInt := by
    intro _
    rw [toInt_blockStart b e m hn, toInt_blockStart b e m hn]
    exact blockStart_le_succ b e m hn k
  obtain ⟨hrange, -⟩ := flatMap_rangeFor hle
  rw [hrange, blockStart_zero, blockStart_last b e m hn, BitVec.ofInt_toInt]
  rcases le_total b.toInt e.toInt with h | h
  · rw [min_eq_right h, BitVec.ofInt_toInt]
  · rw [min_eq_left h, BitVec.ofInt_toInt, rangeFor_of_le le_rfl, rangeFor_of_le h]

variable {b e m} in
theorem blockIterations_eq {k : ℕ} {x y : BitVec 32}
    (hbegin : getCpuPerWorkerBlockStartIndex b e n m (BitVec.ofNat 32 k) = some x)
    (hend : getCpuPerWorkerBlockStartIndex b e n m (BitVec.ofNat 32 (k + 1)) = some y) :
    blockIterations b e n m (BitVec.ofNat 32 k) = some (rangeFor x y) := by
  have hnext : BitVec.ofNat 32 k + 1 = BitVec.ofNat 32 (k + 1) := (BitVec.ofNat_add k 1).symm
  simp only [blockIterations, hnext, hbegin, hend, Option.bind_eq_bind, Option.bind_some,
    Option.pure_def]

end Blocks

/-- For every task and every configuration: the boundaries exist, that is, no intermediate leaves 64
bits; the ranges are in order; each block runs its range; and in whatever order the blocks run, each
iteration of the original loop runs once. -/
theorem blockIterations_runEachOnce (originalRangeBegin originalRangeEnd numBlocks
    minBlockSize : BitVec 32) (hblocks : 1 ≤ numBlocks.toInt) : ∃ start : ℕ → BitVec 32,
      (∀ k ≤ numBlocks.toNat, getCpuPerWorkerBlockStartIndex originalRangeBegin originalRangeEnd
        numBlocks minBlockSize (BitVec.ofNat 32 k) = some (start k)) ∧
      (∀ k < numBlocks.toNat, (start k).toInt ≤ (start (k + 1)).toInt ∧
        ∃ indices, blockIterations originalRangeBegin originalRangeEnd numBlocks minBlockSize
            (BitVec.ofNat 32 k) = some indices ∧
          indices.Pairwise (fun x y => x.toInt < y.toInt) ∧
          ∀ x, x ∈ indices ↔ (start k).toInt ≤ x.toInt ∧ x.toInt < (start (k + 1)).toInt) ∧
      ∃ blocks : List (List (BitVec 32)),
        (List.range numBlocks.toNat).mapM (fun k => blockIterations originalRangeBegin
          originalRangeEnd numBlocks minBlockSize (BitVec.ofNat 32 k)) = some blocks ∧
        blocks.flatten = rangeFor originalRangeBegin originalRangeEnd ∧
        (∀ order : List (List (BitVec 32)), order.Perm blocks → order.flatten.Nodup ∧
          ∀ x, x ∈ order.flatten ↔
            originalRangeBegin.toInt ≤ x.toInt ∧ x.toInt < originalRangeEnd.toInt) := by
  have hstart (k : ℕ) (hk : k ≤ numBlocks.toNat) :
      getCpuPerWorkerBlockStartIndex originalRangeBegin originalRangeEnd numBlocks minBlockSize
        (BitVec.ofNat 32 k) = some (BitVec.ofInt 32
          (blockStart originalRangeBegin originalRangeEnd numBlocks minBlockSize k)) := by
    refine getCpuPerWorkerBlockStartIndex_eq _ _ _ hblocks ?_
    have hnat := toNat_of_pos hblocks
    omega
  have hblock (k : ℕ) (hk : k < numBlocks.toNat) := blockIterations_eq
    (hstart k hk.le) (hstart (k + 1) hk)
  refine ⟨_, hstart, ?_, _, mapM_eq_some fun k hk => hblock k (mem_range.1 hk), ?_, ?_⟩
  · intro k hk
    refine ⟨?_, _, hblock k hk, rangeFor_pairwise _ _, mem_rangeFor _ _⟩
    rw [toInt_blockStart _ _ _ hblocks, toInt_blockStart _ _ _ hblocks]
    exact blockStart_le_succ _ _ _ hblocks k
  · rw [← flatMap_def, iterations_eq hblocks]
  · intro order horder
    have hperm := horder.flatten
    rw [← flatMap_def, iterations_eq hblocks] at hperm
    refine ⟨hperm.nodup_iff.2 ?_, fun x => hperm.mem_iff.trans (mem_rangeFor _ _ x)⟩
    exact (rangeFor_pairwise _ _).imp fun hlt heq => absurd (heq ▸ hlt) (lt_irrefl _)

theorem blockIterations_runEachOnce_four : ∃ blocks : List (List (BitVec 32)),
      (List.range 4).mapM (fun k => blockIterations 0#32 200#32 4#32 1#32 (BitVec.ofNat 32 k)) =
        some blocks ∧ blocks.flatten = rangeFor 0#32 200#32 := by
  obtain ⟨-, -, -, blocks, hblocks, hflatten, -⟩ :=
    blockIterations_runEachOnce 0#32 200#32 4#32 1#32 (by decide)
  exact ⟨blocks, hblocks, hflatten⟩

end Quadrants.Offload
