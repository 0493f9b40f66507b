import Mathlib.Data.Prod.Lex
import Quadrants.Library.BitonicNetwork

/-!
`bitonic_sort_kv_tiled` of `simt/sorting.py`. The lanes of a subgroup are in lockstep, so the
registers `key` and `value` are a function of the lane.
-/

namespace Quadrants.Simt

open Library.BitonicNetwork

variable {K V : Type} [LinearOrder K] [LinearOrder V]

def compareExchange (log2Size kLog2 jLog2 : ℕ) (regs : ℕ → K × V) (lane : ℕ) : K × V :=
  let tileMask := (1 <<< log2Size) - 1
  let kMask := 1 <<< kLog2
  let jMask := 1 <<< jLog2
  let partner := lane ^^^ jMask
  let (key, value) := regs lane
  let (theirKey, theirValue) := regs partner
  let iAmLow := lane &&& jMask == 0
  let ascending := lane &&& kMask &&& tileMask == 0
  let takeMin := iAmLow == ascending
  let theirLtMine := theirKey < key ∨ theirKey = key ∧ theirValue < value
  if takeMin then
    if theirLtMine then (theirKey, theirValue) else (key, value)
  else if ¬theirLtMine ∧ (theirKey ≠ key ∨ theirValue ≠ value) then (theirKey, theirValue)
  else (key, value)

def bitonicSortKvTiled (log2Size : ℕ) (regs : ℕ → K × V) : ℕ → K × V :=
  (List.range' 1 log2Size).foldl (fun regs kLog2 =>
    (List.range kLog2).reverse.foldl (fun regs jLog2 =>
      compareExchange log2Size kLog2 jLog2 regs) regs) regs

def tile (log2Size t : ℕ) (regs : ℕ → K × V) : List (K × V) :=
  (List.range (2 ^ log2Size)).map fun i => regs (t * 2 ^ log2Size + i)

def ascends (log2Size kLog2 lane : ℕ) : Bool :=
  lane &&& (1 <<< kLog2) &&& ((1 <<< log2Size) - 1) == 0

theorem and_masks_eq_zero (log2Size kLog2 lane : ℕ) :
    (lane &&& (1 <<< kLog2) &&& ((1 <<< log2Size) - 1) == 0) = ascends log2Size kLog2 lane := rfl

theorem and_two_pow_eq_zero (lane j : ℕ) : (lane &&& 2 ^ j == 0) = !lane.testBit j := by
  rw [Nat.and_two_pow]
  cases lane.testBit j with
  | false => rw [Bool.toNat_false, Nat.zero_mul]; rfl
  | true =>
    rw [Bool.toNat_true, Nat.one_mul, Bool.not_true, beq_eq_false_iff_ne]
    exact (Nat.two_pow_pos j).ne'

theorem ascends_of_lt {log2Size kLog2 : ℕ} (h : kLog2 < log2Size) (lane : ℕ) :
    ascends log2Size kLog2 lane = !lane.testBit kLog2 := by
  have hpow : 2 ^ kLog2 < 2 ^ log2Size := Nat.pow_lt_pow_right (by decide) h
  have hlt : lane &&& 2 ^ kLog2 < 2 ^ log2Size := Nat.lt_of_le_of_lt Nat.and_le_right hpow
  rw [ascends, Nat.one_shiftLeft, Nat.one_shiftLeft, Nat.and_two_pow_sub_one_eq_mod,
    Nat.mod_eq_of_lt hlt, and_two_pow_eq_zero]

theorem ascends_self (log2Size lane : ℕ) : ascends log2Size log2Size lane = true := by
  rw [ascends, Nat.one_shiftLeft, Nat.and_two_pow_sub_one_eq_mod, Nat.and_two_pow,
    Nat.mul_mod_left, beq_self_eq_true]

theorem ascends_xor {log2Size kLog2 j : ℕ} (hk : kLog2 ≤ log2Size) (hj : j < kLog2) (lane : ℕ) :
    ascends log2Size kLog2 (lane ^^^ 2 ^ j) = ascends log2Size kLog2 lane := by
  rcases Nat.lt_or_eq_of_le hk with hk | rfl
  · rw [ascends_of_lt hk, ascends_of_lt hk, Nat.testBit_xor, Nat.testBit_two_pow_of_ne (by omega),
      Bool.xor_false]
  · rw [ascends_self, ascends_self]

theorem lt_iff_lex (theirs mine : K × V) :
    (theirs.1 < mine.1 ∨ theirs.1 = mine.1 ∧ theirs.2 < mine.2) ↔ toLex theirs < toLex mine :=
  (Prod.Lex.toLex_lt_toLex).symm

theorem gt_iff_lex (theirs mine : K × V) :
    (¬toLex theirs < toLex mine ∧ (theirs.1 ≠ mine.1 ∨ theirs.2 ≠ mine.2)) ↔
      toLex mine < toLex theirs := by
  have hne : (theirs.1 ≠ mine.1 ∨ theirs.2 ≠ mine.2) ↔ toLex theirs ≠ toLex mine := by
    rw [← not_and_or, ← Prod.ext_iff, Ne, toLex_inj]
  rw [hne, not_lt, lt_iff_le_and_ne, ne_comm]

theorem compareExchange_eq (log2Size kLog2 jLog2 : ℕ) (regs : ℕ → K × V) :
    toLex ∘ compareExchange log2Size kLog2 jLog2 regs =
      layer (ascends log2Size kLog2) jLog2 (toLex ∘ regs) := by
  funext lane
  simp only [Function.comp_apply, compareExchange, layer, and_masks_eq_zero,
    Nat.one_shiftLeft jLog2, and_two_pow_eq_zero, beq_iff_eq, lt_iff_lex, gt_iff_lex, Prod.mk.eta]
  split
  · rw [min_comm, min_def_lt, apply_ite toLex]
  · rw [max_def_lt, apply_ite toLex]

theorem foldl_compareExchange (log2Size kLog2 j : ℕ) (regs : ℕ → K × V) :
    toLex ∘ (List.range j).reverse.foldl (fun regs jLog2 =>
        compareExchange log2Size kLog2 jLog2 regs) regs =
      merge (ascends log2Size kLog2) j (toLex ∘ regs) := by
  induction j generalizing regs with
  | zero => rfl
  | succ j ih =>
    rw [List.range_succ, List.reverse_append, List.reverse_singleton, List.singleton_append,
      List.foldl_cons, ih, compareExchange_eq, merge]

theorem foldl_stages (log2Size k : ℕ) (regs : ℕ → K × V) :
    toLex ∘ (List.range' 1 k).foldl (fun regs kLog2 =>
        (List.range kLog2).reverse.foldl (fun regs jLog2 =>
          compareExchange log2Size kLog2 jLog2 regs) regs) regs =
      sort (ascends log2Size) k (toLex ∘ regs) := by
  induction k with
  | zero => rfl
  | succ k ih =>
    rw [List.range'_concat, List.foldl_append, List.foldl_cons, List.foldl_nil, Nat.one_mul,
      foldl_compareExchange, ih, sort, Nat.add_comm]

theorem bitonicSortKvTiled_eq (log2Size : ℕ) (regs : ℕ → K × V) :
    toLex ∘ bitonicSortKvTiled log2Size regs =
      sort (ascends log2Size) log2Size (toLex ∘ regs) :=
  foldl_stages log2Size log2Size regs

omit [LinearOrder K] [LinearOrder V] in
theorem tile_eq_iff (log2Size t : ℕ) (regs other : ℕ → K × V) :
    tile log2Size t regs = tile log2Size t other ↔
      ∀ i < 2 ^ log2Size,
        block log2Size t (toLex ∘ regs) i = block log2Size t (toLex ∘ other) i := by
  rw [tile, tile, List.map_inj_left]
  constructor
  · intro h i hi
    exact congrArg toLex (h i (List.mem_range.2 hi))
  · intro h i hi
    exact toLex_inj.1 (h i (List.mem_range.1 hi))

/-- Every tile is sorted, has its own pairs, and knows nothing of the other tiles. -/
theorem bitonicSortKvTiled_sorts (log2Size t : ℕ) (regs : ℕ → K × V) :
    (tile log2Size t (bitonicSortKvTiled log2Size regs)).Pairwise
        (fun a b => toLex a ≤ toLex b) ∧
      (tile log2Size t (bitonicSortKvTiled log2Size regs)).Perm (tile log2Size t regs) ∧
      ∀ other : ℕ → K × V, tile log2Size t other = tile log2Size t regs →
        tile log2Size t (bitonicSortKvTiled log2Size other) =
          tile log2Size t (bitonicSortKvTiled log2Size regs) := by
  refine ⟨?_, ?_, ?_⟩
  · have hsorted := sort_monotoneOn (fun k hk => ascends_of_lt hk) (ascends_self log2Size)
      (toLex ∘ regs) t
    rw [← bitonicSortKvTiled_eq] at hsorted
    rw [tile, List.pairwise_map]
    refine List.pairwise_lt_range.imp_of_mem ?_
    intro i j hi hj hij
    exact hsorted (List.mem_range.1 hi) (List.mem_range.1 hj) hij.le
  · have hperm := sort_perm (fun m hm i hi => ascends_xor hm hi) le_rfl (toLex ∘ regs)
      (k := log2Size) (q := t)
    rw [← bitonicSortKvTiled_eq] at hperm
    have hpairs := hperm.map ofLex
    rw [List.map_map, List.map_map] at hpairs
    exact hpairs
  · intro other hother
    rw [tile_eq_iff] at hother ⊢
    rw [bitonicSortKvTiled_eq, bitonicSortKvTiled_eq]
    exact sort_congr (ascends log2Size) le_rfl hother

end Quadrants.Simt
