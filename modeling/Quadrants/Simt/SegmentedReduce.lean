import Mathlib.Data.BitVec
import Quadrants.Algorithms.Staircase
import Quadrants.Library.StridedLoop
import Quadrants.Simt.FoldOrder

/-!
The segmented reductions of `simt/reductions.py`, on a subgroup of 32 or 64 lanes.
-/

namespace Quadrants.Simt

open Library.SegmentFold Library.StridedLoop Quadrants.Algorithms List BitVec

section Code

def shiftLeft {w : ℕ} (x amount : BitVec w) : Option (BitVec w) :=
  if amount.toNat < w then some (x <<< amount.toNat) else none

def shiftRight {w : ℕ} (x amount : BitVec w) : Option (BitVec w) :=
  if amount.toNat < w then some (x >>> amount.toNat) else none

variable {α : Type} (log2 : ℕ) (outside : ℕ → ℕ → α) (op : α → α → α) (log2Size : ℕ)
  (value : ℕ → α) (headFlag : ℕ → ℤ)

def ballot (predicate : ℕ → Bool) : BitVec 64 :=
  (List.range (subgroupSize log2)).foldl
    (fun mask lane => if predicate lane then mask ||| 1#64 <<< lane else mask) 0#64

def segmentHeadDistanceTiled (invocationId : ℕ) : Option (BitVec 32) := do
  let fullMask := ballot log2 fun lane => headFlag lane ≠ 0
  let lane := BitVec.ofNat 32 invocationId
  if log2Size ≤ 5 then
    let halfBase := lane &&& ~~~31#32
    let headMask := (← shiftRight fullMask (halfBase.setWidth 64)).setWidth 32
    let laneInHalf := lane - halfBase
    let groupBase := laneInHalf &&& ~~~BitVec.ofNat 32 (1 <<< log2Size - 1)
    let bitsInGroup := BitVec.ofNat 32 (2 ^ (1 <<< log2Size) - 1)
    let groupMask ← shiftLeft bitsInGroup groupBase
    let effectiveMask := (headMask &&& groupMask) ||| (← shiftLeft 1#32 groupBase)
    let inclusiveMask ← shiftRight 0xFFFFFFFF#32 (31#32 - laneInHalf)
    let lower := effectiveMask &&& inclusiveMask
    let segmentHead := 31#32 - lower.clz
    pure (laneInHalf - segmentHead)
  else
    let bitsInGroup := BitVec.ofNat 64 (1 <<< (1 <<< log2Size) - 1)
    let groupBase := lane.signExtend 64 &&& ~~~BitVec.ofNat 64 (1 <<< log2Size - 1)
    let groupMask ← shiftLeft bitsInGroup groupBase
    let effectiveMask := (fullMask &&& groupMask) ||| (← shiftLeft 1#64 groupBase)
    let inclusiveMask ← shiftRight 0xFFFFFFFFFFFFFFFF#64 ((63#32 - lane).signExtend 64)
    let lower := effectiveMask &&& inclusiveMask
    let segmentHead := 63#32 - lower.clz.setWidth 32
    pure (lane - segmentHead)

def segmentedRounds (distance : ℕ → ℤ) (steps : ℕ) : ℕ → α :=
  (List.range steps).foldl (fun value i lane =>
    let offset := 1 <<< i
    let partner := shuffleUp log2 outside value offset lane
    if distance lane ≥ offset then op (value lane) partner else value lane) value

def segmentedReduceTiled : Option (ℕ → α) :=
  if log2Size ≤ 6 then do
    let distances ← (List.range (subgroupSize log2)).mapM
      (segmentHeadDistanceTiled log2 log2Size headFlag)
    pure (segmentedRounds log2 outside op value
      (fun lane => (distances.getD lane 0#32).toInt) log2Size)
  else none

end Code

section Members

variable (dtype : Dtype) (log2 : ℕ) (outside : ℕ → ℕ → dtype.Bits) (log2Size : ℕ)
  (value : ℕ → dtype.Bits) (headFlag : ℕ → ℤ)

def segmentedReduceAddTiled : Option (ℕ → dtype.Bits) :=
  segmentedReduceTiled log2 outside (opBins dtype .add).op log2Size value headFlag

def segmentedReduceMinTiled : Option (ℕ → dtype.Bits) :=
  segmentedReduceTiled log2 outside (opBins dtype .min).op log2Size value headFlag

def segmentedReduceMaxTiled : Option (ℕ → dtype.Bits) :=
  segmentedReduceTiled log2 outside (opBins dtype .max).op log2Size value headFlag

end Members

/-- The last flagged lane at or before `lane` in its tile, or the first lane of the tile -/
structure IsSegmentHead (log2Size : ℕ) (headFlag : ℕ → ℤ) (lane head : ℕ) : Prop where
  start_le : lane / 2 ^ log2Size * 2 ^ log2Size ≤ head
  le : head ≤ lane
  flagged : headFlag head ≠ 0 ∨ head = lane / 2 ^ log2Size * 2 ^ log2Size
  last : ∀ i, head < i → i ≤ lane → headFlag i = 0

section Masks

variable {w : ℕ}

variable {base lane n size : ℕ} {x : BitVec w}

theorem shiftLeft_of_lt (h : n < w) : shiftLeft x (BitVec.ofNat w n) = some (x <<< n) := by
  have hn : (BitVec.ofNat w n).toNat = n :=
    Nat.mod_eq_of_lt (h.trans Nat.lt_two_pow_self)
  rw [shiftLeft, hn, if_pos h]

theorem shiftRight_of_lt (h : n < w) : shiftRight x (BitVec.ofNat w n) = some (x >>> n) := by
  have hn : (BitVec.ofNat w n).toNat = n :=
    Nat.mod_eq_of_lt (h.trans Nat.lt_two_pow_self)
  rw [shiftRight, hn, if_pos h]

theorem getLsbD_ballot {log2 : ℕ} (h : log2 = 5 ∨ log2 = 6) (predicate : ℕ → Bool) (i : ℕ) :
    (ballot log2 predicate).getLsbD i = (decide (i < subgroupSize log2) && predicate i) := by
  have hsize : subgroupSize log2 ≤ 64 := by
    rcases h with rfl | rfl <;> decide
  rw [ballot]
  generalize subgroupSize log2 = size at hsize
  induction size with
  | zero => simp
  | succ size ih =>
    rw [range_succ, foldl_append, foldl_cons, foldl_nil]
    have hone : (1#64 <<< size).getLsbD i = decide (i = size) := by
      rw [getLsbD_shiftLeft, getLsbD_one, Bool.eq_iff_iff]
      simp only [Bool.and_eq_true, decide_eq_true_eq, Bool.not_eq_true', decide_eq_false_iff_not]
      omega
    split_ifs with hset
    · rw [getLsbD_or, ih (by omega), hone, Bool.eq_iff_iff]
      simp only [Bool.or_eq_true, Bool.and_eq_true, decide_eq_true_eq]
      constructor
      · rintro (⟨hlt, hi⟩ | rfl)
        · exact ⟨by omega, hi⟩
        · exact ⟨by omega, hset⟩
      · rintro ⟨hlt, hi⟩
        rcases Nat.lt_succ_iff_lt_or_eq.1 hlt with hlt | rfl
        · exact Or.inl ⟨hlt, hi⟩
        · exact Or.inr rfl
    · rw [ih (by omega), Bool.eq_iff_iff]
      simp only [Bool.and_eq_true, decide_eq_true_eq]
      constructor
      · rintro ⟨hlt, hi⟩
        exact ⟨by omega, hi⟩
      · rintro ⟨hlt, hi⟩
        rcases Nat.lt_succ_iff_lt_or_eq.1 hlt with hlt | rfl
        · exact ⟨hlt, hi⟩
        · exact absurd hi hset

theorem getLsbD_lower (heads : BitVec w) (hlane : lane < w)
    (hbase : base ≤ lane) (hsize : lane - base < size) (i : ℕ) :
    (((heads &&& BitVec.ofNat w (2 ^ size - 1) <<< base) ||| 1#w <<< base) &&&
        BitVec.allOnes w >>> (w - 1 - lane)).getLsbD i = true ↔
      i ≤ lane ∧ base ≤ i ∧ (heads.getLsbD i = true ∨ i = base) := by
  have hones : (BitVec.ofNat w (2 ^ size - 1)).getLsbD (i - base) =
      decide (i - base < w ∧ i - base < size) := by
    rw [getLsbD_ofNat, Nat.testBit_two_pow_sub_one, Bool.decide_and]
  rw [getLsbD_and, getLsbD_or, getLsbD_and, getLsbD_shiftLeft,
    getLsbD_shiftLeft, getLsbD_ushiftRight, getLsbD_allOnes, hones,
    getLsbD_one]
  simp only [Bool.and_eq_true, Bool.or_eq_true, decide_eq_true_eq, Bool.not_eq_true',
    decide_eq_false_iff_not]
  constructor
  · rintro ⟨⟨hi, ⟨-, hge⟩, -, -⟩ | ⟨⟨-, hge⟩, -, heq⟩, hlast⟩
    · exact ⟨by omega, by omega, Or.inl hi⟩
    · exact ⟨by omega, by omega, Or.inr (by omega)⟩
  · rintro ⟨hle, hge, hi⟩
    refine ⟨?_, by omega⟩
    rcases hi with hi | rfl
    · exact Or.inl ⟨hi, ⟨by omega, by omega⟩, by omega, by omega⟩
    · exact Or.inr ⟨⟨by omega, by omega⟩, by omega, by omega⟩

theorem top_bit {i : ℕ} (hi : x.getLsbD i = true) :
    x.clz.toNat < w ∧ x.getLsbD (w - 1 - x.clz.toNat) = true ∧
      ∀ j, w - 1 - x.clz.toNat < j → x.getLsbD j = false := by
  have hne : x ≠ 0#w := by
    rintro rfl
    rw [getLsbD_zero] at hi
    exact absurd hi Bool.false_ne_true
  have hw : 0 < w := (Nat.zero_le i).trans_lt (lt_of_getLsbD hi)
  have hclz : x.clz.toNat < w := by
    have hlt := lt_def.1 (clz_lt_iff_ne_zero.2 hne)
    rwa [natCast_eq_ofNat, toNat_ofNat, Nat.mod_eq_of_lt Nat.lt_two_pow_self] at hlt
  refine ⟨hclz, getLsbD_true_clz_of_ne_zero hw hne, fun j hj => ?_⟩
  have hbound := toNat_lt_two_pow_sub_clz (x := x)
  refine Nat.testBit_lt_two_pow (hbound.trans_le (Nat.pow_le_pow_right (by omega) ?_))
  omega

theorem and_not_lowBits {s : ℕ} :
    BitVec.ofNat w n &&& ~~~BitVec.ofNat w (2 ^ s - 1) = BitVec.ofNat w (n / 2 ^ s * 2 ^ s) := by
  refine eq_of_getLsbD_eq fun i hi => ?_
  rw [getLsbD_and, getLsbD_not, getLsbD_ofNat, getLsbD_ofNat,
    getLsbD_ofNat, Nat.testBit_two_pow_sub_one, Nat.testBit_mul_two_pow,
    Nat.testBit_div_two_pow]
  rcases Nat.lt_or_ge i s with hlt | hge
  · rw [decide_eq_true hlt, decide_eq_false (Nat.not_le.2 hlt)]
    simp
  · rw [decide_eq_false (Nat.not_lt.2 hge), decide_eq_true hge, Nat.sub_add_cancel hge]
    simp [hi]

theorem exists_top_of_lower (heads : BitVec w) (hlane : lane < w)
    (hbase : base ≤ lane) (hsize : lane - base < size) {lower : BitVec w}
    (hlower : lower = ((heads &&& BitVec.ofNat w (2 ^ size - 1) <<< base) ||| 1#w <<< base) &&&
        BitVec.allOnes w >>> (w - 1 - lane)) :
    ∃ top, lower.clz.toNat = w - 1 - top ∧ base ≤ top ∧ top ≤ lane ∧
      (heads.getLsbD top = true ∨ top = base) ∧
      ∀ i, top < i → i ≤ lane → heads.getLsbD i = false := by
  have hbits : ∀ i, lower.getLsbD i = true ↔
      i ≤ lane ∧ base ≤ i ∧ (heads.getLsbD i = true ∨ i = base) := by
    rw [hlower]
    exact getLsbD_lower heads hlane hbase hsize
  have hset : lower.getLsbD base = true := (hbits base).2 ⟨hbase, le_rfl, Or.inr rfl⟩
  obtain ⟨hclz, htop, hlast⟩ := top_bit hset
  obtain ⟨hle, hge, hhead⟩ := (hbits _).1 htop
  refine ⟨w - 1 - lower.clz.toNat, by omega, hge, hle, hhead, fun i hi hil => ?_⟩
  have hzero := hlast i hi
  by_contra hone
  have hone' : heads.getLsbD i = true := by simpa using hone
  rw [(hbits i).2 ⟨hil, by omega, Or.inl hone'⟩] at hzero
  exact absurd hzero (by decide)

end Masks

section Distances

variable {log2 log2Size lane : ℕ} {headFlag : ℕ → ℤ}

theorem tile_le (s n : ℕ) : n / 2 ^ s * 2 ^ s ≤ n :=
  Nat.div_mul_le_self n (2 ^ s)

theorem sub_tile_lt (s n : ℕ) : n - n / 2 ^ s * 2 ^ s < 2 ^ s := by
  have hdiv := Nat.div_add_mod n (2 ^ s)
  rw [Nat.mul_comm] at hdiv
  omega

theorem toInt_distance {lane last top : ℕ} {zeros : BitVec 32} (hzeros : zeros.toNat = last - top)
    (htop : top ≤ lane) (hlane : lane ≤ last) (hlast : last < 2 ^ 31) :
    (BitVec.ofNat 32 lane - (BitVec.ofNat 32 last - zeros)).toInt = lane - top := by
  have hz : zeros = BitVec.ofNat 32 (last - top) := by
    rw [← hzeros, ofNat_toNat, setWidth_eq]
  rw [hz, ofNat_sub_ofNat_of_le _ _ (by omega) (by omega), Nat.sub_sub_self (by omega),
    ofNat_sub_ofNat_of_le _ _ (by omega) htop, toInt_eq_toNat_of_lt]
  · rw [toNat_ofNat, Nat.mod_eq_of_lt (by omega), Nat.cast_sub htop]
  · rw [toNat_ofNat]
    omega

theorem half_add_tile {s : ℕ} (hs : s ≤ 5) (n : ℕ) :
    n / 32 * 32 + (n - n / 32 * 32) / 2 ^ s * 2 ^ s = n / 2 ^ s * 2 ^ s := by
  have hpow : 2 ^ (5 - s) * 2 ^ s = 32 := by
    rw [← Nat.pow_add, Nat.sub_add_cancel hs]
  have hhalf : n / 32 * 32 = n / 32 * 2 ^ (5 - s) * 2 ^ s := by
    rw [Nat.mul_assoc, hpow]
  have hdiv : (n - n / 32 * 32) / 2 ^ s = n / 2 ^ s - n / 32 * 2 ^ (5 - s) := by
    rw [hhalf, Nat.mul_comm _ (2 ^ s), Nat.sub_mul_div]
  have hle : n / 32 * 2 ^ (5 - s) ≤ n / 2 ^ s := by
    rw [Nat.le_div_iff_mul_le (Nat.two_pow_pos s), ← hhalf]
    exact Nat.div_mul_le_self n 32
  rw [hdiv, hhalf, ← Nat.add_mul, Nat.add_sub_cancel' hle]

theorem segmentHeadDistance_half (h : log2 = 5 ∨ log2 = 6) (hs : log2Size ≤ 5)
    (hlane : lane < subgroupSize log2) :
    ∃ distance head, segmentHeadDistanceTiled log2 log2Size headFlag lane = some distance ∧
      IsSegmentHead log2Size headFlag lane head ∧ distance.toInt = lane - head := by
  have hsize : subgroupSize log2 ≤ 64 := by
    rcases h with rfl | rfl <;> decide
  have hbase : BitVec.ofNat 32 lane &&& ~~~31#32 = BitVec.ofNat 32 (lane / 32 * 32) :=
    and_not_lowBits (s := 5)
  have hhalfBase : (BitVec.ofNat 32 (lane / 32 * 32)).setWidth 64 =
      BitVec.ofNat 64 (lane / 32 * 32) := by
    rw [setWidth_ofNat_of_le_of_lt (by decide) (by omega)]
  generalize hinHalf : lane - lane / 32 * 32 = inHalf
  have hinHalf_lt : inHalf < 32 := by omega
  have hgroup_le := tile_le log2Size inHalf
  have hgroup_lt := sub_tile_lt log2Size inHalf
  have hdistance : BitVec.ofNat 32 lane - BitVec.ofNat 32 (lane / 32 * 32) =
      BitVec.ofNat 32 inHalf := by
    rw [ofNat_sub_ofNat_of_le _ _ (by omega) (by omega), hinHalf]
  have hlast : 31#32 - BitVec.ofNat 32 inHalf = BitVec.ofNat 32 (31 - inHalf) :=
    ofNat_sub_ofNat_of_le _ _ (by omega) (by omega)
  simp only [segmentHeadDistanceTiled, hs, if_true, hbase, hhalfBase, hdistance, and_not_lowBits,
    hlast, bind_pure_comp, Nat.one_shiftLeft]
  rw [shiftRight_of_lt (by omega), shiftLeft_of_lt (by omega), shiftLeft_of_lt (by omega),
    shiftRight_of_lt (by omega)]
  have hflag : ∀ i ≤ inHalf, (((ballot log2 fun lane => decide (headFlag lane ≠ 0)) >>>
      (lane / 32 * 32)).setWidth 32).getLsbD i = decide (headFlag (lane / 32 * 32 + i) ≠ 0) := by
    intro i hi
    rw [getLsbD_setWidth, getLsbD_ushiftRight, getLsbD_ballot h,
      decide_eq_true (by omega), decide_eq_true (by omega), Bool.true_and, Bool.true_and]
  have htile := half_add_tile hs lane
  rw [hinHalf] at htile
  obtain ⟨top, hclz, hge, hle, hhead, habove⟩ :=
    exists_top_of_lower _ hinHalf_lt hgroup_le hgroup_lt rfl
  refine ⟨_, lane / 32 * 32 + top, rfl, ⟨by omega, by omega, ?_, ?_⟩, ?_⟩
  · rw [hflag top hle, decide_eq_true_eq] at hhead
    exact hhead.imp id fun heq => by omega
  · intro i hi hil
    obtain ⟨j, rfl⟩ := Nat.exists_eq_add_of_le (show lane / 32 * 32 ≤ i by omega)
    have hzero := habove j (by omega) (by omega)
    rw [hflag j (by omega)] at hzero
    simpa using hzero
  · refine (toInt_distance hclz hle (by omega) (by omega)).trans ?_
    omega

theorem segmentHeadDistance_whole (hs : log2Size = 6) (h : log2 = 6)
    (hlane : lane < subgroupSize log2) :
    ∃ distance head, segmentHeadDistanceTiled log2 log2Size headFlag lane = some distance ∧
      IsSegmentHead log2Size headFlag lane head ∧ distance.toInt = lane - head := by
  subst hs
  have hsize : subgroupSize log2 = 64 := by
    rw [h]
    rfl
  have hsigned : ∀ n < 64, (BitVec.ofNat 32 n).signExtend 64 = BitVec.ofNat 64 n := by
    intro n hn
    rw [signExtend_eq_setWidth_of_msb_false, setWidth_ofNat_of_le_of_lt (by decide)]
    · omega
    · rw [msb_eq_false_iff_two_mul_lt, toNat_ofNat]
      omega
  have hlast : 63#32 - BitVec.ofNat 32 lane = BitVec.ofNat 32 (63 - lane) :=
    ofNat_sub_ofNat_of_le _ _ (by omega) (by omega)
  have hgroup_le := tile_le 6 lane
  have hgroup_lt := sub_tile_lt 6 lane
  simp only [segmentHeadDistanceTiled, show ¬6 ≤ 5 by decide, if_false, hsigned lane (by omega),
    hlast, hsigned (63 - lane) (by omega), and_not_lowBits, bind_pure_comp, Nat.one_shiftLeft]
  rw [shiftLeft_of_lt (by omega), shiftLeft_of_lt (by omega), shiftRight_of_lt (by omega)]
  have hflag : ∀ i ≤ lane, (ballot log2 fun lane => decide (headFlag lane ≠ 0)).getLsbD i =
      decide (headFlag i ≠ 0) := by
    intro i hi
    rw [getLsbD_ballot (Or.inr h), decide_eq_true (by omega), Bool.true_and]
  obtain ⟨top, hclz, hge, hle, hhead, habove⟩ :=
    exists_top_of_lower _ (show lane < 64 by omega) hgroup_le hgroup_lt rfl
  refine ⟨_, top, rfl, ⟨hge, hle, ?_, ?_⟩, ?_⟩
  · rw [hflag top hle, decide_eq_true_eq] at hhead
    exact hhead
  · intro i hi hil
    have hzero := habove i hi hil
    rw [hflag i hil] at hzero
    simpa using hzero
  · refine toInt_distance ?_ hle (by omega) (by omega)
    exact (congrArg (· % 2 ^ 32) hclz).trans (by omega)

theorem exists_segmentHead (headFlag : ℕ → ℤ) (h : log2 = 5 ∨ log2 = 6) (hs : log2Size ≤ log2)
    (hlane : lane < subgroupSize log2) :
    ∃ distance head, segmentHeadDistanceTiled log2 log2Size headFlag lane = some distance ∧
      IsSegmentHead log2Size headFlag lane head ∧ distance.toInt = lane - head := by
  rcases Nat.lt_or_ge 5 log2Size with hlt | hle
  · exact segmentHeadDistance_whole (by omega) (by omega) hlane
  · exact segmentHeadDistance_half h hle hlane

theorem IsSegmentHead.unique {p head head' : ℕ} (h : IsSegmentHead log2Size headFlag lane head)
    (h' : IsSegmentHead log2Size headFlag p head') (hp : head ≤ p) (hlane : p ≤ lane) :
    head' = head := by
  have htile : p / 2 ^ log2Size = lane / 2 ^ log2Size := by
    refine le_antisymm (Nat.div_le_div_right hlane) ?_
    rw [Nat.le_div_iff_mul_le (Nat.two_pow_pos log2Size)]
    exact h.start_le.trans hp
  have hstart' := h'.start_le
  have hflagged' := h'.flagged
  rw [htile] at hstart' hflagged'
  rcases Nat.lt_trichotomy head' head with hlt | heq | hgt
  · rcases h.flagged with hflag | hfirst
    · exact absurd (h'.last head hlt hp) hflag
    · omega
  · exact heq
  · rcases hflagged' with hflag | hfirst
    · exact absurd (h.last head' hgt (h'.le.trans hlane)) hflag
    · have := h.start_le
      omega

end Distances

section Rounds

variable {α : Type} {log2 : ℕ} {outside : ℕ → ℕ → α} {o : BinOp α} {value : ℕ → α}

variable {lane : ℕ}

theorem shuffleUp_lane {offset : ℕ} (h : offset ≤ lane) (hlane : lane < subgroupSize log2)
    (value : ℕ → α) : shuffleUp log2 outside value offset lane = value (lane - offset) := by
  have hshuffle : shuffleUp log2 outside value offset (0 * subgroupSize log2 + lane) = _ :=
    shuffleUp_eq h hlane value
  rwa [Nat.zero_mul, Nat.zero_add, Nat.zero_add] at hshuffle

theorem segmentedRounds_succ (op : α → α → α) (distance : ℕ → ℤ) (steps lane : ℕ) :
    segmentedRounds log2 outside op value distance (steps + 1) lane =
      if distance lane ≥ (2 ^ steps : ℕ) then
        op (segmentedRounds log2 outside op value distance steps lane)
          (shuffleUp log2 outside (segmentedRounds log2 outside op value distance steps)
            (2 ^ steps) lane)
      else segmentedRounds log2 outside op value distance steps lane := by
  simp [segmentedRounds, range_succ, Nat.one_shiftLeft]

theorem segmentedRounds_eq (hcomm : ∀ x y, o.op x y = o.op y x) {distance : ℕ → ℤ}
    {head : ℕ → ℕ} (hle : ∀ lane < subgroupSize log2, head lane ≤ lane)
    (hdistance : ∀ lane < subgroupSize log2, distance lane = lane - head lane)
    (hsame : ∀ lane < subgroupSize log2, ∀ p, head lane ≤ p → p ≤ lane → head p = head lane)
    (steps : ℕ) (hlane : lane < subgroupSize log2) :
    segmentedRounds log2 outside o.op value distance steps lane =
      o.fold value (lane + 1 - min (2 ^ steps) (lane - head lane + 1))
        (min (2 ^ steps) (lane - head lane + 1)) := by
  induction steps generalizing lane with
  | zero =>
    have hone : min (2 ^ 0) (lane - head lane + 1) = 1 := by omega
    rw [hone, fold_one]
    rfl
  | succ steps ih =>
    have hd := hdistance lane hlane
    have hl := hle lane hlane
    have hpos := Nat.two_pow_pos steps
    rw [segmentedRounds_succ, ih hlane, Nat.pow_succ]
    split_ifs with hfar
    · have hfar' : 2 ^ steps ≤ lane - head lane := by omega
      have hpartner := hsame lane hlane (lane - 2 ^ steps) (by omega) (by omega)
      rw [shuffleUp_lane (by omega) hlane, ih (by omega), hpartner, hcomm]
      have hmin : min (2 ^ steps) (lane - head lane + 1) = 2 ^ steps := by omega
      have hmin' : min (2 ^ steps * 2) (lane - head lane + 1) =
          min (2 ^ steps) (lane - 2 ^ steps - head lane + 1) + 2 ^ steps := by
        omega
      have hstart : lane + 1 - min (2 ^ steps * 2) (lane - head lane + 1) =
          lane - 2 ^ steps + 1 - min (2 ^ steps) (lane - 2 ^ steps - head lane + 1) := by
        omega
      have hnext : lane + 1 - 2 ^ steps =
          lane - 2 ^ steps + 1 - min (2 ^ steps) (lane - 2 ^ steps - head lane + 1) +
            min (2 ^ steps) (lane - 2 ^ steps - head lane + 1) := by
        omega
      rw [hstart, hmin', hmin, hnext, fold_add]
    · have hmin : min (2 ^ steps * 2) (lane - head lane + 1) =
          min (2 ^ steps) (lane - head lane + 1) := by
        omega
      rw [hmin]

variable {log2Size : ℕ}

theorem segmentedReduceTiled_eq (outside : ℕ → ℕ → α) (value : ℕ → α) (headFlag : ℕ → ℤ)
    (hcomm : ∀ x y, o.op x y = o.op y x) (h : log2 = 5 ∨ log2 = 6) (hs : log2Size ≤ log2) :
    ∃ result, segmentedReduceTiled log2 outside o.op log2Size value headFlag = some result ∧
      ∀ lane < subgroupSize log2, ∃ head, IsSegmentHead log2Size headFlag lane head ∧
        result lane = o.fold value head (lane - head + 1) := by
  have hsix : log2Size ≤ 6 := by omega
  have hexists : ∀ lane, ∃ (distance : BitVec 32) (head : ℕ), lane < subgroupSize log2 →
      segmentHeadDistanceTiled log2 log2Size headFlag lane = some distance ∧
        IsSegmentHead log2Size headFlag lane head ∧ distance.toInt = lane - head := by
    intro lane
    rcases Nat.lt_or_ge lane (subgroupSize log2) with hlane | hge
    · obtain ⟨distance, head, hdistance⟩ := exists_segmentHead headFlag h hs hlane
      exact ⟨distance, head, fun _ => hdistance⟩
    · exact ⟨0#32, 0, fun hlane => absurd hlane (Nat.not_lt.2 hge)⟩
  choose distance head hspec using hexists
  have hdistances : (List.range (subgroupSize log2)).mapM
      (segmentHeadDistanceTiled log2 log2Size headFlag) =
        some ((List.range (subgroupSize log2)).map distance) :=
    mapM_eq_some fun lane hlane => (hspec lane (mem_range.1 hlane)).1
  rw [segmentedReduceTiled, if_pos hsix, hdistances]
  refine ⟨_, rfl, fun lane hlane => ⟨head lane, (hspec lane hlane).2.1, ?_⟩⟩
  have hhead := (hspec lane hlane).2.1
  have hlt := sub_tile_lt log2Size lane
  rw [segmentedRounds_eq hcomm (fun lane hlane => (hspec lane hlane).2.1.le) ?_ ?_ log2Size hlane]
  · have hstart := hhead.start_le
    have hle := hhead.le
    rw [Nat.min_eq_right (by omega), Nat.add_sub_add_right, Nat.sub_sub_self hle]
  · intro lane hlane
    rw [getD_eq_getElem?_getD, List.getElem?_map, List.getElem?_range hlane]
    exact (hspec lane hlane).2.2
  · intro lane hlane p hp hle
    exact (hspec lane hlane).2.1.unique (hspec p (by omega)).2.1 hp hle

end Rounds

theorem opBins_comm (dtype : Dtype) (op : Op) (x y : dtype.Bits) :
    (opBins dtype op).op x y = (opBins dtype op).op y x := by
  cases op with
  | add => exact BitVec.add_comm x y
  | min =>
    exact BinOp.least_comm _ _ dtype.value_injective dtype.value_le_typedMinIdentity x y
  | max =>
    exact BinOp.least_comm _ _ (fun _ _ h => dtype.value_injective (neg_injective h))
      (fun x => Int.neg_le_neg (dtype.typedMaxIdentity_le_value x)) x y

/-- Every lane has the fold of its segment up to itself. -/
theorem segmentedReduce_eq_fold (dtype : Dtype) {log2 log2Size : ℕ} (h : log2 = 5 ∨ log2 = 6)
    (hs : log2Size ≤ log2) (outside : ℕ → ℕ → dtype.Bits) (value : ℕ → dtype.Bits)
    (headFlag : ℕ → ℤ) : ∃ sums mins maxs,
      segmentedReduceAddTiled dtype log2 outside log2Size value headFlag = some sums ∧
      segmentedReduceMinTiled dtype log2 outside log2Size value headFlag = some mins ∧
      segmentedReduceMaxTiled dtype log2 outside log2Size value headFlag = some maxs ∧
      ∀ lane < subgroupSize log2, ∃ head, IsSegmentHead log2Size headFlag lane head ∧
        sums lane = (opBins dtype .add).fold value head (lane - head + 1) ∧
        mins lane = (opBins dtype .min).fold value head (lane - head + 1) ∧
        maxs lane = (opBins dtype .max).fold value head (lane - head + 1) := by
  obtain ⟨sums, hsums, hadd⟩ :=
    segmentedReduceTiled_eq outside value headFlag (opBins_comm dtype .add) h hs
  obtain ⟨mins, hmins, hmin⟩ :=
    segmentedReduceTiled_eq outside value headFlag (opBins_comm dtype .min) h hs
  obtain ⟨maxs, hmaxs, hmax⟩ :=
    segmentedReduceTiled_eq outside value headFlag (opBins_comm dtype .max) h hs
  refine ⟨sums, mins, maxs, hsums, hmins, hmaxs, fun lane hlane => ?_⟩
  obtain ⟨head, hhead, hsum⟩ := hadd lane hlane
  obtain ⟨head', hhead', hleast⟩ := hmin lane hlane
  obtain ⟨head'', hhead'', hgreatest⟩ := hmax lane hlane
  obtain rfl := hhead.unique hhead' hhead.le le_rfl
  obtain rfl := hhead'.unique hhead'' hhead'.le le_rfl
  exact ⟨head'', hhead'', hsum, hleast, hgreatest⟩

theorem segmentedReduce_eq_fold_pairs : ∃ sums mins maxs,
      segmentedReduceAddTiled .i32 6 (fun _ _ => 0) 1 (BitVec.ofNat 32) (fun _ => 0) = some sums ∧
      segmentedReduceMinTiled .i32 6 (fun _ _ => 0) 1 (BitVec.ofNat 32) (fun _ => 0) = some mins ∧
      segmentedReduceMaxTiled .i32 6 (fun _ _ => 0) 1 (BitVec.ofNat 32) (fun _ => 0) = some maxs ∧
      ∀ lane < subgroupSize 6, ∃ head, IsSegmentHead 1 (fun _ => 0) lane head ∧
        sums lane = (opBins .i32 .add).fold (BitVec.ofNat 32) head (lane - head + 1) ∧
        mins lane = (opBins .i32 .min).fold (BitVec.ofNat 32) head (lane - head + 1) ∧
        maxs lane = (opBins .i32 .max).fold (BitVec.ofNat 32) head (lane - head + 1) :=
  segmentedReduce_eq_fold .i32 (Or.inr rfl) (by decide) _ _ _

end Quadrants.Simt
