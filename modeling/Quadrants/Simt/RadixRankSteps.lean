import Mathlib.Data.BitVec
import Mathlib.Logic.Function.Basic
import Quadrants.Library.BarrierRuns
import Quadrants.Simt.BlockOps
import Quadrants.Library.AtomicRounds
import Quadrants.Simt.FoldOrder

/-!
The block radix rank of `simt/block.py`. Subgroups meet at the barriers of the block only; between
these a lane waits for the lanes of its own subgroup.
-/

namespace Quadrants.Simt

open Library.BarrierRuns

def exclusiveAdd (log2 : ℕ) (outside : ℕ → ℕ → BitVec 32) (numSubgroups : ℕ)
    (value : ℕ → BitVec 32) (tid : ℕ) : BitVec 32 :=
  exclusiveScan log2 outside (· + ·) numSubgroups (value tid - value tid) value tid

def lanemaskLe (w lane : ℕ) : BitVec w :=
  let oneAtLane := 1#w <<< lane
  oneAtLane ||| (oneAtLane - 1#w)

/-- The template arguments that the assertions let through; `block_dim` is `1 << radix_bits`. -/
structure RadixBlock where
  log2 : ℕ
  radixBits : ℕ
  bitStart : ℕ
  numBits : ℕ
  -- a subgroup has 32 or 64 threads
  log2_eq : log2 = 5 ∨ log2 = 6
  -- `block_dim` is a positive multiple of the size of a subgroup
  log2_le : log2 ≤ radixBits
  numBits_le : numBits ≤ radixBits
  -- `thread_idx()` is an `i32`
  radixBits_lt : radixBits < 31

namespace RadixBlock

/-- A onesweep block -/
instance : Inhabited RadixBlock :=
  ⟨⟨5, 8, 0, 8, Or.inl rfl, by decide, by decide, by decide⟩⟩

variable (b : RadixBlock)

def subgroupThreads : ℕ :=
  subgroupSize b.log2

def radixDigits : ℕ :=
  1 <<< b.radixBits

def blockSubgroups : ℕ :=
  b.radixDigits / b.subgroupThreads

def numBitsMask : ℕ :=
  (1 <<< b.numBits) - 1

def binsPerLane : ℕ :=
  b.radixDigits / b.subgroupThreads

def subgroupIdx (tid : ℕ) : ℕ :=
  tid / b.subgroupThreads

def lane (tid : ℕ) : ℕ :=
  laneId b.log2 tid

def digit (key : BitVec 32) : ℕ :=
  ((key >>> b.bitStart) &&& BitVec.ofNat 32 b.numBitsMask).toNat

end RadixBlock

/-- The arrays `smem_offsets` and `smem_match`, whose masks have `w` bits, and the variables of
the threads -/
structure RankState (w : ℕ) where
  smemOffsets : ℕ → BitVec 32
  smemMatch : ℕ → BitVec w
  binCount : ℕ → BitVec 32
  binMask : ℕ → BitVec w
  subgroupOffset : ℕ → BitVec 32

namespace RankState

variable {w : ℕ} (s : RankState w)

def setOffset (cell : ℕ) (v : BitVec 32) : RankState w :=
  { s with smemOffsets := Function.update s.smemOffsets cell v }

def setMatch (cell : ℕ) (v : BitVec w) : RankState w :=
  { s with smemMatch := Function.update s.smemMatch cell v }

def setBinCount (tid : ℕ) (v : BitVec 32) : RankState w :=
  { s with binCount := Function.update s.binCount tid v }

def setBinMask (tid : ℕ) (v : BitVec w) : RankState w :=
  { s with binMask := Function.update s.binMask tid v }

def setSubgroupOffset (tid : ℕ) (v : BitVec 32) : RankState w :=
  { s with subgroupOffset := Function.update s.subgroupOffset tid v }

end RankState

section Steps

variable {w : ℕ} (b : RadixBlock) (key : ℕ → BitVec 32)

def matchIdx (tid : ℕ) : ℕ :=
  b.subgroupIdx tid * b.radixDigits + b.digit (key tid)

def zeroBins (tid : ℕ) (s : RankState w) : RankState w :=
  (List.range b.binsPerLane).foldl (fun s i =>
    let binIdx := b.lane tid + i * b.subgroupThreads
    (s.setOffset (b.subgroupIdx tid * b.radixDigits + binIdx) 0).setMatch
      (b.subgroupIdx tid * b.radixDigits + binIdx) 0) s

def countDigit (tid : ℕ) (s : RankState w) : RankState w :=
  s.setOffset (matchIdx b key tid) (s.smemOffsets (matchIdx b key tid) + 1)

def histogramPhase : ℕ → ℕ → RankState w → RankState w
  | 0 => zeroBins b
  | _ => countDigit b key

def upsweep (tid : ℕ) (s : RankState w) : RankState w :=
  (List.range b.blockSubgroups).foldl (fun s j =>
    let cell := j * b.radixDigits + tid
    let subgroupCount := s.smemOffsets cell
    (s.setOffset cell (s.binCount tid)).setBinCount tid (s.binCount tid + subgroupCount))
    (s.setBinCount tid 0)

def downsweep (exclusiveDigitPrefix : ℕ → BitVec 32) (tid : ℕ) (s : RankState w) : RankState w :=
  (List.range b.blockSubgroups).foldl (fun s j =>
    let cell := j * b.radixDigits + tid
    s.setOffset cell (s.smemOffsets cell + exclusiveDigitPrefix tid)) s

def orLaneMask (tid : ℕ) (s : RankState w) : RankState w :=
  s.setMatch (matchIdx b key tid) (s.smemMatch (matchIdx b key tid) ||| 1#w <<< b.lane tid)

def leader (binMask : BitVec w) : BitVec 32 :=
  BitVec.ofNat 32 (w - 1) - binMask.clz.setWidth 32

variable (laneMaskLe : ℕ → BitVec w)

def popc (binMask : BitVec w) (tid : ℕ) : BitVec 32 :=
  (binMask &&& laneMaskLe (b.lane tid)).cpop.setWidth 32

def isLeader (binMask : BitVec w) (tid : ℕ) : Prop :=
  BitVec.ofNat 32 (b.lane tid) = leader binMask

instance (binMask : BitVec w) (tid : ℕ) : Decidable (isLeader b binMask tid) :=
  inferInstanceAs (Decidable (_ = _))

def claimSlots (tid : ℕ) (s : RankState w) : RankState w :=
  let cell := matchIdx b key tid
  let binMask := s.smemMatch cell
  let s := s.setBinMask tid binMask
  if isLeader b binMask tid then
    (s.setSubgroupOffset tid (s.smemOffsets cell)).setOffset cell
      (s.smemOffsets cell + popc b laneMaskLe binMask tid)
  else s.setSubgroupOffset tid 0

def resetMask (tid : ℕ) (s : RankState w) : RankState w :=
  if isLeader b (s.binMask tid) tid then s.setMatch (matchIdx b key tid) 0 else s

def rankPhase : ℕ → ℕ → RankState w → RankState w
  | 0 => orLaneMask b key
  | 1 => claimSlots b key laneMaskLe
  | _ => resetMask b key

def shuffle (outside : ℕ → ℕ → BitVec 32) (value : ℕ → BitVec 32) (index : BitVec 32) (tid : ℕ) :
    BitVec 32 :=
  if index.toNat < b.subgroupThreads then
    value (b.subgroupIdx tid * b.subgroupThreads + index.toNat)
  else outside index.toNat tid

end Steps

/-- The orders in which the threads come. In the two sweeps no thread waits for another. -/
structure RankOrders (b : RadixBlock) where
  histogram : Schedule 2 (List.range b.radixDigits) b.subgroupIdx
  upsweep : Schedule 1 (List.range b.radixDigits) id
  downsweep : Schedule 1 (List.range b.radixDigits) id
  ranks : Schedule 3 (List.range b.radixDigits) b.subgroupIdx
  deriving Inhabited

structure RadixRanks where
  rank : ℕ → BitVec 32
  bins : ℕ → BitVec 32
  exclPrefix : ℕ → BitVec 32

section Run

variable (b : RadixBlock) (orders : RankOrders b) (outside : ℕ → ℕ → BitVec 32)
  (key : ℕ → BitVec 32)

/-- The two implementations, with the width of the masks and `lanemask_le`; `smem` is what the
arrays and the variables have at first. -/
def radixRankMatchAtomicOrWave {w : ℕ} (laneMaskLe : ℕ → BitVec w) (smem : RankState w) :
    RadixRanks :=
  let s := orders.histogram.run (histogramPhase b key) smem
  let s := orders.upsweep.run (fun _ => upsweep b) s
  let binCount := s.binCount
  let exclusiveDigitPrefix := exclusiveAdd b.log2 outside b.blockSubgroups binCount
  let s := orders.downsweep.run (fun _ => downsweep b exclusiveDigitPrefix) s
  let s := orders.ranks.run (rankPhase b key laneMaskLe) s
  { rank := fun tid =>
      shuffle b outside s.subgroupOffset (leader (s.binMask tid)) tid +
        popc b laneMaskLe (s.binMask tid) tid - 1
    bins := binCount
    exclPrefix := exclusiveDigitPrefix }

def radixRankMatchAtomicOrWave32 (smem : RankState 32) : RadixRanks :=
  radixRankMatchAtomicOrWave b orders outside key (lanemaskLe 32) smem

def radixRankMatchAtomicOrWave64 (smem : RankState 64) : RadixRanks :=
  radixRankMatchAtomicOrWave b orders outside key
    (fun lane => let laneMask := 1#64 <<< lane; laneMask ||| (laneMask - 1#64)) smem

def radixRankMatchAtomicOr (smem : (w : ℕ) → RankState w) : RadixRanks :=
  if b.subgroupThreads = 32 then radixRankMatchAtomicOrWave32 b orders outside key (smem 32)
  else radixRankMatchAtomicOrWave64 b orders outside key (smem 64)

end Run

end Quadrants.Simt

/-!
Which cells the steps of a thread see. A subgroup sees its row of the shared arrays, and a thread of
the sweeps sees its column.
-/

namespace Quadrants.Simt

open Library.BarrierRuns Library.AtomicRounds

namespace RadixBlock

variable (b : RadixBlock)

theorem subgroupThreads_eq : b.subgroupThreads = 2 ^ b.log2 :=
  subgroupSize_eq b.log2

theorem subgroupThreads_pos : 0 < b.subgroupThreads :=
  subgroupSize_pos b.log2

theorem radixDigits_eq : b.radixDigits = 2 ^ b.radixBits :=
  Nat.one_shiftLeft b.radixBits

theorem radixDigits_pos : 0 < b.radixDigits := by
  rw [radixDigits_eq]
  exact Nat.two_pow_pos _

theorem radixDigits_lt : b.radixDigits < 2 ^ 31 := by
  rw [radixDigits_eq]
  exact Nat.pow_lt_pow_right (by omega) b.radixBits_lt

theorem blockSubgroups_mul : b.blockSubgroups * b.subgroupThreads = b.radixDigits := by
  apply Nat.div_mul_cancel
  rw [subgroupThreads_eq, radixDigits_eq]
  exact Nat.pow_dvd_pow 2 b.log2_le

theorem lane_eq (tid : ℕ) : b.lane tid = tid % b.subgroupThreads := by
  rw [lane, laneId, subgroupThreads_eq, subgroupSize_eq, Nat.and_two_pow_sub_one_eq_mod]

theorem lane_lt (tid : ℕ) : b.lane tid < b.subgroupThreads := by
  rw [lane_eq]
  exact Nat.mod_lt _ b.subgroupThreads_pos

theorem subgroupIdx_mul_add_lane (tid : ℕ) :
    b.subgroupIdx tid * b.subgroupThreads + b.lane tid = tid := by
  rw [lane_eq]
  exact Nat.div_add_mod' tid b.subgroupThreads

theorem subgroupIdx_lt {tid : ℕ} (h : tid < b.radixDigits) :
    b.subgroupIdx tid < b.blockSubgroups := by
  rw [← blockSubgroups_mul] at h
  exact (Nat.div_lt_iff_lt_mul b.subgroupThreads_pos).2 h

variable {b}

variable {g l : ℕ}

theorem thread_lt (hg : g < b.blockSubgroups) (hl : l < b.subgroupThreads) :
    g * b.subgroupThreads + l < b.radixDigits := by
  rw [← blockSubgroups_mul]
  calc g * b.subgroupThreads + l < g * b.subgroupThreads + b.subgroupThreads :=
        Nat.add_lt_add_left hl _
    _ = (g + 1) * b.subgroupThreads := (Nat.succ_mul g _).symm
    _ ≤ b.blockSubgroups * b.subgroupThreads := Nat.mul_le_mul_right _ hg

theorem subgroupIdx_thread (hl : l < b.subgroupThreads) :
    b.subgroupIdx (g * b.subgroupThreads + l) = g := by
  rw [subgroupIdx, Nat.mul_comm, Nat.mul_add_div b.subgroupThreads_pos, Nat.div_eq_of_lt hl,
    Nat.add_zero]

theorem lane_thread (hl : l < b.subgroupThreads) : b.lane (g * b.subgroupThreads + l) = l :=
  laneId_eq hl

theorem digit_lt (k : BitVec 32) : b.digit k < b.radixDigits := by
  have hle : 2 ^ b.numBits ≤ 2 ^ b.radixBits := Nat.pow_le_pow_right (by omega) b.numBits_le
  have hmask : (BitVec.ofNat 32 b.numBitsMask).toNat ≤ 2 ^ b.numBits - 1 := by
    rw [numBitsMask, Nat.one_shiftLeft]
    exact Nat.mod_le _ _
  have hand := @Nat.and_le_right (k >>> b.bitStart).toNat (BitVec.ofNat 32 b.numBitsMask).toNat
  have hpos := Nat.two_pow_pos b.numBits
  rw [digit, BitVec.toNat_and, radixDigits_eq]
  omega

theorem perm_threads (hg : g < b.blockSubgroups) :
    ((List.range b.radixDigits).filter fun i => b.subgroupIdx i = g).Perm
      ((List.range b.subgroupThreads).map fun l => g * b.subgroupThreads + l) := by
  refine (List.perm_ext_iff_of_nodup (List.nodup_range.filter _) ?_).2 fun t => ?_
  · exact List.nodup_range.map fun x y hxy => Nat.add_left_cancel hxy
  · simp only [List.mem_filter, List.mem_range, decide_eq_true_eq, List.mem_map]
    constructor
    · rintro ⟨_, rfl⟩
      exact ⟨b.lane t, b.lane_lt t, b.subgroupIdx_mul_add_lane t⟩
    · rintro ⟨l, hl, rfl⟩
      exact ⟨thread_lt hg hl, subgroupIdx_thread hl⟩

end RadixBlock

section Cells

variable {A : Type} {f f' : ℕ → A} {p : ℕ → Prop}

theorem update_agree (h : ∀ x, p x → f x = f' x) (y : ℕ) (v : A) :
    ∀ x, p x → Function.update f y v x = Function.update f' y v x := by
  intro x hx
  rcases eq_or_ne x y with rfl | hne
  · rw [Function.update_self, Function.update_self]
  · rw [Function.update_of_ne hne, Function.update_of_ne hne, h x hx]

theorem update_outside (h : ∀ x, p x → f x = f' x) {y : ℕ} (hy : ¬ p y) (v : A) :
    ∀ x, p x → Function.update f y v x = f' x := by
  intro x hx
  have hne : x ≠ y := by
    rintro rfl
    exact hy hx
  rw [Function.update_of_ne hne, h x hx]

end Cells

section Rows

variable {w : ℕ} (b : RadixBlock)

structure RowAgree (g : ℕ) (s s' : RankState w) : Prop where
  smemOffsets : ∀ x, x / b.radixDigits = g → s.smemOffsets x = s'.smemOffsets x
  smemMatch : ∀ x, x / b.radixDigits = g → s.smemMatch x = s'.smemMatch x
  binMask : ∀ tid, b.subgroupIdx tid = g → s.binMask tid = s'.binMask tid
  subgroupOffset : ∀ tid, b.subgroupIdx tid = g → s.subgroupOffset tid = s'.subgroupOffset tid

variable {b}

theorem rowAgree_equivalence (g : ℕ) : Equivalence (RowAgree b (w := w) g) where
  refl _ := ⟨fun _ _ => rfl, fun _ _ => rfl, fun _ _ => rfl, fun _ _ => rfl⟩
  symm h := ⟨fun x hx => (h.smemOffsets x hx).symm, fun x hx => (h.smemMatch x hx).symm,
    fun t ht => (h.binMask t ht).symm, fun t ht => (h.subgroupOffset t ht).symm⟩
  trans h h' := ⟨fun x hx => (h.smemOffsets x hx).trans (h'.smemOffsets x hx),
    fun x hx => (h.smemMatch x hx).trans (h'.smemMatch x hx),
    fun t ht => (h.binMask t ht).trans (h'.binMask t ht),
    fun t ht => (h.subgroupOffset t ht).trans (h'.subgroupOffset t ht)⟩

namespace RowAgree

variable {g : ℕ} {s s' : RankState w}

theorem setOffset (h : RowAgree b g s s') (x : ℕ) (v : BitVec 32) :
    RowAgree b g (s.setOffset x v) (s'.setOffset x v) :=
  ⟨update_agree h.smemOffsets x v, h.smemMatch, h.binMask, h.subgroupOffset⟩

theorem setMatch (h : RowAgree b g s s') (x : ℕ) (v : BitVec w) :
    RowAgree b g (s.setMatch x v) (s'.setMatch x v) :=
  ⟨h.smemOffsets, update_agree h.smemMatch x v, h.binMask, h.subgroupOffset⟩

theorem setBinMask (h : RowAgree b g s s') (t : ℕ) (v : BitVec w) :
    RowAgree b g (s.setBinMask t v) (s'.setBinMask t v) :=
  ⟨h.smemOffsets, h.smemMatch, update_agree h.binMask t v, h.subgroupOffset⟩

theorem setSubgroupOffset (h : RowAgree b g s s') (t : ℕ) (v : BitVec 32) :
    RowAgree b g (s.setSubgroupOffset t v) (s'.setSubgroupOffset t v) :=
  ⟨h.smemOffsets, h.smemMatch, h.binMask, update_agree h.subgroupOffset t v⟩

variable {t x : ℕ}

theorem setOffset_left (h : RowAgree b g s s') (hx : x / b.radixDigits ≠ g)
    (v : BitVec 32) : RowAgree b g (s.setOffset x v) s' :=
  ⟨update_outside h.smemOffsets hx v, h.smemMatch, h.binMask, h.subgroupOffset⟩

theorem setMatch_left (h : RowAgree b g s s') (hx : x / b.radixDigits ≠ g) (v : BitVec w) :
    RowAgree b g (s.setMatch x v) s' :=
  ⟨h.smemOffsets, update_outside h.smemMatch hx v, h.binMask, h.subgroupOffset⟩

theorem setBinMask_left (h : RowAgree b g s s') (ht : b.subgroupIdx t ≠ g) (v : BitVec w) :
    RowAgree b g (s.setBinMask t v) s' :=
  ⟨h.smemOffsets, h.smemMatch, update_outside h.binMask ht v, h.subgroupOffset⟩

theorem setSubgroupOffset_left (h : RowAgree b g s s') (ht : b.subgroupIdx t ≠ g)
    (v : BitVec 32) : RowAgree b g (s.setSubgroupOffset t v) s' :=
  ⟨h.smemOffsets, h.smemMatch, h.binMask, update_outside h.subgroupOffset ht v⟩

end RowAgree

theorem row_eq {g d : ℕ} (hd : d < b.radixDigits) :
    (g * b.radixDigits + d) / b.radixDigits = g := by
  rw [Nat.mul_comm, Nat.mul_add_div b.radixDigits_pos, Nat.div_eq_of_lt hd, Nat.add_zero]

theorem matchIdx_div (key : ℕ → BitVec 32) (tid : ℕ) :
    matchIdx b key tid / b.radixDigits = b.subgroupIdx tid :=
  row_eq (RadixBlock.digit_lt _)

def zeroedCells (b : RadixBlock) (tid : ℕ) : List ℕ :=
  (List.range b.binsPerLane).map fun i =>
    b.subgroupIdx tid * b.radixDigits + (b.lane tid + i * b.subgroupThreads)

theorem div_of_mem_zeroedCells {tid x : ℕ} (h : x ∈ zeroedCells b tid) :
    x / b.radixDigits = b.subgroupIdx tid := by
  obtain ⟨i, hi, rfl⟩ := List.mem_map.1 h
  apply row_eq
  rw [Nat.add_comm]
  exact RadixBlock.thread_lt (List.mem_range.1 hi) (b.lane_lt tid)

theorem zeroBins_eq (tid : ℕ) (s : RankState w) : zeroBins b tid s =
      (zeroedCells b tid).foldl (fun s x => (s.setOffset x 0).setMatch x 0) s := by
  rw [zeroedCells, List.foldl_map]
  rfl

theorem zeroBins_grouped :
    Grouped b.subgroupIdx (RowAgree b (w := w)) (List.range b.radixDigits) (zeroBins b) where
  keeps := by
    intro tid _ g hne s
    rw [zeroBins_eq]
    refine keeps_foldl (rowAgree_equivalence g) (fun x hx s => ?_) s
    have hrow : x / b.radixDigits ≠ g := by rwa [div_of_mem_zeroedCells hx]
    exact (((rowAgree_equivalence g).refl s).setOffset_left hrow 0).setMatch_left hrow 0
  determined := by
    intro tid _ s s' h
    rw [zeroBins_eq, zeroBins_eq]
    exact determined_foldl (fun x _ s s' hs => (hs.setOffset x 0).setMatch x 0) h

variable (key : ℕ → BitVec 32) (laneMaskLe : ℕ → BitVec w)

theorem countDigit_grouped :
    Grouped b.subgroupIdx (RowAgree b (w := w)) (List.range b.radixDigits) (countDigit b key) where
  keeps tid _ g hne s :=
    ((rowAgree_equivalence g).refl s).setOffset_left (by rwa [matchIdx_div]) _
  determined tid _ s s' h := by
    rw [countDigit, h.smemOffsets _ (matchIdx_div key tid)]
    exact h.setOffset _ _

theorem histogramPhase_grouped (p : ℕ) :
    Grouped b.subgroupIdx (RowAgree b (w := w)) (List.range b.radixDigits)
      (histogramPhase b key p) :=
  match p with
  | 0 => zeroBins_grouped
  | _ + 1 => countDigit_grouped key

theorem orLaneMask_grouped :
    Grouped b.subgroupIdx (RowAgree b (w := w)) (List.range b.radixDigits) (orLaneMask b key) where
  keeps tid _ g hne s :=
    ((rowAgree_equivalence g).refl s).setMatch_left (by rwa [matchIdx_div]) _
  determined tid _ s s' h := by
    rw [orLaneMask, h.smemMatch _ (matchIdx_div key tid)]
    exact h.setMatch _ _

theorem claimSlots_grouped : Grouped b.subgroupIdx (RowAgree b (w := w)) (List.range b.radixDigits)
      (claimSlots b key laneMaskLe) where
  keeps tid _ g hne s := by
    have hcell : matchIdx b key tid / b.radixDigits ≠ g := by rwa [matchIdx_div]
    have hmask := ((rowAgree_equivalence g).refl s).setBinMask_left hne
      (s.smemMatch (matchIdx b key tid))
    simp only [claimSlots]
    split_ifs
    · exact (hmask.setSubgroupOffset_left hne _).setOffset_left hcell _
    · exact hmask.setSubgroupOffset_left hne _
  determined tid _ s s' h := by
    have hmask := h.setBinMask tid (s'.smemMatch (matchIdx b key tid))
    have hoffset : s.smemOffsets (matchIdx b key tid) = s'.smemOffsets (matchIdx b key tid) :=
      h.smemOffsets _ (matchIdx_div key tid)
    simp only [claimSlots, RankState.setBinMask, h.smemMatch _ (matchIdx_div key tid), hoffset]
    split_ifs
    · exact (hmask.setSubgroupOffset tid _).setOffset _ _
    · exact hmask.setSubgroupOffset tid _

theorem resetMask_grouped :
    Grouped b.subgroupIdx (RowAgree b (w := w)) (List.range b.radixDigits) (resetMask b key) where
  keeps tid _ g hne s := by
    have hrefl := (rowAgree_equivalence (b := b) g).refl s
    rw [resetMask]
    split_ifs
    · exact hrefl.setMatch_left (by rwa [matchIdx_div]) _
    · exact hrefl
  determined tid _ s s' h := by
    rw [resetMask, resetMask, h.binMask tid rfl]
    split_ifs
    · exact h.setMatch _ _
    · exact h

theorem rankPhase_grouped (p : ℕ) :
    Grouped b.subgroupIdx (RowAgree b) (List.range b.radixDigits) (rankPhase b key laneMaskLe p) :=
  match p with
  | 0 => orLaneMask_grouped key
  | 1 => claimSlots_grouped key laneMaskLe
  | _ + 2 => resetMask_grouped key

end Rows

section Columns

variable {w : ℕ} (b : RadixBlock)

structure ColumnAgree (c : ℕ) (s s' : RankState w) : Prop where
  smemOffsets : ∀ x, x % b.radixDigits = c → s.smemOffsets x = s'.smemOffsets x
  binCount : ∀ tid, tid = c → s.binCount tid = s'.binCount tid

variable {b}

theorem columnAgree_equivalence (c : ℕ) : Equivalence (ColumnAgree b (w := w) c) where
  refl _ := ⟨fun _ _ => rfl, fun _ _ => rfl⟩
  symm h := ⟨fun x hx => (h.smemOffsets x hx).symm, fun t ht => (h.binCount t ht).symm⟩
  trans h h' := ⟨fun x hx => (h.smemOffsets x hx).trans (h'.smemOffsets x hx),
    fun t ht => (h.binCount t ht).trans (h'.binCount t ht)⟩

namespace ColumnAgree

variable {c : ℕ} {s s' : RankState w}

theorem setOffset (h : ColumnAgree b c s s') (x : ℕ) (v : BitVec 32) :
    ColumnAgree b c (s.setOffset x v) (s'.setOffset x v) :=
  ⟨update_agree h.smemOffsets x v, h.binCount⟩

theorem setBinCount (h : ColumnAgree b c s s') (t : ℕ) (v : BitVec 32) :
    ColumnAgree b c (s.setBinCount t v) (s'.setBinCount t v) :=
  ⟨h.smemOffsets, update_agree h.binCount t v⟩

theorem setOffset_left (h : ColumnAgree b c s s') {x : ℕ} (hx : x % b.radixDigits ≠ c)
    (v : BitVec 32) : ColumnAgree b c (s.setOffset x v) s' :=
  ⟨update_outside h.smemOffsets hx v, h.binCount⟩

theorem setBinCount_left (h : ColumnAgree b c s s') {t : ℕ} (ht : t ≠ c) (v : BitVec 32) :
    ColumnAgree b c (s.setBinCount t v) s' :=
  ⟨h.smemOffsets, update_outside h.binCount ht v⟩

end ColumnAgree

theorem column_eq {j c : ℕ} (hc : c < b.radixDigits) :
    (j * b.radixDigits + c) % b.radixDigits = c := by
  rw [Nat.mul_comm, Nat.mul_add_mod, Nat.mod_eq_of_lt hc]

theorem upsweep_grouped :
    Grouped id (ColumnAgree b (w := w)) (List.range b.radixDigits) (upsweep b) where
  keeps tid htid c hne s := by
    have hcount : ∀ s : RankState w, ∀ v, ColumnAgree b c (s.setBinCount tid v) s := fun s =>
      ((columnAgree_equivalence c).refl s).setBinCount_left hne
    refine (columnAgree_equivalence c).trans
      (keeps_foldl (columnAgree_equivalence c) (fun j _ s => ?_) _) (hcount s 0)
    have hcell : (j * b.radixDigits + tid) % b.radixDigits ≠ c := by
      rwa [column_eq (List.mem_range.1 htid)]
    exact (((columnAgree_equivalence c).refl s).setOffset_left hcell _).setBinCount_left hne _
  determined tid htid s s' h := by
    refine determined_foldl (fun j _ s s' hs => ?_) (h.setBinCount tid 0)
    have hcell : s.smemOffsets (j * b.radixDigits + tid) =
        s'.smemOffsets (j * b.radixDigits + tid) :=
      hs.smemOffsets _ (column_eq (List.mem_range.1 htid))
    have hcount := hs.binCount tid rfl
    simp only [hcell, hcount]
    exact (hs.setOffset _ _).setBinCount _ _

theorem downsweep_grouped (exclusiveDigitPrefix : ℕ → BitVec 32) :
    Grouped id (ColumnAgree b (w := w)) (List.range b.radixDigits)
      (downsweep b exclusiveDigitPrefix) where
  keeps tid htid c hne s := by
    refine keeps_foldl (columnAgree_equivalence c) (fun j _ s => ?_) s
    have hcell : (j * b.radixDigits + tid) % b.radixDigits ≠ c := by
      rwa [column_eq (List.mem_range.1 htid)]
    exact ((columnAgree_equivalence c).refl s).setOffset_left hcell _
  determined tid htid s s' h := by
    refine determined_foldl (fun j _ s s' hs => ?_) h
    have hcell : s.smemOffsets (j * b.radixDigits + tid) =
        s'.smemOffsets (j * b.radixDigits + tid) :=
      hs.smemOffsets _ (column_eq (List.mem_range.1 htid))
    simp only [hcell]
    exact hs.setOffset _ _

end Columns

end Quadrants.Simt
