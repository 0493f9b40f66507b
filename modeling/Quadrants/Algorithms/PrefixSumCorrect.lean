import Quadrants.Algorithms.PrefixSumKernels
import Mathlib.Data.BitVec

/-!
Each level of `large_arr` is the scan of the totals of the blocks of the level before, so that a
sweep over the levels gives the scan of the first. An input of length one has no levels, and a field
without elements cannot be placed.
-/

namespace Quadrants.Algorithms.PrefixSum

open Library.SegmentFold List

section Positions

def numBlocks (eleNum : ℕ) : ℕ := (eleNum + BLOCK_SZ - 1) / BLOCK_SZ

def positions (eleNum startPos : ℕ) : List ℕ := startPos :: (initLoop eleNum startPos).map Prod.snd

def endPos (eleNum startPos : ℕ) : ℕ := ((initLoop eleNum startPos).map Prod.snd).getLastD startPos

variable {eleNum : ℕ}

theorem initLoop_of_lt (h : 1 < eleNum) (startPos : ℕ) :
    initLoop eleNum startPos = (numBlocks eleNum, startPos + BLOCK_SZ * numBlocks eleNum) ::
      initLoop (numBlocks eleNum) (startPos + BLOCK_SZ * numBlocks eleNum) := by
  rw [initLoop, if_pos h]
  rfl

theorem initLoop_of_le (h : eleNum ≤ 1) (startPos : ℕ) : initLoop eleNum startPos = [] := by
  rw [initLoop, if_neg (Nat.not_lt.2 h)]

theorem positions_of_lt (h : 1 < eleNum) (startPos : ℕ) : positions eleNum startPos =
    startPos :: positions (numBlocks eleNum) (startPos + BLOCK_SZ * numBlocks eleNum) := by
  rw [positions, initLoop_of_lt h]
  rfl

theorem positions_of_le (h : eleNum ≤ 1) (startPos : ℕ) :
    positions eleNum startPos = [startPos] := by
  rw [positions, initLoop_of_le h]
  rfl

theorem endPos_of_lt (h : 1 < eleNum) (startPos : ℕ) : endPos eleNum startPos =
    endPos (numBlocks eleNum) (startPos + BLOCK_SZ * numBlocks eleNum) := by
  rw [endPos, initLoop_of_lt h, map_cons, getLastD_cons]
  rfl

theorem endPos_of_le (h : eleNum ≤ 1) (startPos : ℕ) : endPos eleNum startPos = startPos := by
  rw [endPos, initLoop_of_le h]
  rfl

theorem numBlocks_lt (h : 1 < eleNum) : numBlocks eleNum < eleNum := by
  simp only [numBlocks, BLOCK_SZ]
  omega

theorem numBlocks_pos (h : 1 < eleNum) : 0 < numBlocks eleNum := by
  simp only [numBlocks, BLOCK_SZ]
  omega

theorem le_numBlocks (eleNum : ℕ) : eleNum ≤ BLOCK_SZ * numBlocks eleNum := by
  simp only [numBlocks, BLOCK_SZ]
  omega

theorem le_endPos (eleNum startPos : ℕ) : startPos ≤ endPos eleNum startPos := by
  induction eleNum using Nat.strong_induction_on generalizing startPos with
  | _ eleNum ih =>
    rcases Nat.lt_or_ge 1 eleNum with h | h
    · rw [endPos_of_lt h]
      exact Nat.le_trans (Nat.le_add_right _ _) (ih _ (numBlocks_lt h) _)
    · rw [endPos_of_le h]

theorem add_le_endPos (h : 1 < eleNum) (startPos : ℕ) :
    startPos + BLOCK_SZ * numBlocks eleNum ≤ endPos eleNum startPos := by
  rw [endPos_of_lt h]
  exact le_endPos _ _

end Positions

section Sweeps

variable (d : Device) (s : Schedule)

def sweep (first : ℕ) : List ℕ → I32Field → Option I32Field
  | inBeg :: inEnd :: next :: pos, largeArr => do
      let largeArr ← scanLevel d s largeArr first inBeg inEnd false
      let largeArr ← sweep (first + 1) (inEnd :: next :: pos) largeArr
      uniformLevel s largeArr first inBeg inEnd
  | [inBeg, inEnd], largeArr => scanLevel d s largeArr first inBeg inEnd true
  | _, largeArr => some largeArr

variable {d s}

theorem upSweep_cons (first inBeg inEnd next : ℕ) (pos : List ℕ) (largeArr : I32Field) :
    upSweep d s first (inBeg :: inEnd :: next :: pos) largeArr =
      scanLevel d s largeArr first inBeg inEnd false >>=
        upSweep d s (first + 1) (inEnd :: next :: pos) := by
  have hlen : (inBeg :: inEnd :: next :: pos).length - 1 = pos.length + 1 + 1 := rfl
  rw [upSweep, hlen, range_succ_eq_map]
  refine congrArg (scanLevel d s largeArr first inBeg inEnd false >>= ·) (funext fun largeArr => ?_)
  rw [foldlM_map]
  refine congrArg (fun f => List.foldlM f largeArr _) (funext₂ fun largeArr i => ?_)
  have hlevel : first + Nat.succ i = first + 1 + i := by omega
  have hlast : (Nat.succ i == pos.length + 1) = (i == pos.length) := by simp
  exact congrArg₂ (fun level last => scanLevel d s largeArr level _ _ last) hlevel hlast

theorem downSweep_cons (first inBeg inEnd next : ℕ) (pos : List ℕ) (largeArr : I32Field) :
    downSweep s first (inBeg :: inEnd :: next :: pos) largeArr =
      downSweep s (first + 1) (inEnd :: next :: pos) largeArr >>= fun largeArr =>
        uniformLevel s largeArr first inBeg inEnd := by
  have hlen : (inBeg :: inEnd :: next :: pos).length - 2 = pos.length + 1 := rfl
  rw [downSweep, hlen, range_succ_eq_map, reverse_cons, foldlM_append, ← map_reverse, foldlM_map]
  refine congrArg₂ (· >>= ·) (congrArg (fun f => List.foldlM f largeArr _) ?_)
    (funext fun largeArr => ?_)
  · funext largeArr i
    have hlevel : first + Nat.succ i = first + 1 + i := by omega
    exact congrArg (fun level => uniformLevel s largeArr level _ _) hlevel
  · simp

theorem sweep_eq (first : ℕ) (pos : List ℕ) (largeArr : I32Field) :
    upSweep d s first pos largeArr >>= downSweep s first pos = sweep d s first pos largeArr := by
  induction pos generalizing first largeArr with
  | nil => rfl
  | cons inBeg pos ih =>
    match pos with
    | [] => rfl
    | [inEnd] =>
      have hup : upSweep d s first [inBeg, inEnd] largeArr =
          scanLevel d s largeArr first inBeg inEnd true := by simp [upSweep]
      rw [hup]
      exact bind_pure (scanLevel d s largeArr first inBeg inEnd true)
    | inEnd :: next :: pos =>
      rw [upSweep_cons, bind_assoc]
      refine congrArg (scanLevel d s largeArr first inBeg inEnd false >>= ·)
        (funext fun largeArr => ?_)
      rw [← ih, bind_assoc]
      exact congrArg _ (funext fun largeArr => downSweep_cons _ _ _ _ _ _)

end Sweeps

section Correct

variable {d : Device} {s : Schedule} {inBeg n : ℕ}

structure Swept (inBeg n : ℕ) (largeArr largeArr' : I32Field) : Prop where
  size : largeArr'.size = largeArr.size
  scan : ∀ i < BLOCK_SZ * n, largeArr'.cells (inBeg + i) = addOp.fold largeArr.cells inBeg (i + 1)
  below : ∀ i < inBeg, largeArr'.cells i = largeArr.cells i

variable {largeArr largeArr' : I32Field}

theorem Scanned.swept
    (h : Scanned inBeg 1 true largeArr largeArr') : Swept inBeg 1 largeArr largeArr' where
  size := h.size
  scan i hi := h.block 0 Nat.one_pos i hi
  below := h.below

theorem Scanned.fold_totals
    (h : Scanned inBeg n false largeArr largeArr') {blockId : ℕ} (hle : blockId ≤ n) :
    addOp.fold largeArr'.cells (inBeg + BLOCK_SZ * n) blockId =
      addOp.fold largeArr.cells inBeg (BLOCK_SZ * blockId) := by
  rw [Nat.mul_comm BLOCK_SZ blockId, ← fold_tiles]
  refine fold_congr addOp fun k hk => ?_
  rw [h.total rfl k (by omega), Nat.zero_add, Nat.mul_comm k]

theorem Swept.of_levels {m : ℕ} {arr₀ arr₁ arr₂ arr₃ : I32Field} (hnm : n ≤ BLOCK_SZ * m)
    (hscan : Scanned inBeg n false arr₀ arr₁) (hsweep : Swept (inBeg + BLOCK_SZ * n) m arr₁ arr₂)
    (hadd : Added inBeg n arr₂ arr₃) : Swept inBeg n arr₀ arr₃ where
  size := hadd.size.trans (hsweep.size.trans hscan.size)
  below i hi := by
    rw [hadd.below i (by omega), hsweep.below i (by omega), hscan.below i hi]
  scan i hi := by
    have hthread : i % BLOCK_SZ < BLOCK_SZ := Nat.mod_lt i (by decide)
    have hblock : i / BLOCK_SZ < n := Nat.div_lt_of_lt_mul hi
    rw [← Nat.div_add_mod i BLOCK_SZ]
    generalize i / BLOCK_SZ = blockId at *
    generalize i % BLOCK_SZ = threadId at *
    have hlt := block_lt hblock hthread
    have hold : arr₂.cells (inBeg + BLOCK_SZ * blockId + threadId) =
        addOp.fold arr₀.cells (inBeg + BLOCK_SZ * blockId) (threadId + 1) := by
      rw [hsweep.below _ (by omega), hscan.block blockId hblock threadId hthread]
    rw [← Nat.add_assoc]
    rcases Nat.eq_zero_or_pos blockId with rfl | hpos
    · rw [hadd.below _ (by omega), hold]
      simp
    · obtain ⟨prev, rfl⟩ := Nat.exists_eq_succ_of_ne_zero (Nat.ne_of_gt hpos)
      rw [hadd.block _ hblock threadId hthread hpos, hold, Nat.succ_sub_one,
        hsweep.scan prev (by omega), hscan.fold_totals (Nat.le_of_lt hblock), Nat.add_assoc,
        fold_add addOp _ inBeg]
      exact BitVec.add_comm _ _

theorem scanLevel_spec (level : ℕ) (singleBlock : Bool)
    (hsize : inBeg + BLOCK_SZ * n ≤ largeArr.size)
    (htotals : singleBlock = false → inBeg + BLOCK_SZ * n + n ≤ largeArr.size) :
    ∃ largeArr', scanLevel d s largeArr level inBeg (inBeg + BLOCK_SZ * n) singleBlock =
      some largeArr' ∧ Scanned inBeg n singleBlock largeArr largeArr' := by
  rw [scanLevel, Nat.add_sub_cancel_left, Nat.mul_div_cancel_left n (by decide)]
  exact scanAddInclusive_spec d (s.perm _ _) hsize htotals

theorem sweep_spec {eleNum : ℕ} (h : 1 < eleNum) (first inBeg : ℕ) (largeArr : I32Field)
    (hsize : endPos eleNum inBeg ≤ largeArr.size) :
    ∃ largeArr', sweep d s first (positions eleNum inBeg) largeArr = some largeArr' ∧
      Swept inBeg (numBlocks eleNum) largeArr largeArr' := by
  induction eleNum using Nat.strong_induction_on generalizing first inBeg largeArr with
  | _ eleNum ih =>
    have hend := add_le_endPos h inBeg
    rw [positions_of_lt h]
    rcases Nat.lt_or_ge 1 (numBlocks eleNum) with hnext | hlast
    · have hroom : inBeg + BLOCK_SZ * numBlocks eleNum + numBlocks eleNum ≤ largeArr.size := by
        have hle := add_le_endPos hnext (inBeg + BLOCK_SZ * numBlocks eleNum)
        have := le_numBlocks (numBlocks eleNum)
        rw [endPos_of_lt h] at hsize
        omega
      obtain ⟨arr₁, hrun₁, hscan⟩ := scanLevel_spec (d := d) (s := s) first
        false (Nat.le_trans hend hsize) fun _ => hroom
      rw [endPos_of_lt h, ← hscan.size] at hsize
      obtain ⟨arr₂, hrun₂, hsweep⟩ := ih _ (numBlocks_lt h) hnext (first + 1) _ arr₁ hsize
      obtain ⟨arr₃, hrun₃, hadd⟩ := uniformAdd_spec (s.perm (.uniform first) _)
        arr₂ (by rw [hsweep.size, hscan.size]; exact hroom)
      refine ⟨arr₃, ?_, Swept.of_levels (le_numBlocks _) hscan hsweep hadd⟩
      rw [positions_of_lt hnext] at hrun₂ ⊢
      rw [positions, sweep, hrun₁, Option.bind_eq_bind]
      exact (congrArg (· >>= _) hrun₂).trans hrun₃
    · have hone : numBlocks eleNum = 1 := Nat.le_antisymm hlast (numBlocks_pos h)
      rw [positions_of_le hlast, hone]
      rw [hone] at hend
      obtain ⟨largeArr', hrun, hscan⟩ := scanLevel_spec (d := d) (s := s) first true
        (Nat.le_trans hend hsize) nofun
      exact ⟨largeArr', hrun, hscan.swept⟩

end Correct

def Executor.region (e : Executor) (level : ℕ) : Set ℕ :=
  {i | e.eleNumsPos.getD level 0 ≤ i ∧
    i < e.eleNumsPos.getD level 0 + BLOCK_SZ * numBlocks (e.eleNums.getD level 0)}

def Executor.Apart (e : Executor) : Prop :=
  ∀ level other, level ≠ other → level + 1 < e.eleNumsPos.length →
    other + 1 < e.eleNumsPos.length → ∀ i ∈ e.region level, i ∉ e.region other

variable {eleNum length : ℕ}

theorem positions_succ {level : ℕ} (startPos : ℕ)
    (h : level + 1 < (positions eleNum startPos).length) :
    (positions eleNum startPos).getD (level + 1) 0 = (positions eleNum startPos).getD level 0 +
      BLOCK_SZ * numBlocks ((eleNum :: (initLoop eleNum startPos).map Prod.fst).getD level 0) := by
  induction level generalizing eleNum startPos with
  | zero =>
    rcases Nat.lt_or_ge 1 eleNum with hlt | hle
    · rw [positions_of_lt hlt]
      rfl
    · rw [positions_of_le hle] at h
      exact absurd h (Nat.lt_irrefl _)
  | succ level ih =>
    rcases Nat.lt_or_ge 1 eleNum with hlt | hle
    · rw [positions_of_lt hlt] at h ⊢
      rw [initLoop_of_lt hlt]
      exact ih _ (Nat.lt_of_succ_lt_succ h)
    · rw [positions_of_le hle] at h
      exact absurd (Nat.lt_of_succ_lt_succ h) (Nat.not_lt_zero _)

theorem apart_of_positions {e : Executor} (hpos : e.eleNumsPos = positions length 0)
    (hnums : e.eleNums = length :: (initLoop length 0).map Prod.fst) : e.Apart := by
  have hnext : ∀ level, level + 1 < e.eleNumsPos.length → e.eleNumsPos.getD (level + 1) 0 =
      e.eleNumsPos.getD level 0 + BLOCK_SZ * numBlocks (e.eleNums.getD level 0) := by
    rw [hpos, hnums]
    exact fun level => positions_succ 0
  have hmono : ∀ steps level, level + steps < e.eleNumsPos.length →
      e.eleNumsPos.getD level 0 ≤ e.eleNumsPos.getD (level + steps) 0 := by
    intro steps level
    induction steps with
    | zero => exact fun _ => Nat.le_refl _
    | succ steps ih =>
      intro h
      rw [← Nat.add_assoc, hnext (level + steps) h]
      exact Nat.le_trans (ih (by omega)) (Nat.le_add_right _ _)
  have hbefore : ∀ level other i, level < other → other + 1 < e.eleNumsPos.length →
      i ∈ e.region level → i ∉ e.region other := by
    rintro level other i hlt hother ⟨_, hi⟩ ⟨hi', _⟩
    obtain ⟨steps, rfl⟩ := Nat.exists_eq_add_of_le (show level + 1 ≤ other from hlt)
    rw [← hnext level (by omega)] at hi
    have := hmono steps (level + 1) (by omega)
    omega
  intro level other hne hlevel hother i hi hi'
  rcases Nat.lt_or_gt_of_ne hne with hlt | hgt
  · exact hbefore level other i hlt hother hi hi'
  · exact hbefore other level i hgt hlevel hi' hi

/-- The executor for `length` elements can be made, its levels are apart, and a run stays inside of
the fields and leaves the inclusive scan. -/
def ScansInclusive (length : ℕ) : Prop :=
  ∃ e, init length = .ok e ∧ e.Apart ∧ ∀ d s largeArr inputArr,
    largeArr.size = e.largeSize → inputArr.size = length →
      ∃ inputArr' largeArr', run d s e largeArr inputArr = some (inputArr', largeArr') ∧
        ∀ i < length, inputArr'.cells i = ((List.range (i + 1)).map inputArr.cells).sum

theorem fold_eq_sum (f : ℕ → I32) (n : ℕ) : addOp.fold f 0 n = ((List.range n).map f).sum := by
  induction n with
  | zero => rfl
  | succ n ih =>
    rw [fold_succ, ih, range_succ, map_append, sum_append, Nat.zero_add]
    exact congrArg (_ + ·) (BitVec.add_zero _).symm

theorem run_spec (h : 1 < length) (d : Device) (s : Schedule)
    {largeArr inputArr : I32Field} (hlarge : largeArr.size = endPos length 0)
    (hinput : inputArr.size = length) :
    ∃ inputArr' largeArr', run d s ⟨length, length :: (initLoop length 0).map Prod.fst,
      positions length 0, endPos length 0⟩ largeArr inputArr = some (inputArr', largeArr') ∧
        ∀ i < length, inputArr'.cells i = ((List.range (i + 1)).map inputArr.cells).sum := by
  have hroom : length ≤ endPos length 0 :=
    Nat.le_trans (le_numBlocks length) (Nat.le_trans (Nat.le_add_left _ 0) (add_le_endPos h 0))
  obtain ⟨arr₁, hblit, hsize, hin⟩ := blitFromFieldToField_spec (s.perm .blitIn (List.range length))
    largeArr inputArr (by omega) (by omega)
  obtain ⟨arr₂, hsweep, hswept⟩ := sweep_spec (d := d) (s := s) h 0 0 arr₁ (by omega)
  have hsize₂ := hswept.size
  obtain ⟨inputArr', hblit', _, hout⟩ := blitFromFieldToField_spec
    (s.perm .blitOut (List.range length)) inputArr arr₂ (by omega) (by omega)
  refine ⟨inputArr', arr₂, ?_, ?_⟩
  · rw [← sweep_eq] at hsweep
    obtain ⟨arr, hup, hdown⟩ := Option.bind_eq_some_iff.1 hsweep
    simp only [run, hblit, hup, hdown, hblit', Option.bind_eq_bind, Option.bind_some]
    rfl
  · intro i hi
    have hscan := hswept.scan i (Nat.lt_of_lt_of_le hi (le_numBlocks length))
    rw [Nat.zero_add] at hscan
    rw [hout i hi, hscan, ← fold_eq_sum]
    refine fold_congr addOp fun j hj => ?_
    rw [hin _ (by omega)]

theorem endPos_mono {eleNum' startPos startPos' : ℕ} (hele : eleNum ≤ eleNum')
    (hstart : startPos ≤ startPos') : endPos eleNum startPos ≤ endPos eleNum' startPos' := by
  induction eleNum' using Nat.strong_induction_on generalizing eleNum startPos startPos' with
  | _ eleNum' ih =>
    rcases Nat.lt_or_ge 1 eleNum with h | h
    · have h' : 1 < eleNum' := Nat.lt_of_lt_of_le h hele
      have hblocks : numBlocks eleNum ≤ numBlocks eleNum' := by
        simp only [numBlocks, BLOCK_SZ]
        omega
      rw [endPos_of_lt h, endPos_of_lt h']
      exact ih _ (numBlocks_lt h') hblocks
        (Nat.add_le_add hstart (Nat.mul_le_mul_left BLOCK_SZ hblocks))
    · rw [endPos_of_le h]
      exact Nat.le_trans hstart (le_endPos _ _)

def maxLength : ℕ := 2113929088

theorem endPos_lt_iff (length : ℕ) : endPos length 0 < 2 ^ 31 ↔ length ≤ maxLength := by
  have hfits : endPos maxLength 0 < 2 ^ 31 := by
    simp [maxLength, endPos_of_lt, endPos_of_le, numBlocks, BLOCK_SZ]
  have hexceeds : 2 ^ 31 ≤ endPos (maxLength + 1) 0 := by
    simp [maxLength, endPos_of_lt, endPos_of_le, numBlocks, BLOCK_SZ]
  constructor
  · intro h
    by_contra hgt
    have hmono := endPos_mono (show maxLength + 1 ≤ length from Nat.lt_of_not_le hgt)
      (Nat.le_refl 0)
    omega
  · intro h
    exact Nat.lt_of_le_of_lt (endPos_mono h (Nat.le_refl 0)) hfits

theorem endPos_pos_iff (length : ℕ) : endPos length 0 ≠ 0 ↔ 2 ≤ length := by
  constructor
  · intro h
    by_contra hlt
    exact h (endPos_of_le (by omega) 0)
  · intro h
    have hle := add_le_endPos h 0
    have hpos := Nat.mul_pos (show 0 < BLOCK_SZ by decide) (numBlocks_pos h)
    omega

theorem init_eq (length : ℕ) : init length = do
    checkShape (endPos length 0)
    return ⟨length, length :: (initLoop length 0).map Prod.fst, positions length 0,
      endPos length 0⟩ := rfl

theorem checkShape_eq_ok_iff (size : ℕ) : checkShape size = .ok () ↔ size ≠ 0 ∧ size < 2 ^ 31 := by
  rw [checkShape]
  split_ifs with hint hzero
  · exact iff_of_false nofun fun h => Nat.not_lt.2 hint h.2
  · exact iff_of_false nofun fun h => h.1 hzero
  · exact iff_of_true rfl ⟨hzero, Nat.lt_of_not_le hint⟩

theorem scansInclusive_iff (length : ℕ) :
    ScansInclusive length ↔ 2 ≤ length ∧ length ≤ maxLength := by
  rw [← endPos_pos_iff, ← endPos_lt_iff, ← checkShape_eq_ok_iff]
  constructor
  · rintro ⟨e, hinit, _⟩
    rw [init_eq] at hinit
    rcases hcheck : checkShape (endPos length 0) with error | _
    · rw [hcheck] at hinit
      exact absurd hinit nofun
    · rfl
  · intro hcheck
    have hlt : 1 < length := (endPos_pos_iff length).1 ((checkShape_eq_ok_iff _).1 hcheck).1
    refine ⟨_, (init_eq length).trans ?_, apart_of_positions rfl rfl,
      fun d s largeArr inputArr hlarge hinput => run_spec hlt d s hlarge hinput⟩
    rw [hcheck]
    rfl

theorem not_scansInclusive_one : ¬ScansInclusive 1 := by
  rintro ⟨e, hinit, _⟩
  rw [init_eq, endPos_of_le (Nat.le_refl 1)] at hinit
  exact absurd hinit nofun

end Quadrants.Algorithms.PrefixSum
