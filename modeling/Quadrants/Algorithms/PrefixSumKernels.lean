import Mathlib.Logic.Function.Basic
import Quadrants.Library.ParallelLoop
import Quadrants.Simt.BlockOps
import Quadrants.Simt.FoldOrder

/-!
`PrefixSumExecutor` of `algorithms/_algorithms.py` and its kernels, for an input of type `i32` on a
device that it supports. An access outside of a field ends the run. The offsets of the fields are
left out: an index counts from the first element.
-/

namespace Quadrants.Algorithms.PrefixSum

open Library.ParallelLoop

abbrev I32 := BitVec 32

structure I32Field where
  size : ℕ
  cells : ℕ → I32

def BLOCK_SZ : ℕ := 64

def WARP_SZ : ℕ := 32

inductive FieldError where
  | notPositive (size : ℕ)
  | notAnInt (size : ℕ)
  deriving DecidableEq, Repr

def checkShape (size : ℕ) : Except FieldError Unit :=
  if 2 ^ 31 ≤ size then .error (.notAnInt size)
  else if size = 0 then .error (.notPositive size)
  else .ok ()

structure Executor where
  sortingLength : ℕ
  eleNums : List ℕ
  eleNumsPos : List ℕ
  largeSize : ℕ
  deriving DecidableEq, Repr

def initLoop (eleNum startPos : ℕ) : List (ℕ × ℕ) :=
  if 1 < eleNum then
    let eleNum' := (eleNum + BLOCK_SZ - 1) / BLOCK_SZ
    let startPos' := startPos + BLOCK_SZ * eleNum'
    (eleNum', startPos') :: initLoop eleNum' startPos'
  else []
  termination_by eleNum
  decreasing_by
    show (eleNum + 64 - 1) / 64 < eleNum
    omega

def init (length : ℕ) : Except FieldError Executor := do
  let appended := initLoop length 0
  let eleNums := length :: appended.map Prod.fst
  let eleNumsPos := 0 :: appended.map Prod.snd
  let startPos := (appended.map Prod.snd).getLastD 0
  checkShape startPos
  return ⟨length, eleNums, eleNumsPos, startPos⟩

section Kernels

inductive ScanPrimitive where
  | warpShflUpI32
  | subgroupInclusiveAddWarpI32
  deriving DecidableEq, Repr

/-- What a shuffle from outside of the warp gives, and what shared memory holds at first -/
structure Device where
  primitive : ScanPrimitive
  outside : ℕ → ℕ → I32
  shared : ℕ → I32

variable (d : Device)

def shflUpStep (offset : ℕ) (val : ℕ → I32) (tid : ℕ) : I32 :=
  let laneId := tid % WARP_SZ
  let n := Simt.shuffleUp 5 d.outside val offset tid
  if laneId ≥ offset then val tid + n else val tid

def warpShflUpI32 (val : ℕ → I32) : ℕ → I32 :=
  shflUpStep d 16 (shflUpStep d 8 (shflUpStep d 4 (shflUpStep d 2 (shflUpStep d 1 val))))

def scanPrimitive (val : ℕ → I32) : ℕ → I32 :=
  match d.primitive with
  | .warpShflUpI32 => warpShflUpI32 d val
  | .subgroupInclusiveAddWarpI32 => Simt.inclusiveScanTiled 5 d.outside (· + ·) val

def blockScan (val : ℕ → I32) (threadId : ℕ) : I32 :=
  let val := scanPrimitive d val
  let padShared := fun warpId =>
    if warpId < BLOCK_SZ / WARP_SZ then val (warpId * WARP_SZ + (WARP_SZ - 1)) else d.shared warpId
  let padShared := (List.range' 1 (BLOCK_SZ / WARP_SZ - 1)).foldl (fun padShared k =>
    Function.update padShared k (padShared k + padShared (k - 1))) padShared
  let warpId := threadId / WARP_SZ
  let warpSum := if warpId > 0 then padShared (warpId - 1) else 0
  val threadId + warpSum

/-- The stores of block `blockId`. `in_beg` is a multiple of 64, so that the threads of a block have
consecutive values of `i`. -/
def scanRound (inBeg inEnd : ℕ) (singleBlock : Bool) (blockId : ℕ) (arrIn : ℕ → I32) (i : ℕ) :
    I32 :=
  let val := blockScan d fun threadId => arrIn (inBeg + BLOCK_SZ * blockId + threadId)
  if inBeg + BLOCK_SZ * blockId ≤ i ∧ i < inBeg + BLOCK_SZ * (blockId + 1) then
    val (i - (inBeg + BLOCK_SZ * blockId))
  else if singleBlock = false ∧ i = inEnd + blockId then val (BLOCK_SZ - 1)
  else arrIn i

def scanAddInclusive (order : List ℕ) (arrIn : I32Field) (inBeg inEnd : ℕ) (singleBlock : Bool) :
    Option I32Field :=
  (runGuarded (fun blockId => inBeg + BLOCK_SZ * (blockId + 1) ≤ arrIn.size ∧
      (singleBlock = true ∨ inEnd + blockId < arrIn.size))
    (scanRound d inBeg inEnd singleBlock) order arrIn.cells).map fun cells => { arrIn with cells }

def uniformRound (inBeg inEnd i : ℕ) (arrIn : ℕ → I32) : ℕ → I32 :=
  let blockId := (i - inBeg) / BLOCK_SZ
  Function.update arrIn i (arrIn i + arrIn (inEnd + blockId - 1))

def uniformAdd (order : List ℕ) (arrIn : I32Field) (inBeg inEnd : ℕ) : Option I32Field :=
  (runGuarded (fun i => i < arrIn.size ∧ inEnd + (i - inBeg) / BLOCK_SZ - 1 < arrIn.size)
    (uniformRound inBeg inEnd) order arrIn.cells).map fun cells => { arrIn with cells }

def blitFromFieldToField (order : List ℕ) (dst src : I32Field) (offset : ℕ) : Option I32Field :=
  (runGuarded (fun i => i + offset < dst.size ∧ i < src.size)
    (fun i cells => Function.update cells (i + offset) (src.cells i)) order dst.cells).map
      fun cells => { dst with cells }

end Kernels

section Run

inductive Launch where
  | blitIn
  | scan (level : ℕ)
  | uniform (level : ℕ)
  | blitOut

structure Schedule where
  order : Launch → List ℕ → List ℕ
  perm : ∀ launch loop, (order launch loop).Perm loop

variable (d : Device) (s : Schedule)

def scanLevel (largeArr : I32Field) (level inBeg inEnd : ℕ) (singleBlock : Bool) :
    Option I32Field :=
  scanAddInclusive d (s.order (.scan level) (List.range ((inEnd - inBeg) / BLOCK_SZ))) largeArr
    inBeg inEnd singleBlock

def uniformLevel (largeArr : I32Field) (level inBeg inEnd : ℕ) : Option I32Field :=
  uniformAdd
    (s.order (.uniform level) (List.range' (inBeg + BLOCK_SZ) (inEnd - (inBeg + BLOCK_SZ))))
    largeArr inBeg inEnd

def upSweep (first : ℕ) (pos : List ℕ) (largeArr : I32Field) : Option I32Field :=
  (List.range (pos.length - 1)).foldlM (fun largeArr i =>
    scanLevel d s largeArr (first + i) (pos.getD i 0) (pos.getD (i + 1) 0)
      (i == pos.length - 2)) largeArr

def downSweep (first : ℕ) (pos : List ℕ) (largeArr : I32Field) : Option I32Field :=
  (List.range (pos.length - 2)).reverse.foldlM (fun largeArr i =>
    uniformLevel s largeArr (first + i) (pos.getD i 0) (pos.getD (i + 1) 0)) largeArr

def run (e : Executor) (largeArr inputArr : I32Field) : Option (I32Field × I32Field) := do
  let loop := List.range e.sortingLength
  let largeArr ← blitFromFieldToField (s.order .blitIn loop) largeArr inputArr 0
  let largeArr ← upSweep d s 0 e.eleNumsPos largeArr
  let largeArr ← downSweep s 0 e.eleNumsPos largeArr
  let inputArr ← blitFromFieldToField (s.order .blitOut loop) inputArr largeArr 0
  return (inputArr, largeArr)

end Run

end Quadrants.Algorithms.PrefixSum

/-!
What one launch of each kernel leaves in its field, for any order of its blocks.
-/

namespace Quadrants.Algorithms.PrefixSum

open Library.ParallelLoop Library.SegmentFold

def addOp : BinOp I32 where
  op := (· + ·)
  ident := 0
  assoc _ _ _ := BitVec.add_assoc _ _ _
  ident_op _ := BitVec.zero_add _
  op_ident _ := BitVec.add_zero _

section Blocks

variable (d : Device) (val : ℕ → I32)

theorem shflUpStep_eq (i : ℕ) : shflUpStep d (1 <<< i) val = fun tid =>
      if Simt.laneId 5 tid ≥ 1 <<< i then
        addOp.op (Simt.shuffleUp 5 d.outside val (1 <<< i) tid) (val tid)
      else val tid := by
  funext tid
  have hlane : tid % WARP_SZ = Simt.laneId 5 tid := by
    rw [Simt.laneId, Simt.subgroupSize_eq, Nat.and_two_pow_sub_one_eq_mod]
    rfl
  rw [shflUpStep, hlane]
  exact if_congr Iff.rfl (BitVec.add_comm _ _) rfl

theorem warpShflUpI32_eq :
    warpShflUpI32 d val = Simt.inclusiveScanTiled 5 d.outside addOp.op val := by
  rw [warpShflUpI32, ← show 1 <<< 0 = 1 from rfl, shflUpStep_eq d val 0,
    ← show 1 <<< 1 = 2 from rfl, shflUpStep_eq d _ 1, ← show 1 <<< 2 = 4 from rfl,
    shflUpStep_eq d _ 2, ← show 1 <<< 3 = 8 from rfl, shflUpStep_eq d _ 3,
    ← show 1 <<< 4 = 16 from rfl, shflUpStep_eq d _ 4]
  rfl

theorem scanPrimitive_eq (warpId : ℕ) {laneId : ℕ} (hlane : laneId < WARP_SZ) :
    scanPrimitive d val (warpId * WARP_SZ + laneId) =
      addOp.fold val (warpId * WARP_SZ) (laneId + 1) := by
  have htiled : scanPrimitive d val = Simt.inclusiveScanTiled 5 d.outside addOp.op val := by
    unfold scanPrimitive
    split
    · exact warpShflUpI32_eq d val
    · rfl
  rw [htiled]
  exact Simt.inclusiveScanTiled_eq warpId hlane val

theorem blockScan_eq {threadId : ℕ} (h : threadId < BLOCK_SZ) :
    blockScan d val threadId = addOp.fold val 0 (threadId + 1) := by
  have hfirst := scanPrimitive_eq d val 0 (show 31 < WARP_SZ by decide)
  rcases Nat.lt_or_ge threadId WARP_SZ with hwarp | hwarp
  · have hscan := scanPrimitive_eq d val 0 hwarp
    rw [Nat.zero_mul, Nat.zero_add] at hscan
    rw [blockScan, Nat.div_eq_of_lt hwarp, hscan]
    exact BitVec.add_zero _
  · obtain ⟨laneId, rfl⟩ := Nat.exists_eq_add_of_le hwarp
    have hlane : laneId < WARP_SZ := by
      simp only [BLOCK_SZ, WARP_SZ] at h ⊢
      omega
    have hscan := scanPrimitive_eq d val 1 hlane
    have hdiv : (WARP_SZ + laneId) / WARP_SZ = 1 := by
      simp only [WARP_SZ] at hlane ⊢
      omega
    rw [Nat.one_mul] at hscan
    rw [Nat.add_assoc, fold_add, blockScan, hdiv, hscan]
    refine (BitVec.add_comm _ _).trans (congrArg (· + _) ?_)
    exact hfirst

end Blocks

section Scan

variable {inBeg n : ℕ} {singleBlock : Bool}

def blockCells (inBeg inEnd : ℕ) (singleBlock : Bool) (blockId : ℕ) : Set ℕ :=
  {i | inBeg + BLOCK_SZ * blockId ≤ i ∧ i < inBeg + BLOCK_SZ * (blockId + 1) ∨
    singleBlock = false ∧ i = inEnd + blockId}

theorem scanRound_block (d : Device) (inEnd blockId : ℕ) (arrIn : ℕ → I32) {threadId : ℕ}
    (h : threadId < BLOCK_SZ) :
    scanRound d inBeg inEnd singleBlock blockId arrIn (inBeg + BLOCK_SZ * blockId + threadId) =
      addOp.fold arrIn (inBeg + BLOCK_SZ * blockId) (threadId + 1) := by
  have hin : inBeg + BLOCK_SZ * blockId ≤ inBeg + BLOCK_SZ * blockId + threadId ∧
      inBeg + BLOCK_SZ * blockId + threadId < inBeg + BLOCK_SZ * (blockId + 1) := by
    rw [Nat.mul_succ]
    omega
  rw [scanRound, if_pos hin, Nat.add_sub_cancel_left, blockScan_eq d _ h]
  refine fold_congr addOp fun i _ => ?_
  rw [Nat.zero_add]

theorem scanRound_total (d : Device) {inEnd blockId : ℕ} (arrIn : ℕ → I32)
    (h : inBeg + BLOCK_SZ * (blockId + 1) ≤ inEnd) :
    scanRound d inBeg inEnd false blockId arrIn (inEnd + blockId) =
      addOp.fold arrIn (inBeg + BLOCK_SZ * blockId) BLOCK_SZ := by
  rw [scanRound, if_neg (by omega), if_pos ⟨rfl, rfl⟩, blockScan_eq d _ (by decide)]
  refine fold_congr addOp fun i _ => ?_
  rw [Nat.zero_add]

theorem scanRound_independent (d : Device) (inBeg n : ℕ) (singleBlock : Bool) :
    Independent (scanRound d inBeg (inBeg + BLOCK_SZ * n) singleBlock)
      (blockCells inBeg (inBeg + BLOCK_SZ * n) singleBlock) {blockId | blockId < n} where
  frame := by
    intro blockId _ arrIn i hi
    rw [scanRound, if_neg fun h => hi (Or.inl h), if_neg fun h => hi (Or.inr h)]
  apart := by
    simp only [blockCells, BLOCK_SZ, Set.mem_ofPred_eq]
    omega
  reads := by
    intro blockId hlt arrIn arrIn' heq i hi
    have hblock : ∀ j, inBeg + BLOCK_SZ * blockId ≤ j → j < inBeg + BLOCK_SZ * (blockId + 1) →
        arrIn j = arrIn' j := by
      simp only [blockCells, BLOCK_SZ, Set.mem_ofPred_eq] at hlt heq ⊢
      intro j hle hj
      refine heq j fun other hother hne => ?_
      omega
    have hfold : ∀ k ≤ BLOCK_SZ, addOp.fold arrIn (inBeg + BLOCK_SZ * blockId) k =
        addOp.fold arrIn' (inBeg + BLOCK_SZ * blockId) k := by
      intro k hk
      refine fold_congr addOp fun j hj => hblock _ (Nat.le_add_right _ _) ?_
      rw [Nat.mul_succ]
      omega
    rcases hi with ⟨hle, hi⟩ | ⟨rfl, rfl⟩
    · obtain ⟨threadId, rfl⟩ := Nat.exists_eq_add_of_le hle
      have hthread : threadId < BLOCK_SZ := by
        rw [Nat.mul_succ] at hi
        omega
      rw [scanRound_block d _ _ _ hthread, scanRound_block d _ _ _ hthread, hfold _ hthread]
    · have hend := Nat.add_le_add_left (Nat.mul_le_mul_left BLOCK_SZ hlt) inBeg
      rw [scanRound_total d _ hend, scanRound_total d _ hend, hfold _ (Nat.le_refl _)]

structure Scanned (inBeg n : ℕ) (singleBlock : Bool) (arrIn arrIn' : I32Field) : Prop where
  size : arrIn'.size = arrIn.size
  block : ∀ blockId < n, ∀ threadId < BLOCK_SZ,
    arrIn'.cells (inBeg + BLOCK_SZ * blockId + threadId) =
      addOp.fold arrIn.cells (inBeg + BLOCK_SZ * blockId) (threadId + 1)
  total : singleBlock = false → ∀ blockId < n,
    arrIn'.cells (inBeg + BLOCK_SZ * n + blockId) =
      addOp.fold arrIn.cells (inBeg + BLOCK_SZ * blockId) BLOCK_SZ
  below : ∀ i < inBeg, arrIn'.cells i = arrIn.cells i

theorem scanAddInclusive_spec (d : Device) {order : List ℕ} (horder : order.Perm (List.range n))
    {arrIn : I32Field} (hsize : inBeg + BLOCK_SZ * n ≤ arrIn.size)
    (htotals : singleBlock = false → inBeg + BLOCK_SZ * n + n ≤ arrIn.size) :
    ∃ arrIn', scanAddInclusive d order arrIn inBeg (inBeg + BLOCK_SZ * n) singleBlock =
      some arrIn' ∧ Scanned inBeg n singleBlock arrIn arrIn' := by
  have hind := scanRound_independent d inBeg n singleBlock
  have hmem : ∀ blockId, blockId ∈ order ↔ blockId < n := fun blockId =>
    horder.mem_iff.trans List.mem_range
  have hnodup : order.Nodup := horder.nodup_iff.2 List.nodup_range
  have hrounds : ∀ blockId ∈ order, blockId ∈ {blockId | blockId < n} := fun _ => (hmem _).1
  have hends : ∀ blockId < n, inBeg + BLOCK_SZ * (blockId + 1) ≤ inBeg + BLOCK_SZ * n :=
    fun blockId hlt => Nat.add_le_add_left (Nat.mul_le_mul_left BLOCK_SZ hlt) inBeg
  refine ⟨⟨arrIn.size, runRounds (scanRound d inBeg (inBeg + BLOCK_SZ * n) singleBlock) order
    arrIn.cells⟩, ?_, ⟨rfl, ?_, ?_, ?_⟩⟩
  · rw [scanAddInclusive, runGuarded_of_forall]
    · rfl
    · intro blockId hblock
      have hlt := (hmem blockId).1 hblock
      refine ⟨Nat.le_trans (hends blockId hlt) hsize, ?_⟩
      cases singleBlock with
      | true => exact Or.inl rfl
      | false =>
        have := htotals rfl
        exact Or.inr (by omega)
  · intro blockId hlt threadId hthread
    refine (hind.runRounds_of_mem hnodup hrounds ((hmem blockId).2 hlt) (Or.inl ?_)).trans
      (scanRound_block d _ _ _ hthread)
    rw [Nat.mul_succ]
    omega
  · rintro rfl blockId hlt
    exact (hind.runRounds_of_mem hnodup hrounds ((hmem blockId).2 hlt) (Or.inr ⟨rfl, rfl⟩)).trans
      (scanRound_total d _ (hends blockId hlt))
  · intro i hi
    refine hind.runRounds_of_forall_not_mem hrounds ?_
    rintro blockId hblock (⟨hle, _⟩ | ⟨_, rfl⟩)
    · omega
    · omega

end Scan

section Uniform

variable {inBeg n : ℕ}

theorem uniformRound_independent (inBeg n : ℕ) :
    Independent (uniformRound inBeg (inBeg + BLOCK_SZ * n)) (fun i => {i})
      {i | inBeg + BLOCK_SZ ≤ i ∧ i < inBeg + BLOCK_SZ * n} where
  frame _ _ arrIn _ hj := Function.update_of_ne hj _ arrIn
  apart := by
    rintro i _ j _ hne x rfl hx
    exact hne hx
  reads := by
    rintro i ⟨hle, hlt⟩ arrIn arrIn' heq x rfl
    have htotal : inBeg + BLOCK_SZ * n ≤ inBeg + BLOCK_SZ * n + (x - inBeg) / BLOCK_SZ - 1 := by
      have : 1 ≤ (x - inBeg) / BLOCK_SZ := (Nat.one_le_div_iff (by decide)).2 (by omega)
      omega
    rw [uniformRound, uniformRound, Function.update_self, Function.update_self,
      heq x fun j _ hne hx => hne hx.symm, heq]
    rintro j ⟨_, hj⟩ _ rfl
    omega

structure Added (inBeg n : ℕ) (arrIn arrIn' : I32Field) : Prop where
  size : arrIn'.size = arrIn.size
  block : ∀ blockId < n, ∀ threadId < BLOCK_SZ, 0 < blockId →
    arrIn'.cells (inBeg + BLOCK_SZ * blockId + threadId) =
      arrIn.cells (inBeg + BLOCK_SZ * blockId + threadId) +
        arrIn.cells (inBeg + BLOCK_SZ * n + (blockId - 1))
  below : ∀ i < inBeg + BLOCK_SZ, arrIn'.cells i = arrIn.cells i

theorem block_lt {blockId threadId : ℕ} (hblock : blockId < n) (hthread : threadId < BLOCK_SZ) :
    BLOCK_SZ * blockId + threadId < BLOCK_SZ * n := by
  have := Nat.mul_le_mul_left BLOCK_SZ hblock
  rw [Nat.mul_succ] at this
  omega

theorem uniformAdd_spec {order : List ℕ} (horder : order.Perm (List.range' (inBeg + BLOCK_SZ)
      (inBeg + BLOCK_SZ * n - (inBeg + BLOCK_SZ))))
    (arrIn : I32Field) (hsize : inBeg + BLOCK_SZ * n + n ≤ arrIn.size) :
    ∃ arrIn', uniformAdd order arrIn inBeg (inBeg + BLOCK_SZ * n) = some arrIn' ∧
      Added inBeg n arrIn arrIn' := by
  have hind := uniformRound_independent inBeg n
  have hmem : ∀ i, i ∈ order ↔ inBeg + BLOCK_SZ ≤ i ∧ i < inBeg + BLOCK_SZ * n := by
    intro i
    rw [horder.mem_iff, List.mem_range'_1]
    omega
  have hnodup : order.Nodup := horder.nodup_iff.2 List.nodup_range'
  have hrounds : ∀ i ∈ order, i ∈ {i | inBeg + BLOCK_SZ ≤ i ∧ i < inBeg + BLOCK_SZ * n} :=
    fun i => (hmem i).1
  refine ⟨⟨arrIn.size, runRounds (uniformRound inBeg (inBeg + BLOCK_SZ * n)) order arrIn.cells⟩,
    ?_, ⟨rfl, ?_, ?_⟩⟩
  · rw [uniformAdd, runGuarded_of_forall]
    · rfl
    · intro i hi
      obtain ⟨hle, hlt⟩ := (hmem i).1 hi
      have hblock : (i - inBeg) / BLOCK_SZ < n := Nat.div_lt_of_lt_mul (by omega)
      exact ⟨by omega, by omega⟩
  · intro blockId hblock threadId hthread hpos
    have hlt := block_lt hblock hthread
    have hle : BLOCK_SZ ≤ BLOCK_SZ * blockId := Nat.le_mul_of_pos_right _ hpos
    have hi := (hmem (inBeg + BLOCK_SZ * blockId + threadId)).2 ⟨by omega, by omega⟩
    refine (hind.runRounds_of_mem hnodup hrounds hi rfl).trans ?_
    have hdiv : (inBeg + BLOCK_SZ * blockId + threadId - inBeg) / BLOCK_SZ = blockId := by
      rw [Nat.add_assoc, Nat.add_sub_cancel_left, Nat.mul_add_div (by decide),
        Nat.div_eq_of_lt hthread, Nat.add_zero]
    rw [uniformRound, Function.update_self, hdiv, Nat.add_sub_assoc hpos]
  · intro i hi
    refine hind.runRounds_of_forall_not_mem hrounds ?_
    rintro j hj rfl
    have := (hmem i).1 hj
    omega

end Uniform

theorem blit_independent (src : I32Field) (offset : ℕ) :
    Independent (fun i cells => Function.update cells (i + offset) (src.cells i))
      (fun i => {i + offset}) Set.univ where
  frame _ _ cells _ hj := Function.update_of_ne hj _ cells
  apart := by
    rintro i _ j _ hne x rfl hx
    exact hne (Nat.add_right_cancel hx)
  reads := by
    rintro i _ cells cells' _ x rfl
    rw [Function.update_self, Function.update_self]

theorem blitFromFieldToField_spec {order : List ℕ} {length : ℕ}
    (horder : order.Perm (List.range length)) (dst src : I32Field) (hdst : length ≤ dst.size)
    (hsrc : length ≤ src.size) :
    ∃ dst', blitFromFieldToField order dst src 0 = some dst' ∧ dst'.size = dst.size ∧
      ∀ i < length, dst'.cells i = src.cells i := by
  have hind := blit_independent src 0
  have hmem : ∀ i, i ∈ order ↔ i < length := fun i => horder.mem_iff.trans List.mem_range
  refine ⟨⟨dst.size, runRounds (fun i cells => Function.update cells (i + 0) (src.cells i)) order
    dst.cells⟩, ?_, rfl, ?_⟩
  · rw [blitFromFieldToField, runGuarded_of_forall]
    · rfl
    · intro i hi
      have := (hmem i).1 hi
      exact ⟨by omega, by omega⟩
  · intro i hi
    refine (hind.runRounds_of_mem (horder.nodup_iff.2 List.nodup_range) (fun _ _ => Set.mem_univ _)
      ((hmem i).2 hi) rfl).trans ?_
    exact Function.update_self _ _ _

end Quadrants.Algorithms.PrefixSum
