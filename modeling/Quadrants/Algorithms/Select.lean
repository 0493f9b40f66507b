import Quadrants.Algorithms.Staircase

namespace Quadrants.Algorithms

open Quadrants.Library.Grid
open Quadrants.Library.SegmentFold

def levelPartialsLoop : ℕ → ℕ → ℕ → ℕ
  | 0, _, cursor => cursor
  | levels + 1, t, cursor =>
    let t' := hostBlockCount t
    levelPartialsLoop levels t' (cursor + t' * (if t' > 1 then 1 else 0))

def levelPartialsSlots (n startCursor : ℕ) : ℕ := levelPartialsLoop MAX_SCRATCH_LEVELS n startCursor

def scanTotalScratchSlots (n partialsCursor : ℕ) : ℕ := levelPartialsSlots n partialsCursor

def reduceDepthLoop (n cap depth : ℕ) (hcap : 0 < cap) : ℕ :=
  if cap < n then reduceDepthLoop n (cap * BLOCK_DIM) (depth + 1) (Nat.mul_pos hcap (by decide))
  else depth
termination_by n - cap
decreasing_by
  simp only [BLOCK_DIM]
  omega

def reduceDepthForN (n : ℕ) : ℕ := reduceDepthLoop n BLOCK_DIM 1 (by decide)

def atLeastOne (slots : ℕ) : ℕ := slots + (if slots < 1 then 1 else 0)

def sumLevels : ℕ → ℕ → ℕ → ℕ
  | 0, _, cursor => cursor
  | levels + 1, cur, cursor =>
    let cur' := hostBlockCount cur
    sumLevels levels cur' (cursor + cur')

def reduceScratchSlots (n log256MaxN : ℕ) : Except EmitError ℕ := do
  validateLog256MaxN log256MaxN
  pure (atLeastOne (sumLevels (log256MaxN - 1) n 0))

def exclusiveScanScratchSlots (n log256MaxN : ℕ) : Except EmitError ℕ := do
  validateLog256MaxN log256MaxN
  if log256MaxN ≤ 1 then pure 1
  else
    let cursor := hostBlockCount n
    pure (atLeastOne (sumLevels (log256MaxN - 2) cursor cursor))

def selectScratchSlots (n : ℕ) : ℕ :=
  let pos := if n > 0 then 1 else 0
  let b0 := hostBlockCount n
  atLeastOne (scanTotalScratchSlots b0 (n + b0) * pos)

def reduceByKeyScratchSlots (n : ℕ) : ℕ :=
  let pos := if n > 0 then 1 else 0
  let big := if n > BLOCK_DIM then 1 else 0
  let smallPos := pos * (1 - big)
  let b0 := hostBlockCount n
  atLeastOne (n * smallPos + scanTotalScratchSlots b0 (n + b0) * big)

abbrev addI32 : BinOp (BitVec 32) := opBins .i32 .add

section select

inductive SelectTensor where
  | arr
  | flags
  | out
  | numOut
  | scratch
  deriving DecidableEq, Repr

def SelectTensor.Cell (E : Type) : SelectTensor → Type
  | .arr => E
  | .flags => BitVec 32
  | .out => E
  | .numOut => BitVec 32
  | .scratch => BitVec 32

variable {E : Type}

def elementView : View (SelectTensor.Cell E) E := ⟨.arr, id, id, fun _ => rfl⟩

def selectedView : View (SelectTensor.Cell E) E := ⟨.out, id, id, fun _ => rfl⟩

def flagsView : View (SelectTensor.Cell E) (BitVec 32) := ⟨.flags, id, id, fun _ => rfl⟩

def selectScratch : View (SelectTensor.Cell E) (BitVec 32) := ⟨.scratch, id, id, fun _ => rfl⟩

def numOutView : View (SelectTensor.Cell E) (BitVec 32) := ⟨.numOut, id, id, fun _ => rfl⟩

def selectScatterPhase (indicesOff nValid : ℤ) : Launch (SelectTensor.Cell E) where
  units := nValid.toNat
  body i := do
    let flag ← flagsView.load i
    if flag ≠ 0#32 then
      let dstIdx ← selectScratch.load (i32 (indicesOff + i))
      let x ← elementView.load i
      pure [selectedView.store dstIdx.toInt x]
    else pure []

def selectCountPhase (indicesOff nValid : ℤ) : Launch (SelectTensor.Cell E) where
  units := 1
  body _ := do
    let lastIdx ← selectScratch.load (i32 (i32 (indicesOff + nValid) - 1))
    let lastFlag ← flagsView.load (i32 (nValid - 1))
    let lastInc := if lastFlag ≠ 0#32 then 1#32 else 0#32
    pure [numOutView.store 0 (lastIdx + lastInc)]

def emitSelectScan (n : ℤ) (log256MaxN : ℕ) :
    Except EmitError (List (Launch (SelectTensor.Cell E))) := do
  validateLog256MaxN log256MaxN
  match log256MaxN with
  | 0 => .error .recursionError
  | 1 => pure [scanTilePhase addI32 flagsView selectScratch 0 0 n]
  | levels + 2 =>
    let b0 := blockCount n
    -- the indices take `scratch[0 : n]`, the partials start above them
    let partOff := n
    pure (reducePhase addI32 flagsView selectScratch 0 partOff n (i32 (b0 * BLOCK_DIM)) ::
      (emitScanInplace addI32 selectScratch partOff b0 levels ++
        [scanDownsweepPhase addI32 flagsView selectScratch selectScratch 0 partOff 0 n
          (i32 (b0 * BLOCK_DIM))]))

def select (n : ℤ) (log256MaxN : ℕ) : Except EmitError (List (Launch (SelectTensor.Cell E))) := do
  let scan ← emitSelectScan n log256MaxN
  pure (scan ++ [selectScatterPhase 0 n, selectCountPhase 0 n])

end select

section reduceByKey

inductive KeyTensor where
  | keysIn
  | valuesIn
  | keysOut
  | valuesOut
  | numRuns
  | scratch
  deriving DecidableEq, Repr

def KeyTensor.Cell (K V : Type) : KeyTensor → Type
  | .keysIn => K
  | .valuesIn => V
  | .keysOut => K
  | .valuesOut => V
  | .numRuns => BitVec 32
  | .scratch => BitVec 32

structure KeyOps (K V : Type) where
  ne : K → K → Bool
  add : V → V → V
  zero : V

variable {K V : Type} (ops : KeyOps K V)

def keysInView : View (KeyTensor.Cell K V) K := ⟨.keysIn, id, id, fun _ => rfl⟩

def valuesInView : View (KeyTensor.Cell K V) V := ⟨.valuesIn, id, id, fun _ => rfl⟩

def keysOutView : View (KeyTensor.Cell K V) K := ⟨.keysOut, id, id, fun _ => rfl⟩

def valuesOutView : View (KeyTensor.Cell K V) V := ⟨.valuesOut, id, id, fun _ => rfl⟩

def keyScratch : View (KeyTensor.Cell K V) (BitVec 32) := ⟨.scratch, id, id, fun _ => rfl⟩

def numRunsView : View (KeyTensor.Cell K V) (BitVec 32) := ⟨.numRuns, id, id, fun _ => rfl⟩

def headFlag (i : ℕ) : Fetch (KeyTensor.Cell K V) (BitVec 32) :=
  if i = 0 then pure 1#32
  else do
    let key ← keysInView.load i
    let previous ← keysInView.load (i32 (i - 1))
    pure (if ops.ne key previous then 1#32 else 0#32)

def rbkHeadFlagsPhase (headFlagsOff n : ℤ) : Launch (KeyTensor.Cell K V) where
  units := n.toNat
  body i := do
    let flag ← headFlag ops i
    pure [keyScratch.store (i32 (headFlagsOff + i)) flag]

def rbkZeroValuesOutPhase (n : ℤ) : Launch (KeyTensor.Cell K V) where
  units := n.toNat
  body i := pure [valuesOutView.store i ops.zero]

def rbkScatterPhase (positionsOff n : ℤ) : Launch (KeyTensor.Cell K V) where
  units := n.toNat
  body i := do
    let headI ← headFlag ops i
    let position ← keyScratch.load (i32 (positionsOff + i))
    let pos := (position + headI - 1#32).toInt
    let key ← keysInView.load i
    let value ← valuesInView.load i
    -- the atomic add: one read and one write of the sum
    let old ← valuesOutView.load pos
    pure [keysOutView.store pos key, valuesOutView.store pos (ops.add old value)]

def lastHeadFlag (n : ℤ) : Fetch (KeyTensor.Cell K V) (BitVec 32) :=
  if n = 1 then pure 1#32
  else do
    let last ← keysInView.load (i32 (n - 1))
    let previous ← keysInView.load (i32 (n - 2))
    pure (if ops.ne last previous then 1#32 else 0#32)

def rbkCountPhase (positionsOff n : ℤ) : Launch (KeyTensor.Cell K V) where
  units := 1
  body _ := do
    let posLast ← keyScratch.load (i32 (i32 (positionsOff + n) - 1))
    let headLast ← lastHeadFlag ops n
    pure [numRunsView.store 0 (posLast + headLast)]

def reduceByKeyAdd (n : ℤ) (log256MaxN : ℕ) :
    Except EmitError (List (Launch (KeyTensor.Cell K V))) := do
  validateLog256MaxN log256MaxN
  match log256MaxN with
  | 0 => .error .recursionError
  | levels + 1 =>
    pure (rbkHeadFlagsPhase ops 0 n :: (emitScanInplace addI32 keyScratch 0 n levels ++
        [rbkZeroValuesOutPhase ops n, rbkScatterPhase ops 0 n, rbkCountPhase ops 0 n]))

end reduceByKey

end Quadrants.Algorithms
