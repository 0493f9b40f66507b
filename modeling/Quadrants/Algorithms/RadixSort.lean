import Mathlib.Data.Nat.Count
import Quadrants.Algorithms.Select

namespace Quadrants.Algorithms

open Quadrants.Library.Grid
open Quadrants.Library.SegmentFold

def RADIX_BITS : ℕ := 8

def RADIX_DIGITS : ℕ := 2 ^ RADIX_BITS

inductive KeyDtype where
  | u32
  | i32
  | f32
  | u64
  | i64
  | f64
  deriving DecidableEq, Repr

def KeyDtype.keyWidthBits : KeyDtype → ℕ
  | .u32 => 32
  | .i32 => 32
  | .f32 => 32
  | .u64 => 64
  | .i64 => 64
  | .f64 => 64

def KeyDtype.isFloat : KeyDtype → Bool
  | .f32 => true
  | .f64 => true
  | _ => false

def KeyDtype.needsTwiddle : KeyDtype → Bool
  | .u32 => false
  | .u64 => false
  | _ => true

section scan

variable {β : Type} {τ : β → Type}

abbrev addU32 : BinOp (BitVec 32) := opBins .u32 .add

def graphScanReduce (buf : View τ (BitVec 32)) (inOff outOff n totalThreads : ℤ) : Launch τ :=
  reducePhase addU32 buf buf inOff outOff n totalThreads

def graphScanBase (buf : View τ (BitVec 32)) (off nValid : ℤ) : Launch τ :=
  scanTilePhase addU32 buf buf off off nValid

def graphScanDownsweep (buf : View τ (BitVec 32)) (off partOff n totalThreads : ℤ) : Launch τ :=
  scanDownsweepPhase addU32 buf buf buf off partOff off n totalThreads

def emitExclusiveScanAdd (buf : View τ (BitVec 32)) (off n : ℤ) : ℕ → List (Launch τ)
  | 0 => [graphScanBase buf off n]
  | levels + 1 =>
    let B := blockCount n
    let partOff := i32 (off + n)
    graphScanReduce buf off partOff n (i32 (B * BLOCK_DIM)) ::
      (emitExclusiveScanAdd buf partOff B levels ++
        [graphScanDownsweep buf off partOff n (i32 (B * BLOCK_DIM))])

end scan

def laneDigit (digit : Fin BLOCK_DIM → ℕ) (t : ℕ) : ℕ :=
  if h : t < BLOCK_DIM then digit ⟨t, h⟩ else RADIX_DIGITS

def bins (digit : Fin BLOCK_DIM → ℕ) (d : ℕ) : ℕ :=
  Nat.count (fun t => laneDigit digit t = d) BLOCK_DIM

def exclPrefix (digit : Fin BLOCK_DIM → ℕ) (d : ℕ) : ℕ :=
  Nat.count (fun t => laneDigit digit t < d) BLOCK_DIM

def radixRank (digit : Fin BLOCK_DIM → ℕ) (tid : Fin BLOCK_DIM) : ℕ :=
  exclPrefix digit (digit tid) + Nat.count (fun t => laneDigit digit t = digit tid) tid

section phases

variable {β : Type} {τ : β → Type} {w : ℕ}

def signBit (w : ℕ) : BitVec w := BitVec.twoPow w (w - 1)

/-- The mask a key is combined with. The inverse picks it by the sign bit the forward twiddle has
flipped. -/
def twiddleMask (isFloat doTwiddle : Bool) (v : BitVec w) : BitVec w :=
  if isFloat then
    if doTwiddle then
      if v &&& signBit w ≠ 0 then BitVec.allOnes w else signBit w
    else
      if v &&& signBit w ≠ 0 then signBit w else BitVec.allOnes w
  else signBit w

def radixTwiddle (keys : View τ (BitVec w)) (n : ℤ) (isFloat doTwiddle : Bool) : Launch τ where
  units := n.toNat
  body i := do
    let v ← keys.load i
    pure [keys.store i (v ^^^ twiddleMask isFloat doTwiddle v)]

def radixDigit (key : BitVec w) (bitStart : ℕ) : ℕ :=
  ((key >>> bitStart) &&& BitVec.ofNat w (RADIX_DIGITS - 1)).toNat

theorem radixDigit_lt (key : BitVec w) (bitStart : ℕ) : radixDigit key bitStart < BLOCK_DIM := by
  have hand : radixDigit key bitStart ≤ (BitVec.ofNat w (RADIX_DIGITS - 1)).toNat := by
    exact Nat.and_le_right
  have hmask : (BitVec.ofNat w (RADIX_DIGITS - 1)).toNat ≤ RADIX_DIGITS - 1 := by
    exact Nat.mod_le _ _
  exact Nat.lt_of_le_of_lt (hand.trans hmask) (by decide)

def histSlot (numBlocks : ℤ) (blockId : ℕ) (tid : Fin BLOCK_DIM) : ℤ :=
  i32 (i32 (tid * numBlocks) + blockId)

def radixHist (keys : View τ (BitVec w)) (scratch : View τ (BitVec 32)) (n numBlocks : ℤ)
    (bitStart : ℕ) : Launch τ where
  units := (i32 (numBlocks * BLOCK_DIM)).toNat / BLOCK_DIM
  body blockId := do
    -- lanes past the end count in a slot of their own that is never stored
    let digit ← Fetch.lanes BLOCK_DIM fun tid =>
      let i : ℤ := blockId * BLOCK_DIM + tid
      if i < n then (radixDigit · bitStart) <$> keys.load i else pure RADIX_DIGITS
    pure ((List.finRange BLOCK_DIM).map fun tid =>
      scratch.store (histSlot numBlocks blockId tid) (BitVec.ofNat 32 (bins digit tid)))

def scatterIndex (digit : Fin BLOCK_DIM → ℕ) (globalOff : BitVec 32) (tid : Fin BLOCK_DIM) : ℤ :=
  (globalOff - BitVec.ofNat 32 (exclPrefix digit (digit tid)) +
    BitVec.ofNat 32 (radixRank digit tid)).toInt

def loadInRange {α : Type} (src : View τ α) (n : ℤ) (blockId : ℕ) (tid : Fin BLOCK_DIM) :
    Fetch τ (Option α) :=
  let i : ℤ := blockId * BLOCK_DIM + tid
  if i < n then some <$> src.load i else pure none

def loadValue {α : Type} (src : View τ α) (hasValues : Bool) (n : ℤ) (blockId : ℕ)
    (tid : Fin BLOCK_DIM) : Fetch τ (Option α) :=
  if hasValues then loadInRange src n blockId tid else pure none

def radixScatter {V : Type} (keysIn keysOut : View τ (BitVec w)) (valuesIn valuesOut : View τ V)
    (scratch : View τ (BitVec 32)) (n numBlocks : ℤ) (bitStart : ℕ) (hasValues : Bool) :
    Launch τ where
  units := (i32 (numBlocks * BLOCK_DIM)).toNat / BLOCK_DIM
  body blockId := do
    -- lanes past the end take part in the ranking with an all-ones key
    let key ← Fetch.lanes BLOCK_DIM (loadInRange keysIn n blockId)
    let digit : Fin BLOCK_DIM → ℕ := fun tid =>
      radixDigit ((key tid).getD (BitVec.allOnes w)) bitStart
    let globalOff ← Fetch.lanes BLOCK_DIM fun tid => scratch.load (histSlot numBlocks blockId tid)
    let value ← Fetch.lanes BLOCK_DIM (loadValue valuesIn hasValues n blockId)
    pure ((List.finRange BLOCK_DIM).flatMap fun tid =>
      let dst := scatterIndex digit (globalOff ⟨digit tid, radixDigit_lt _ _⟩) tid
      (key tid).toList.map (keysOut.store dst) ++ (value tid).toList.map (valuesOut.store dst))

def emitPass {V : Type} (keys tmpKeys : View τ (BitVec w)) (values tmpValues : View τ V)
    (scratch : View τ (BitVec 32)) (n numBlocks histLen : ℤ) (p : ℕ) (hasValues : Bool)
    (levels : ℕ) : List (Launch τ) :=
  let bitStart := p * RADIX_BITS
  let src := if p % 2 = 0 then keys else tmpKeys
  let dst := if p % 2 = 0 then tmpKeys else keys
  let vsrc := if p % 2 = 0 then values else tmpValues
  let vdst := if p % 2 = 0 then tmpValues else values
  radixHist src scratch n numBlocks bitStart ::
    (emitExclusiveScanAdd scratch 0 histLen levels ++
      [radixScatter src dst vsrc vdst scratch n numBlocks bitStart hasValues])

end phases

section sort

inductive SortTensor where
  | keys
  | tmpKeys
  | values
  | tmpValues
  | scratch
  deriving DecidableEq, Repr

def SortTensor.Cell (w : ℕ) (V : Type) : SortTensor → Type
  | .keys => BitVec w
  | .tmpKeys => BitVec w
  | .values => V
  | .tmpValues => V
  | .scratch => BitVec 32

variable {w : ℕ} {V : Type}

def keysView : View (SortTensor.Cell w V) (BitVec w) := ⟨.keys, id, id, fun _ => rfl⟩

def tmpKeysView : View (SortTensor.Cell w V) (BitVec w) := ⟨.tmpKeys, id, id, fun _ => rfl⟩

def valuesView : View (SortTensor.Cell w V) V := ⟨.values, id, id, fun _ => rfl⟩

def tmpValuesView : View (SortTensor.Cell w V) V := ⟨.tmpValues, id, id, fun _ => rfl⟩

def sortScratch : View (SortTensor.Cell w V) (BitVec 32) := ⟨.scratch, id, id, fun _ => rfl⟩

def emitTwiddle (keyDtype : KeyDtype) (n : ℤ) (doTwiddle : Bool) :
    List (Launch (SortTensor.Cell w V)) :=
  if keyDtype.needsTwiddle then [radixTwiddle keysView n keyDtype.isFloat doTwiddle] else []

def sort (keyDtype : KeyDtype) (hasValues : Bool) (n : ℤ) (endBit log256MaxN : ℕ) :
    Except EmitError (List (Launch (SortTensor.Cell keyDtype.keyWidthBits V))) := do
  validateLog256MaxN log256MaxN
  match log256MaxN with
  | 0 => .error .recursionError
  | levels + 1 =>
    let numPasses := endBit / RADIX_BITS
    let numBlocks := blockCount n
    let histLen := i32 (numBlocks * RADIX_DIGITS)
    pure (emitTwiddle keyDtype n true ++ (List.range numPasses).flatMap (fun p =>
        emitPass keysView tmpKeysView valuesView tmpValuesView sortScratch n numBlocks histLen p
          hasValues levels) ++
      emitTwiddle keyDtype n false)

def sortScratchSlots (n log256MaxN : ℕ) : Except EmitError ℕ := do
  validateLog256MaxN log256MaxN
  let histLen := hostBlockCount n * RADIX_DIGITS
  pure (atLeastOne (sumLevels (log256MaxN - 1) histLen histLen))

end sort

end Quadrants.Algorithms
