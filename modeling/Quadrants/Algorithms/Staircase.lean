import Quadrants.Library.Grid
import Quadrants.Library.SegmentFold
import Mathlib.Algebra.Group.Nat.Defs

namespace Quadrants.Algorithms

open Quadrants.Library.Grid BitVec Int
open Quadrants.Library.SegmentFold

def i32 (x : ℤ) : ℤ := x.bmod (2 ^ 32)

def BLOCK_DIM : ℕ := 256

def MAX_SCRATCH_LEVELS : ℕ := 8

def MAX_LOG256_MAX_N : ℕ := 4

inductive EmitError where
  | valueError (message : String)
  | recursionError
  deriving DecidableEq, Repr

def validateLog256MaxN (log256MaxN : ℕ) : Except EmitError Unit :=
  if log256MaxN > MAX_LOG256_MAX_N then
    .error (.valueError (s!"log256_max_n={log256MaxN} exceeds the maximum of {MAX_LOG256_MAX_N}. " ++
      "Quadrants tensors are indexed by signed 32-bit integers, so they hold at most 2**31 - 1 " ++
      s!"elements; BLOCK_DIM ** {MAX_LOG256_MAX_N} == 256 ** {MAX_LOG256_MAX_N} == 2**32 already " ++
      "covers that range, so a larger depth can never address a valid tensor."))
  else .ok ()

def blockCount (n : ℤ) : ℤ := i32 (n + (BLOCK_DIM - 1)) / BLOCK_DIM

def hostBlockCount (n : ℕ) : ℕ := (n + (BLOCK_DIM - 1)) / BLOCK_DIM

section blockOps

variable {α : Type} (o : BinOp α)

def blockReduce (v : Fin BLOCK_DIM → α) : α := o.fold (o.ofLanes v) 0 BLOCK_DIM

def blockExclusiveScan (v : Fin BLOCK_DIM → α) (tid : Fin BLOCK_DIM) : α :=
  o.fold (o.ofLanes v) 0 tid

end blockOps

section phases

variable {β : Type} {τ : β → Type} {α : Type} (o : BinOp α)

def loadLane (src : View τ α) (srcOff n : ℤ) (blockId : ℕ) (tid : Fin BLOCK_DIM) : Fetch τ α :=
  let i : ℤ := blockId * BLOCK_DIM + tid
  if i < n then src.load (i32 (srcOff + i)) else pure o.ident

def storeLanes (dst : View τ α) (dstOff n : ℤ) (blockId : ℕ) (x : Fin BLOCK_DIM → α) :
    List (Write τ) :=
  (List.finRange BLOCK_DIM).filterMap fun (tid : Fin BLOCK_DIM) =>
    let i : ℤ := blockId * BLOCK_DIM + tid
    if i < n then some (dst.store (i32 (dstOff + i)) (x tid)) else none

def reducePhase (src dst : View τ α) (srcOff dstOff n totalThreads : ℤ) : Launch τ where
  units := totalThreads.toNat / BLOCK_DIM
  body blockId := do
    let v ← Fetch.lanes BLOCK_DIM (loadLane o src srcOff n blockId)
    pure [dst.store (i32 (dstOff + blockId)) (blockReduce o v)]

def scanTilePhase (src dst : View τ α) (srcOff dstOff n : ℤ) : Launch τ where
  units := 1
  body blockId := do
    let v ← Fetch.lanes BLOCK_DIM (loadLane o src srcOff n blockId)
    pure (storeLanes dst dstOff n blockId (blockExclusiveScan o v))

def scanDownsweepPhase (src prefixes dst : View τ α) (srcOff prefixesOff dstOff n totalThreads : ℤ) :
    Launch τ where
  units := totalThreads.toNat / BLOCK_DIM
  body blockId := do
    let v ← Fetch.lanes BLOCK_DIM (loadLane o src srcOff n blockId)
    -- every lane loads the prefix of its block
    let blockPrefix ← Fetch.lanes BLOCK_DIM fun _ => prefixes.load (i32 (prefixesOff + blockId))
    pure (storeLanes dst dstOff n blockId fun tid =>
      o.op (blockPrefix tid) (blockExclusiveScan o v tid))

def emitReduceRec (src scratch out : View τ α) (srcOff cursor n : ℤ) : ℕ → List (Launch τ)
  | 0 => [reducePhase o src out srcOff 0 n BLOCK_DIM]
  | phases + 1 =>
    let B := blockCount n
    reducePhase o src scratch srcOff cursor n (i32 (B * BLOCK_DIM)) ::
      emitReduceRec scratch scratch out cursor (i32 (cursor + B)) B phases

def emitReduce (arr out scratch : View τ α) (n : ℤ) (log256MaxN : ℕ) :
    Except EmitError (List (Launch τ)) := do
  validateLog256MaxN log256MaxN
  match log256MaxN with
  | 0 => .error .recursionError
  | phases + 1 => pure (emitReduceRec o arr scratch out 0 0 n phases)

def emitScanInplace (buf : View τ α) (off n : ℤ) : ℕ → List (Launch τ)
  | 0 => [scanTilePhase o buf buf off off n]
  | levels + 1 =>
    let B := blockCount n
    let partOff := i32 (off + n)
    reducePhase o buf buf off partOff n (i32 (B * BLOCK_DIM)) ::
      (emitScanInplace buf partOff B levels ++
        [scanDownsweepPhase o buf buf buf off partOff off n (i32 (B * BLOCK_DIM))])

def emitScan (arr out scratch : View τ α) (n : ℤ) (log256MaxN : ℕ) :
    Except EmitError (List (Launch τ)) := do
  validateLog256MaxN log256MaxN
  match log256MaxN with
  | 0 => .error .recursionError
  | 1 => pure [scanTilePhase o arr out 0 0 n]
  | levels + 2 =>
    let b0 := blockCount n
    pure (reducePhase o arr scratch 0 0 n (i32 (b0 * BLOCK_DIM)) ::
      (emitScanInplace o scratch 0 b0 levels ++
        [scanDownsweepPhase o arr scratch out 0 0 0 n (i32 (b0 * BLOCK_DIM))]))

end phases

section buffers

inductive Tensor where
  | arr
  | out
  | scratch
  deriving DecidableEq, Repr

def Tensor.Cell (α W : Type) : Tensor → Type
  | .arr => α
  | .out => α
  | .scratch => W

variable {α W : Type}

def arrView : View (Tensor.Cell α W) α := ⟨.arr, id, id, fun _ => rfl⟩

def outView : View (Tensor.Cell α W) α := ⟨.out, id, id, fun _ => rfl⟩

def scratchView (bits : α ≃ W) : View (Tensor.Cell α W) α :=
  ⟨.scratch, bits.symm, bits, bits.symm_apply_apply⟩

def reduce (o : BinOp α) (bits : α ≃ W) (n : ℤ) (log256MaxN : ℕ) :
    Except EmitError (List (Launch (Tensor.Cell α W))) :=
  emitReduce o arrView outView (scratchView bits) n log256MaxN

def exclusiveScan (o : BinOp α) (bits : α ≃ W) (n : ℤ) (log256MaxN : ℕ) :
    Except EmitError (List (Launch (Tensor.Cell α W))) :=
  emitScan o arrView outView (scratchView bits) n log256MaxN

end buffers

inductive Op where
  | add
  | min
  | max
  deriving DecidableEq, Repr

inductive Dtype where
  | i32
  | u32
  | i64
  | u64
  deriving DecidableEq, Repr

def Dtype.width : Dtype → ℕ
  | .i32 => 32
  | .u32 => 32
  | .i64 => 64
  | .u64 => 64

abbrev Dtype.Bits (dtype : Dtype) := BitVec dtype.width

def Dtype.value : (dtype : Dtype) → dtype.Bits → ℤ
  | .i32, x => x.toInt
  | .u32, x => x.toNat
  | .i64, x => x.toInt
  | .u64, x => x.toNat

def Dtype.typedMinIdentity : (dtype : Dtype) → dtype.Bits
  | .i32 => 0x7FFFFFFF#32
  | .u32 => 0xFFFFFFFF#32
  | .i64 => 0x7FFFFFFFFFFFFFFF#64
  | .u64 => 0xFFFFFFFFFFFFFFFF#64

def Dtype.typedMaxIdentity : (dtype : Dtype) → dtype.Bits
  | .i32 => 0x80000000#32
  | .u32 => 0#32
  | .i64 => 0x8000000000000000#64
  | .u64 => 0#64

theorem Dtype.value_injective (dtype : Dtype) : Function.Injective dtype.value := by
  intro x y h
  cases dtype with
  | i32 => exact eq_of_toInt_eq h
  | u32 => exact eq_of_toNat_eq (ofNat_inj.mp h)
  | i64 => exact eq_of_toInt_eq h
  | u64 => exact eq_of_toNat_eq (ofNat_inj.mp h)

theorem Dtype.value_le_typedMinIdentity (dtype : Dtype) (x : dtype.Bits) :
    dtype.value x ≤ dtype.value dtype.typedMinIdentity := by
  cases dtype with
  | i32 =>
    have h := toInt_lt (x := x)
    exact le_sub_one_of_lt h
  | u32 =>
    have h : x.toNat < 2 ^ 32 := x.isLt
    change (x.toNat : ℤ) ≤ 2 ^ 32 - 1
    omega
  | i64 =>
    have h := toInt_lt (x := x)
    exact le_sub_one_of_lt h
  | u64 =>
    have h : x.toNat < 2 ^ 64 := x.isLt
    change (x.toNat : ℤ) ≤ 2 ^ 64 - 1
    omega

theorem Dtype.typedMaxIdentity_le_value (dtype : Dtype) (x : dtype.Bits) :
    dtype.value dtype.typedMaxIdentity ≤ dtype.value x := by
  cases dtype with
  | i32 => exact le_toInt x
  | u32 => exact natCast_nonneg _
  | i64 => exact le_toInt x
  | u64 => exact natCast_nonneg _

def opBins (dtype : Dtype) : Op → BinOp dtype.Bits
  | .add => ⟨(· + ·), 0, BitVec.add_assoc, BitVec.zero_add, BitVec.add_zero⟩
  | .min => BinOp.least dtype.value dtype.typedMinIdentity dtype.value_injective
      dtype.value_le_typedMinIdentity
  | .max => BinOp.least (fun x => -dtype.value x) dtype.typedMaxIdentity
      (fun _ _ h => dtype.value_injective (neg_injective h))
      (fun x => Int.neg_le_neg (dtype.typedMaxIdentity_le_value x))

end Quadrants.Algorithms
