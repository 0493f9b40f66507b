import Quadrants.Library.SegmentFold

/-!
The block reductions and scans of `simt/block.py` over the shuffles of `simt/reductions.py`. The
threads of a block run in lockstep between barriers, so a variable is a function of the thread. A
shuffle that leaves the subgroup has a value that nothing is known about.
-/

namespace Quadrants.Simt

open Library.SegmentFold

variable {α : Type}

section Subgroups

-- the logarithm of the size of a subgroup, and what a shuffle from outside of the subgroup gives
variable (log2 : ℕ) (outside : ℕ → ℕ → α)

def subgroupSize : ℕ :=
  1 <<< log2

def laneId (tid : ℕ) : ℕ :=
  tid &&& (subgroupSize log2 - 1)

def shuffleDown (value : ℕ → α) (offset tid : ℕ) : α :=
  if laneId log2 tid + offset < subgroupSize log2 then value (tid + offset) else outside offset tid

def shuffleUp (value : ℕ → α) (offset tid : ℕ) : α :=
  if offset ≤ laneId log2 tid then value (tid - offset) else outside offset tid

variable (op : α → α → α)

def reduceRounds (steps : ℕ) (value : ℕ → α) : ℕ → α :=
  (List.range steps).foldl (fun value i tid =>
    op (value tid) (shuffleDown log2 outside value (1 <<< (steps - 1 - i)) tid)) value

def reduceTiled (value : ℕ → α) : ℕ → α :=
  reduceRounds log2 outside op log2 value

def scanRounds (steps : ℕ) (value : ℕ → α) : ℕ → α :=
  (List.range steps).foldl (fun value i tid =>
    let offset := 1 <<< i
    let partner := shuffleUp log2 outside value offset tid
    if laneId log2 tid ≥ offset then op partner (value tid) else value tid) value

def inclusiveScanTiled (value : ℕ → α) : ℕ → α :=
  scanRounds log2 outside op log2 value

def exclusiveScanTiled (identity : α) (value : ℕ → α) : ℕ → α :=
  inclusiveScanTiled log2 outside op fun tid =>
    if laneId log2 tid = 0 then identity else shuffleUp log2 outside value 1 tid

end Subgroups

section Blocks

variable (log2 : ℕ) (outside : ℕ → ℕ → α) (op : α → α → α) (numSubgroups : ℕ)

def foldShared (shared : ℕ → α) : α :=
  (List.range' 1 (numSubgroups - 1)).foldl (fun result w => op result (shared w)) (shared 0)

def reduce (value : ℕ → α) : ℕ → α :=
  let subgroupAgg := reduceTiled log2 outside op value
  if numSubgroups = 1 then subgroupAgg
  else
    -- written by lane 0 of each subgroup
    let shared := fun subgroupId => subgroupAgg (subgroupId * subgroupSize log2)
    fun tid => if tid = 0 then foldShared op numSubgroups shared else subgroupAgg tid

def reduceAll (value : ℕ → α) : ℕ → α :=
  let result := reduce log2 outside op numSubgroups value
  let bcast := result 0
  fun _ => bcast

def prefixLoop (subgroupId : ℕ) (shared : ℕ → α) (subgroupPrefix : α) : α × α :=
  (List.range' 1 (numSubgroups - 1)).foldl (fun state w =>
    (op state.1 (shared w), if subgroupId = w then state.1 else state.2))
    (shared 0, subgroupPrefix)

def inclusiveScan (value : ℕ → α) : ℕ → α :=
  let inclusive := inclusiveScanTiled log2 outside op value
  if numSubgroups = 1 then inclusive
  else
    -- written by the last lane of each subgroup
    let shared := fun subgroupId =>
      inclusive (subgroupId * subgroupSize log2 + (subgroupSize log2 - 1))
    fun tid =>
      let subgroupId := tid / subgroupSize log2
      let subgroupPrefix := (prefixLoop op numSubgroups subgroupId shared (shared 0)).2
      if subgroupId ≠ 0 then op subgroupPrefix (inclusive tid) else inclusive tid

def exclusiveScan (identity : α) (value : ℕ → α) : ℕ → α :=
  let exclusive := exclusiveScanTiled log2 outside op identity value
  if numSubgroups = 1 then exclusive
  else
    let shared := fun subgroupId =>
      let last := subgroupId * subgroupSize log2 + (subgroupSize log2 - 1)
      op (exclusive last) (value last)
    fun tid =>
      let subgroupId := tid / subgroupSize log2
      let subgroupPrefix := (prefixLoop op numSubgroups subgroupId shared identity).2
      if subgroupId ≠ 0 then op subgroupPrefix (exclusive tid) else exclusive tid

end Blocks

structure FoldsInOrder (log2 : ℕ) (outside : ℕ → ℕ → α) (o : BinOp α) (numSubgroups : ℕ)
    (value : ℕ → α) : Prop where
  reduce : reduce log2 outside o.op numSubgroups value 0 =
    o.fold value 0 (numSubgroups * subgroupSize log2)
  reduceAll : ∀ tid < numSubgroups * subgroupSize log2,
    reduceAll log2 outside o.op numSubgroups value tid =
      Simt.reduce log2 outside o.op numSubgroups value 0
  inclusive : ∀ tid < numSubgroups * subgroupSize log2,
    inclusiveScan log2 outside o.op numSubgroups value tid = o.fold value 0 (tid + 1)
  exclusive : ∀ tid < numSubgroups * subgroupSize log2,
    exclusiveScan log2 outside o.op numSubgroups o.ident value tid = o.fold value 0 tid

end Quadrants.Simt
