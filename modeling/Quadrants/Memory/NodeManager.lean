import Mathlib.Algebra.Group.Nat.Defs
import Mathlib.Data.List.Basic
import Mathlib.Logic.Function.Basic
import Mathlib.Tactic.Common

/-!
`NodeManager`, which hands out the nodes of a sparse SNode, and its two garbage collectors. The
counters are unbounded. The kernels of the parallel collector are given the order in which their
threads reach the entries of a list.
-/

namespace Quadrants.Memory

open List Function

structure ListManager where
  storage : ℕ → ℕ
  numElements : ℕ

namespace ListManager

def empty : ListManager :=
  ⟨fun _ => 0, 0⟩

def get (l : ListManager) (i : ℕ) : ℕ :=
  l.storage i

def set (l : ListManager) (i value : ℕ) : ListManager :=
  { l with storage := update l.storage i value }

def resize (l : ListManager) (n : ℕ) : ListManager :=
  { l with numElements := n }

def clear (l : ListManager) : ListManager :=
  { l with numElements := 0 }

def pushBack (l : ListManager) (value : ℕ) : ListManager :=
  ⟨update l.storage l.numElements value, l.numElements + 1⟩

def entries (l : ListManager) (first : ℕ) : List ℕ :=
  (range' first (l.numElements - first)).map l.get

end ListManager

/-- Where the nodes of `data_list` are: `touch_chunk` takes disjoint chunks from the runtime. -/
structure DataChunks where
  elementSize : ℕ
  log2ChunkNumElements : ℕ
  chunks : ℕ → ℕ
  elementSize_pos : 0 < elementSize
  disjoint : ∀ i j, i < j → chunks i + 2 ^ log2ChunkNumElements * elementSize ≤ chunks j ∨
    chunks j + 2 ^ log2ChunkNumElements * elementSize ≤ chunks i

namespace DataChunks

def maxNumChunks : ℕ :=
  128 * 1024

def getElementPtr (d : DataChunks) (i : ℕ) : ℕ :=
  d.chunks (i >>> d.log2ChunkNumElements) +
    d.elementSize * (i &&& ((1 <<< d.log2ChunkNumElements) - 1))

def touched (d : DataChunks) (numElements : ℕ) : ℕ :=
  if numElements = 0 then 0 else ((numElements - 1) >>> d.log2ChunkNumElements) + 1

def ptr2index (d : DataChunks) (numElements ptr : ℕ) : Option ℕ :=
  ((range (d.touched numElements)).find? fun i =>
    d.chunks i ≤ ptr ∧ ptr < d.chunks i + 2 ^ d.log2ChunkNumElements * d.elementSize).map fun i =>
      (i <<< d.log2ChunkNumElements) + (ptr - d.chunks i) / d.elementSize

end DataChunks

structure NodeManager where
  freeListUsed : ℕ
  freeList : ListManager
  recycledList : ListManager
  /-- `data_list->num_elements` -/
  dataSize : ℕ
  recycleListSizeBackup : ℕ
  memory : ℕ → ℕ

def zeroAt (addresses : List ℕ) (memory : ℕ → ℕ) : ℕ → ℕ :=
  fun x => if x ∈ addresses then 0 else memory x

def threadMemset (ptr stop stride : ℕ) : List ℕ :=
  if ptr + 4 ≤ stop ∧ 0 < stride then
    range' ptr 4 ++ threadMemset (ptr + stride) stop stride
  else range' ptr (stop - ptr)
termination_by stop - ptr

def blockMemset (blockDim ptr elementSize : ℕ) : List ℕ :=
  let newPtr := if ptr % 4 ≠ 0 then ptr + 4 - ptr % 4 else ptr
  range' ptr (newPtr - ptr) ++
    (range blockDim).flatMap fun threadIdx =>
      threadMemset (newPtr + threadIdx * 4) (ptr + elementSize) (4 * blockDim)

namespace NodeManager

variable (d : DataChunks)

def init : NodeManager :=
  ⟨0, .empty, .empty, 0, 0, fun _ => 0⟩

def allocate (m : NodeManager) : Option (ℕ × NodeManager) :=
  let oldCursor := m.freeListUsed
  let m := { m with freeListUsed := m.freeListUsed + 1 }
  if oldCursor ≥ m.freeList.numElements then
    if m.dataSize >>> d.log2ChunkNumElements < DataChunks.maxNumChunks then
      some (m.dataSize, { m with dataSize := m.dataSize + 1 })
    else none
  else some (m.freeList.get oldCursor, m)

def recycle (m : NodeManager) (ptr : ℕ) : Option NodeManager :=
  (d.ptr2index m.dataSize ptr).map fun index =>
    { m with recycledList := m.recycledList.pushBack index }

def compact (l : ListManager) (used : ℕ) : ListManager :=
  (range' used (l.numElements - used)).foldl (fun l i => l.set (i - used) (l.get i)) l

def gcSerialBody (m : NodeManager) (i : ℕ) : NodeManager :=
  let idx := m.recycledList.get i
  let ptr := d.getElementPtr idx
  { m with
    memory := zeroAt (range' ptr d.elementSize) m.memory
    freeList := m.freeList.pushBack idx }

def gcSerial (m : NodeManager) : NodeManager :=
  let numUnused := m.freeList.numElements - m.freeListUsed
  let m := { m with
    freeList := (compact m.freeList m.freeListUsed).resize numUnused
    freeListUsed := 0 }
  let m := (range m.recycledList.numElements).foldl (gcSerialBody d) m
  { m with recycledList := m.recycledList.clear }

def itemsToCopy (m : NodeManager) : ℕ :=
  if m.freeListUsed * 2 > m.freeList.numElements then m.freeList.numElements - m.freeListUsed
  else m.freeListUsed

def gcParallelImpl0 (m : NodeManager) (order : List ℕ) : NodeManager :=
  if m.freeListUsed * 2 > m.freeList.numElements then
    { m with
      freeList := order.foldl (fun l i => l.set i (l.get (m.freeListUsed + i))) m.freeList }
  else
    { m with
      freeList := order.foldl
        (fun l i => l.set i (l.get (m.freeList.numElements - m.itemsToCopy + i))) m.freeList }

def gcParallelImpl1 (m : NodeManager) : NodeManager :=
  { m with
    freeList := m.freeList.resize (m.freeList.numElements - m.freeListUsed)
    freeListUsed := 0
    recycleListSizeBackup := m.recycledList.numElements
    recycledList := m.recycledList.clear }

def gcParallelBody (blockDim : ℕ) (m : NodeManager) (i : ℕ) : NodeManager :=
  let idx := m.recycledList.get i
  let ptr := d.getElementPtr idx
  { m with
    freeList := m.freeList.pushBack idx
    memory := zeroAt (blockMemset blockDim ptr d.elementSize) m.memory }

def gcParallelImpl2 (blockDim : ℕ) (m : NodeManager) (order : List ℕ) : NodeManager :=
  order.foldl (gcParallelBody d blockDim) m

def gcParallel (blockDim : ℕ) (m : NodeManager) (order0 order2 : List ℕ) : NodeManager :=
  (m.gcParallelImpl0 order0).gcParallelImpl1.gcParallelImpl2 d blockDim order2

def unused (m : NodeManager) : List ℕ :=
  m.freeList.entries m.freeListUsed

def recycled (m : NodeManager) : List ℕ :=
  m.recycledList.entries 0

def Cleared (m : NodeManager) (index : ℕ) : Prop :=
  ∀ k < d.elementSize, m.memory (d.getElementPtr index + k) = 0

/-- The states after any calls, with the indices of the live nodes. Only live nodes are written. -/
inductive Reaches : NodeManager → List ℕ → Prop
  | init : Reaches init []
  | allocate {m m' : NodeManager} {live : List ℕ} {index : ℕ} :
      Reaches m live → m.allocate d = some (index, m') → Reaches m' (index :: live)
  | recycle {m m' : NodeManager} {live : List ℕ} {index : ℕ} :
      Reaches m live → index ∈ live → m.recycle d (d.getElementPtr index) = some m' →
      Reaches m' (live.erase index)
  | write {m : NodeManager} {live : List ℕ} {index k value : ℕ} :
      Reaches m live → index ∈ live → k < d.elementSize →
      Reaches { m with memory := update m.memory (d.getElementPtr index + k) value } live
  | gcSerial {m : NodeManager} {live : List ℕ} :
      Reaches m live → Reaches (m.gcSerial d) live
  | gcParallel {m : NodeManager} {live order0 order2 : List ℕ} {blockDim : ℕ} :
      Reaches m live → 0 < blockDim → order0.Perm (range m.itemsToCopy) →
      order2.Perm (range m.recycledList.numElements) →
      Reaches (m.gcParallel d blockDim order0 order2) live

end NodeManager

end Quadrants.Memory
