import Mathlib.Algebra.Group.Nat.Defs
import Mathlib.Data.List.Basic

/-!
`UnifiedAllocator` and the `HostMemoryPool` around it. Addresses and sizes are of type `size_t`.
What `mmap` returns is a parameter.
-/

namespace Quadrants.Memory

structure MemoryChunk where
  isExclusive : Bool
  data : ℕ
  head : ℕ
  tail : ℕ
  deriving DecidableEq, Repr

inductive PoolError where
  | divisionByZero
  | assertionFailure (text : String)
  | mapFailed (size : ℕ)
  | notAligned (ptr : ℕ)
  | alreadyAllocated (ptr : ℕ)
  | notAllocated (ptr : ℕ)
  deriving DecidableEq, Repr

structure HostMemoryPool where
  chunks : List MemoryChunk
  rawMemoryChunks : List (ℕ × ℕ)
  deriving DecidableEq, Repr

namespace HostMemoryPool

def pageSize : ℕ := 4096

def wrap (x : ℕ) : ℕ := x % 2 ^ 64

def alignedHead (head alignment : ℕ) : ℕ :=
  wrap (head + alignment - 1) - wrap (head + alignment - 1) % alignment

def allocateInChunks (size alignment : ℕ) :
    List MemoryChunk → Except PoolError (Option (ℕ × List MemoryChunk))
  | [] => .ok none
  | chunk :: rest =>
    let next := do
      let found ← allocateInChunks size alignment rest
      return found.map fun (ptr, rest) => (ptr, chunk :: rest)
    if chunk.isExclusive then next
    else if alignment = 0 then .error .divisionByZero
    else
      let ret := alignedHead chunk.head alignment
      let head := wrap (ret + size)
      if head ≤ chunk.tail then
        if ret % alignment = 0 then .ok (some (ret, { chunk with head } :: rest))
        else .error (.assertionFailure "ret % alignment == 0")
      else next

def allocateRawMemory (raw : List (ℕ × ℕ)) (mapped : Option ℕ) (size : ℕ) :
    Except PoolError (ℕ × List (ℕ × ℕ)) :=
  match mapped with
  | none => .error (.mapFailed size)
  | some ptr =>
    if ptr % pageSize ≠ 0 then .error (.notAligned ptr)
    else if raw.any fun entry => entry.1 == ptr then .error (.alreadyAllocated ptr)
    else .ok (ptr, (ptr, size) :: raw)

def allocationSize (defaultAllocatorSize size : ℕ) (exclusive : Bool) : ℕ :=
  if exclusive then size else max size defaultAllocatorSize

def searchChunks (pool : HostMemoryPool) (size alignment : ℕ) (exclusive : Bool) :
    Except PoolError (Option (ℕ × List MemoryChunk)) :=
  if !pool.chunks.isEmpty && !exclusive then allocateInChunks size alignment pool.chunks
  else .ok none

def allocateNewChunk (defaultAllocatorSize : ℕ) (pool : HostMemoryPool) (size : ℕ)
    (exclusive : Bool) (mapped : Option ℕ) : Except PoolError (ℕ × HostMemoryPool) := do
  let allocationSize := allocationSize defaultAllocatorSize size exclusive
  let (ptr, raw) ← allocateRawMemory pool.rawMemoryChunks mapped allocationSize
  if ptr = 0 then .error (.assertionFailure "chunk.data != nullptr")
  else if ptr % pageSize ≠ 0 then
    .error (.assertionFailure "uint64(chunk.data) % HostMemoryPool::page_size == 0")
  else
    let chunk : MemoryChunk := ⟨exclusive, ptr, wrap (ptr + size), wrap (ptr + allocationSize)⟩
    .ok (ptr, ⟨pool.chunks ++ [chunk], raw⟩)

def allocate (defaultAllocatorSize : ℕ) (pool : HostMemoryPool) (size alignment : ℕ)
    (exclusive : Bool) (mapped : Option ℕ) : Except PoolError (ℕ × HostMemoryPool) := do
  match ← pool.searchChunks size alignment exclusive with
  | some (ptr, chunks) => .ok (ptr, { pool with chunks })
  | none => pool.allocateNewChunk defaultAllocatorSize size exclusive mapped

def removeIdx (ptr : ℕ) : List MemoryChunk → ℕ → Option ℕ → Except PoolError (Option ℕ)
  | [], _, removed => .ok removed
  | chunk :: rest, idx, removed =>
    if chunk.data = ptr then
      if chunk.isExclusive then removeIdx ptr rest (idx + 1) (some idx)
      else .error (.assertionFailure "chunk.is_exclusive")
    else removeIdx ptr rest (idx + 1) removed

def swapErase {α : Type} (vec : List α) (idx : ℕ) : List α :=
  match vec[idx]?, vec.getLast? with
  | some erased, some back =>
    if idx = vec.length - 1 then vec.dropLast
    else ((vec.set idx back).set (vec.length - 1) erased).dropLast
  | _, _ => vec

def deallocateRawMemory (raw : List (ℕ × ℕ)) (ptr : ℕ) : Except PoolError (List (ℕ × ℕ)) :=
  if raw.any fun entry => entry.1 == ptr then .ok (raw.filter fun entry => entry.1 != ptr)
  else .error (.notAllocated ptr)

def release (pool : HostMemoryPool) (ptr : ℕ) : Except PoolError HostMemoryPool := do
  match ← removeIdx ptr pool.chunks 0 none with
  | none => .ok pool
  | some idx =>
    let raw ← deallocateRawMemory pool.rawMemoryChunks ptr
    .ok ⟨swapErase pool.chunks idx, raw⟩

end HostMemoryPool

end Quadrants.Memory
