import Mathlib.Data.Set.Basic
import Quadrants.Library.StridedLoop
import Quadrants.Memory.NodesDistinct

/-!
The kernels of the parallel collector with all their threads, against the serial collector. A signed
result that does not fit an `i32` is undefined. A block clears the word that its node begins in up
to the end of the word, also where the node ends before.
-/

namespace Quadrants.Memory.NodeManager

open Library.StridedLoop List

structure LaunchDims where
  gridDim : ℕ
  blockDim : ℕ
  gridDim_pos : 0 < gridDim
  blockDim_pos : 0 < blockDim

structure Schedule where
  order0 : List ℕ → List ℕ
  order2 : List ℕ → List ℕ
  perm0 : ∀ rounds, (order0 rounds).Perm rounds
  perm2 : ∀ rounds, (order2 rounds).Perm rounds

section Kernels

def intLimit : ℕ := 2 ^ 31

variable (d : DataChunks) (dims : LaunchDims) (s : Schedule)

def gcParallelRounds0 (m : NodeManager) : Option (List ℕ) :=
  if m.freeListUsed * 2 < intLimit then
    launch intLimit (dims.gridDim * dims.blockDim) m.itemsToCopy
  else none

def gcParallelRounds2 (m : NodeManager) : Option (List ℕ) :=
  launch intLimit dims.gridDim m.recycleListSizeBackup

def gcParallelThreads (m : NodeManager) : Option NodeManager := do
  let rounds0 ← m.gcParallelRounds0 dims
  let m := (m.gcParallelImpl0 (s.order0 rounds0)).gcParallelImpl1
  let rounds2 ← m.gcParallelRounds2 dims
  return m.gcParallelImpl2 d dims.blockDim (s.order2 rounds2)

end Kernels

section Specification

variable (d : DataChunks)

def recycledBytes (m : NodeManager) : Set ℕ :=
  {x | ∃ index ∈ m.recycled,
    d.getElementPtr index ≤ x ∧ x < d.getElementPtr index + d.elementSize}

structure CollectedAsSerial (m m' : NodeManager) : Prop where
  freeList : (m'.freeList.entries 0).Perm ((m.gcSerial d).freeList.entries 0)
  freeListUsed : m'.freeListUsed = (m.gcSerial d).freeListUsed
  recycled : m'.recycled = []
  cleared : ∀ x ∈ m.recycledBytes d, m'.memory x = 0
  frame : ∀ x ∉ m.recycledBytes d, m'.memory x = m.memory x

def CollectsAsSerial (dims : LaunchDims) (m : NodeManager) : Prop :=
  ∀ (s : Schedule) (memory : ℕ → ℕ), ∃ m',
    NodeManager.gcParallelThreads d dims s { m with memory } = some m' ∧
      CollectedAsSerial d { m with memory } m'

def wordEnd (ptr : ℕ) : ℕ := (ptr + 3) / 4 * 4

/-- No counter overflows, and the word that a recycled node begins in has bytes of recycled nodes
only from there on. -/
structure Collectable (dims : LaunchDims) (m : NodeManager) : Prop where
  used : m.freeListUsed * 2 < intLimit
  threads : m.itemsToCopy + dims.gridDim * dims.blockDim ≤ intLimit
  blocks : m.recycledList.numElements + dims.gridDim ≤ intLimit
  heads : ∀ index ∈ m.recycled, ∀ x, d.getElementPtr index ≤ x →
    x < wordEnd (d.getElementPtr index) → x ∈ m.recycledBytes d

end Specification

theorem bounds_of_mem_threadMemset {stop stride x : ℕ} (ptr : ℕ)
    (h : x ∈ threadMemset ptr stop stride) : ptr ≤ x ∧ x < stop := by
  fun_induction threadMemset ptr stop stride with
  | case1 ptr hword ih =>
    rcases mem_append.1 h with h | h
    · rw [List.mem_range'_1] at h
      omega
    · have := ih h
      omega
  | case2 ptr hword =>
    rw [List.mem_range'_1] at h
    omega

theorem mem_blockMemset_iff {blockDim ptr elementSize x : ℕ} (hdim : 0 < blockDim) :
    x ∈ blockMemset blockDim ptr elementSize ↔
      ptr ≤ x ∧ (x < ptr + elementSize ∨ x < wordEnd ptr) := by
  have hnew : (if ptr % 4 ≠ 0 then ptr + 4 - ptr % 4 else ptr) = wordEnd ptr := by
    rw [wordEnd]
    split <;> omega
  constructor
  · intro h
    rw [blockMemset, hnew, mem_append, List.mem_range'_1, mem_flatMap] at h
    rcases h with h | ⟨threadIdx, -, h⟩
    · omega
    · have := bounds_of_mem_threadMemset _ h
      rw [wordEnd] at this
      omega
  · rintro ⟨hle, hlt⟩
    rcases Nat.lt_or_ge x (ptr + elementSize) with hin | hout
    · obtain ⟨k, rfl⟩ := Nat.exists_eq_add_of_le hle
      exact mem_blockMemset hdim (by omega)
    · rw [blockMemset, mem_append, List.mem_range'_1]
      exact Or.inl (by omega)

variable {d : DataChunks} {dims : LaunchDims} {m : NodeManager}

section Runs

theorem entries_gcSerial : (m.gcSerial d).freeList.entries 0 = m.unused ++ m.recycled := by
  have hrefilled := (gcSerialBody_refills.foldl (d := d)) (List.range m.recycledList.numElements)
    { m with
      freeList := (compact m.freeList m.freeListUsed).resize
        (m.freeList.numElements - m.freeListUsed)
      freeListUsed := 0 }
  refine hrefilled.entries.trans ?_
  rw [recycled_eq, entries_compact]
  rfl

theorem freeListUsed_gcSerial : (m.gcSerial d).freeListUsed = 0 :=
  ((gcSerialBody_refills.foldl (d := d)) _ _).freeListUsed

theorem dataSize_gcSerial : (m.gcSerial d).dataSize = m.dataSize :=
  ((gcSerialBody_refills.foldl (d := d)) _ _).dataSize

theorem gcParallelImpl0_frame (order : List ℕ) :
    (m.gcParallelImpl0 order).recycledList = m.recycledList ∧
      (m.gcParallelImpl0 order).memory = m.memory ∧
      (m.gcParallelImpl0 order).dataSize = m.dataSize := by
  unfold gcParallelImpl0
  split
  · exact ⟨rfl, rfl, rfl⟩
  · exact ⟨rfl, rfl, rfl⟩

theorem zeroAt_append (first second : List ℕ) (memory : ℕ → ℕ) :
    zeroAt (first ++ second) memory = zeroAt second (zeroAt first memory) := by
  funext x
  simp only [zeroAt, mem_append]
  split_ifs <;> simp_all

theorem memory_foldl (f : NodeManager → ℕ → NodeManager) (bytes : ℕ → List ℕ)
    (hmemory : ∀ m i, (f m i).memory = zeroAt (bytes (m.recycledList.get i)) m.memory)
    (hrecycled : ∀ m i, (f m i).recycledList = m.recycledList) (order : List ℕ) (m : NodeManager) :
    (order.foldl f m).memory =
      zeroAt (order.flatMap fun i => bytes (m.recycledList.get i)) m.memory := by
  induction order generalizing m with
  | nil => exact funext fun x => (if_neg not_mem_nil).symm
  | cons i order ih =>
    rw [foldl_cons, ih, hmemory, hrecycled, flatMap_cons, zeroAt_append]

theorem memory_gcParallelImpl2 (blockDim : ℕ) (order : List ℕ) (m : NodeManager) :
    (m.gcParallelImpl2 d blockDim order).memory = zeroAt (order.flatMap fun i =>
      blockMemset blockDim (d.getElementPtr (m.recycledList.get i)) d.elementSize) m.memory :=
  memory_foldl (gcParallelBody d blockDim)
    (fun idx => blockMemset blockDim (d.getElementPtr idx) d.elementSize) (fun _ _ => rfl)
    (fun _ _ => rfl) order m

theorem memory_gcSerial : (m.gcSerial d).memory =
    zeroAt (m.recycled.flatMap fun idx => List.range' (d.getElementPtr idx) d.elementSize)
      m.memory := by
  rw [recycled_eq, flatMap_map]
  exact memory_foldl (gcSerialBody d) (fun idx => List.range' (d.getElementPtr idx) d.elementSize)
    (fun _ _ => rfl) (fun _ _ => rfl) _ _

theorem gcSerial_frame {x : ℕ} (hx : x ∉ m.recycledBytes d) :
    (m.gcSerial d).memory x = m.memory x := by
  rw [memory_gcSerial]
  refine if_neg fun hmem => hx ?_
  obtain ⟨index, hindex, hrange⟩ := mem_flatMap.1 hmem
  exact ⟨index, hindex, List.mem_range'_1.1 hrange⟩

theorem dataSize_gcParallel {blockDim : ℕ} (hdim : 0 < blockDim) (order0 order2 : List ℕ) :
    (m.gcParallel d blockDim order0 order2).dataSize = m.dataSize :=
  ((gcParallelBody_refills hdim).foldl (d := d) order2 _).dataSize.trans
    (m.gcParallelImpl0_frame order0).2.2

variable (d dims m)

def clearedBytes : Set ℕ :=
  {x | ∃ index ∈ m.recycled, d.getElementPtr index ≤ x ∧
    (x < d.getElementPtr index + d.elementSize ∨ x < wordEnd (d.getElementPtr index))}

variable {d dims m}

theorem gcParallel_spec {blockDim : ℕ} (hdim : 0 < blockDim) {order0 order2 : List ℕ}
    (horder0 : order0.Perm (List.range m.itemsToCopy))
    (horder2 : order2.Perm (List.range m.recycledList.numElements)) :
    ((m.gcParallel d blockDim order0 order2).freeList.entries 0).Perm
        ((m.gcSerial d).freeList.entries 0) ∧
      (m.gcParallel d blockDim order0 order2).freeListUsed = 0 ∧
      (m.gcParallel d blockDim order0 order2).recycled = [] ∧
      (∀ x ∈ m.clearedBytes d, (m.gcParallel d blockDim order0 order2).memory x = 0) ∧
      ∀ x ∉ m.clearedBytes d, (m.gcParallel d blockDim order0 order2).memory x = m.memory x := by
  have hrefilled := (gcParallelBody_refills hdim).foldl (d := d) order2
    (m.gcParallelImpl0 order0).gcParallelImpl1
  obtain ⟨hrecycled, hmemory, -⟩ := m.gcParallelImpl0_frame order0
  have hget : (m.gcParallelImpl0 order0).gcParallelImpl1.recycledList.get = m.recycledList.get := by
    rw [gcParallelImpl1, hrecycled]
    rfl
  have hbytes := congrFun (memory_gcParallelImpl2 (d := d) blockDim order2
    (m.gcParallelImpl0 order0).gcParallelImpl1)
  have hcleared : ∀ x, x ∈ m.clearedBytes d ↔ x ∈ order2.flatMap fun i => blockMemset blockDim
      (d.getElementPtr ((m.gcParallelImpl0 order0).gcParallelImpl1.recycledList.get i))
      d.elementSize := by
    simp [clearedBytes, recycled_eq, hget, mem_blockMemset_iff hdim, horder2.mem_iff]
  refine ⟨?_, hrefilled.freeListUsed, ?_, fun x hx => ?_, fun x hx => ?_⟩
  · rw [entries_gcSerial, recycled_eq]
    refine (List.Perm.of_eq hrefilled.entries).trans ?_
    rw [hget]
    exact (entries_gcParallelImpl horder0).append (horder2.map _)
  · exact (congrArg (·.entries 0) hrefilled.recycledList).trans (ListManager.entries_eq_nil
      (Nat.le_refl 0))
  · exact (hbytes x).trans (if_pos ((hcleared x).1 hx))
  · refine (hbytes x).trans ((if_neg fun h => hx ((hcleared x).2 h)).trans ?_)
    exact congrFun hmemory x

end Runs

theorem recycledBytes_subset {x : ℕ} (h : x ∈ m.recycledBytes d) : x ∈ m.clearedBytes d := by
  obtain ⟨index, hindex, hle, hlt⟩ := h
  exact ⟨index, hindex, hle, Or.inl hlt⟩

theorem gcParallelThreads_of_counters (hused : m.freeListUsed * 2 < intLimit)
    (hthreads : m.itemsToCopy + dims.gridDim * dims.blockDim ≤ intLimit)
    (hblocks : m.recycledList.numElements + dims.gridDim ≤ intLimit) (s : Schedule) :
    ∃ order0 order2, order0.Perm (List.range m.itemsToCopy) ∧
      order2.Perm (List.range m.recycledList.numElements) ∧
      m.gcParallelThreads d dims s = some (m.gcParallel d dims.blockDim order0 order2) := by
  obtain ⟨rounds0, hrounds0, hperm0⟩ :=
    exists_launch (Nat.mul_pos dims.gridDim_pos dims.blockDim_pos) hthreads
  obtain ⟨rounds2, hrounds2, hperm2⟩ := exists_launch dims.gridDim_pos hblocks
  refine ⟨_, _, (s.perm0 rounds0).trans hperm0, (s.perm2 rounds2).trans hperm2, ?_⟩
  have hbackup : (m.gcParallelImpl0 (s.order0 rounds0)).gcParallelImpl1.gcParallelRounds2 dims =
      some rounds2 := by
    rw [gcParallelImpl1, (gcParallelImpl0_frame _).1]
    exact hrounds2
  simp only [gcParallelThreads, gcParallelRounds0, if_pos hused, hrounds0, hbackup,
    Option.bind_eq_bind, Option.bind_some]
  rfl

theorem collectedAsSerial {s : Schedule} (h : Collectable d dims m) :
    ∃ m', m.gcParallelThreads d dims s = some m' ∧ CollectedAsSerial d m m' := by
  obtain ⟨order0, order2, horder0, horder2, hrun⟩ :=
    gcParallelThreads_of_counters (d := d) h.used h.threads h.blocks s
  obtain ⟨hlist, hused, hempty, hcleared, hframe⟩ :=
    gcParallel_spec (d := d) dims.blockDim_pos horder0 horder2
  refine ⟨_, hrun, hlist, hused.trans freeListUsed_gcSerial.symm, hempty,
    fun x hx => hcleared x (recycledBytes_subset hx), fun x hx => hframe x ?_⟩
  rintro ⟨index, hindex, hle, hlt | hhead⟩
  · exact hx ⟨index, hindex, hle, hlt⟩
  · exact hx (h.heads index hindex x hle hhead)

theorem counters_of_gcParallelThreads {s : Schedule} {m' : NodeManager}
    (h : m.gcParallelThreads d dims s = some m') : m.freeListUsed * 2 < intLimit ∧
      m.itemsToCopy + dims.gridDim * dims.blockDim ≤ intLimit ∧
      m.recycledList.numElements + dims.gridDim ≤ intLimit := by
  obtain ⟨rounds0, hrounds0, h⟩ := Option.bind_eq_some_iff.1 h
  obtain ⟨rounds2, hrounds2, -⟩ := Option.bind_eq_some_iff.1 h
  rw [gcParallelRounds0] at hrounds0
  split at hrounds0
  · next hused =>
      refine ⟨hused, ?_, ?_⟩
      · exact add_le_of_launch (Nat.mul_pos dims.gridDim_pos dims.blockDim_pos) hrounds0
      · rw [gcParallelImpl1, (gcParallelImpl0_frame _).1] at hrounds2
        exact add_le_of_launch dims.gridDim_pos hrounds2
  · cases hrounds0

theorem collectable_of_collectsAsSerial (h : CollectsAsSerial d dims m) : Collectable d dims m := by
  -- bytes that are not zero show every write
  obtain ⟨m', hrun, hsame⟩ := h ⟨id, id, .refl, .refl⟩ fun _ => 1
  obtain ⟨hused, hthreads, hblocks⟩ := counters_of_gcParallelThreads hrun
  refine ⟨hused, hthreads, hblocks, fun index hindex x hle hhead => ?_⟩
  obtain ⟨order0, order2, horder0, horder2, hrun'⟩ := gcParallelThreads_of_counters
    (m := { m with memory := fun _ => 1 }) (d := d) hused hthreads hblocks ⟨id, id, .refl, .refl⟩
  obtain rfl := Option.some.inj (hrun.symm.trans hrun')
  obtain ⟨-, -, -, hcleared, -⟩ := gcParallel_spec (d := d) dims.blockDim_pos horder0 horder2
  by_contra hout
  have hzero := hcleared x ⟨index, hindex, hle, Or.inr hhead⟩
  rw [hsame.frame x hout] at hzero
  exact absurd hzero Nat.one_ne_zero

theorem collectsAsSerial_iff : CollectsAsSerial d dims m ↔ Collectable d dims m := by
  constructor
  · exact collectable_of_collectsAsSerial
  · exact fun h s memory => collectedAsSerial ⟨h.used, h.threads, h.blocks, h.heads⟩

def byteChunks : DataChunks where
  elementSize := 1
  log2ChunkNumElements := 2
  chunks i := 4096 * i
  elementSize_pos := Nat.one_pos
  disjoint _ _ hij := Or.inl (by omega)

def secondRecycled : NodeManager :=
  ⟨3, .empty, ListManager.empty.pushBack 1, 3, 0, fun _ => 0⟩

/-- The byte of the third node is cleared as well. -/
theorem not_collectsAsSerial_secondRecycled :
    ¬CollectsAsSerial byteChunks ⟨1, 32, by decide, by decide⟩ secondRecycled := by
  intro h
  obtain ⟨index, hindex, hle, hlt⟩ :=
    (collectable_of_collectsAsSerial h).heads 1 (by decide) 2 (by decide) (by decide)
  have hone : index = 1 := by
    exact mem_singleton.1 hindex
  subst hone
  exact absurd hlt (by decide)

end Quadrants.Memory.NodeManager
