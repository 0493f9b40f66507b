import Quadrants.Library.LittleEndian
import Quadrants.Memory.NodeManager
import Quadrants.Memory.ParallelGc

/-!
The dynamic SNode of `node_dynamic.h`: a counter and a chain of chunks, each with the pointer to the
next in front of its elements. The chunks come from the allocator that all nodes of the SNode share.
An `int` that overflows is undefined, as is the use of a null pointer.
-/

namespace Quadrants.Memory.Dynamic

open Library.LittleEndian

def sizeofPtr : ℕ := 8

def readPtr (memory : ℕ → ℕ) (address : ℕ) : ℕ :=
  ofBytes (slice (fun x => UInt8.ofNat (memory x)) address sizeofPtr)

def writePtr (memory : ℕ → ℕ) (address ptr : ℕ) : ℕ → ℕ := fun x =>
  if address ≤ x ∧ x < address + sizeofPtr then
    ((toBytes sizeofPtr ptr).getD (x - address) 0).toNat
  else memory x

/-- `data` is where the allocator of the SNode has its chunks; `initialize_llvm_runtime_snodes` sets
the size of a chunk. -/
structure DynamicMeta where
  chunkSize : ℕ
  elementSize : ℕ
  data : DataChunks
  chunkSize_pos : 0 < chunkSize
  elementSize_pos : 0 < elementSize
  nodeSize : data.elementSize = sizeofPtr + elementSize * chunkSize
  chunks_pos : ∀ i, 0 < data.chunks i
  chunks_le : ∀ i < DataChunks.maxNumChunks,
    data.chunks i + 2 ^ data.log2ChunkNumElements * data.elementSize ≤ 256 ^ sizeofPtr

structure DynamicNode where
  n : ℕ
  ptr : ℕ

variable {ι : Type}

structure State (ι : Type) where
  alloc : NodeManager
  nodes : ι → DynamicNode

/-- `p_chunk_ptr`: the field of the node, or the front of a chunk. -/
abbrev ChunkPtr := Option ℕ

namespace State

def init : State ι := ⟨.init, fun _ => ⟨0, 0⟩⟩

def read (s : State ι) (node : ι) : ChunkPtr → ℕ
  | none => (s.nodes node).ptr
  | some address => readPtr s.alloc.memory address

variable [DecidableEq ι]

def setNode (s : State ι) (node : ι) (value : DynamicNode) : State ι :=
  { s with nodes := Function.update s.nodes node value }

def write (s : State ι) (node : ι) : ChunkPtr → ℕ → State ι
  | none, ptr => s.setNode node { s.nodes node with ptr }
  | some address, ptr =>
    { s with alloc := { s.alloc with memory := writePtr s.alloc.memory address ptr } }

end State

section Operations

variable [DecidableEq ι] (m : DynamicMeta)

def touchChunk (s : State ι) (node : ι) (pChunkPtr : ChunkPtr) : Option (State ι) :=
  if s.read node pChunkPtr = 0 then
    (s.alloc.allocate m.data).map fun (l, alloc) =>
      { s with alloc }.write node pChunkPtr (m.data.getElementPtr l)
  else some s

/-- The loop of `Dynamic_activate` and `Dynamic_allocate`: the chunk with element `i`, and the index
of its first element. -/
def walkChunks (node : ι) (i : ℕ) (s : State ι) (pChunkPtr : ChunkPtr) (chunkStart : ℕ) :
    Option (State ι × ℕ × ℕ) :=
  if chunkStart + m.chunkSize < 2 ^ 31 then
    (touchChunk m s node pChunkPtr).bind fun s =>
      if i < chunkStart + m.chunkSize then some (s, s.read node pChunkPtr, chunkStart)
      else walkChunks node i s (some (s.read node pChunkPtr)) (chunkStart + m.chunkSize)
  else none
  termination_by 2 ^ 31 - chunkStart
  decreasing_by
    have := m.chunkSize_pos
    omega

def dynamicActivate (s : State ι) (node : ι) (i : ℕ) : Option (State ι) :=
  let s := s.setNode node { s.nodes node with n := max (s.nodes node).n (i + 1) }
  (walkChunks m node i s none 0).map Prod.fst

def dynamicAllocate (s : State ι) (node : ι) : Option (State ι × ℕ × ℕ) :=
  let i := (s.nodes node).n
  let s := s.setNode node { s.nodes node with n := i + 1 }
  (walkChunks m node i s none 0).map fun (s, chunk, chunkStart) =>
    (s, i, chunk + sizeofPtr + (i - chunkStart) * m.elementSize)

def recycleChunks : ℕ → NodeManager → ℕ → Option NodeManager
  | _, alloc, 0 => some alloc
  | 0, _, _ + 1 => none
  | fuel + 1, alloc, ptr + 1 =>
    (alloc.recycle m.data (ptr + 1)).bind fun alloc =>
      recycleChunks fuel alloc (readPtr alloc.memory (ptr + 1))

def dynamicDeactivate (s : State ι) (node : ι) : Option (State ι) :=
  if 0 < (s.nodes node).n then
    (recycleChunks m s.alloc.dataSize s.alloc (s.nodes node).ptr).map fun alloc =>
      { s with alloc }.setNode node ⟨0, 0⟩
  else some s

def lookupChunks (memory : ℕ → ℕ) (i chunkPtr chunkStart : ℕ) : Option ℕ :=
  if chunkStart + m.chunkSize < 2 ^ 31 then
    if i < chunkStart + m.chunkSize then
      some (chunkPtr + sizeofPtr + (i - chunkStart) * m.elementSize)
    else if chunkPtr = 0 then none
    else lookupChunks memory i (readPtr memory chunkPtr) (chunkStart + m.chunkSize)
  else none
  termination_by 2 ^ 31 - chunkStart
  decreasing_by
    have := m.chunkSize_pos
    omega

def dynamicLookupElement (ambient : ℕ) (s : State ι) (node : ι) (i : ℕ) : Option ℕ :=
  if i < (s.nodes node).n then lookupChunks m s.alloc.memory i (s.nodes node).ptr 0
  else some ambient

end Operations

section Runs

/-- An element that `Dynamic_allocate` has returned, of a node that was not deactivated since -/
structure Allocated (ι : Type) where
  node : ι
  index : ℕ
  address : ℕ

variable [DecidableEq ι] (m : DynamicMeta) (ambient : ℕ)

inductive Reaches : State ι → List (Allocated ι) → Prop
  | init : Reaches .init []
  | activate {s s' : State ι} {log : List (Allocated ι)} {node : ι} {i : ℕ} :
      Reaches s log → dynamicActivate m s node i = some s' → Reaches s' log
  | allocate {s s' : State ι} {log : List (Allocated ι)} {node : ι} {i address : ℕ} :
      Reaches s log → dynamicAllocate m s node = some (s', i, address) →
      Reaches s' (⟨node, i, address⟩ :: log)
  | deactivate {s s' : State ι} {log : List (Allocated ι)} {node : ι} :
      Reaches s log → dynamicDeactivate m s node = some s' →
      Reaches s' (log.filter fun entry => entry.node ≠ node)
  | write {s : State ι} {log : List (Allocated ι)} {node : ι} {i address k value : ℕ} :
      Reaches s log → i < (s.nodes node).n →
      dynamicLookupElement m ambient s node i = some address → k < m.elementSize →
      Reaches { s with alloc := { s.alloc with
        memory := Function.update s.alloc.memory (address + k) value } } log
  | gcSerial {s : State ι} {log : List (Allocated ι)} :
      Reaches s log → Reaches { s with alloc := s.alloc.gcSerial m.data } log
  | gcParallel {s : State ι} {log : List (Allocated ι)} {order0 order2 : List ℕ} {blockDim : ℕ} :
      Reaches s log → 0 < blockDim → order0.Perm (List.range s.alloc.itemsToCopy) →
      order2.Perm (List.range s.alloc.recycledList.numElements) →
      Reaches { s with alloc := s.alloc.gcParallel m.data blockDim order0 order2 } log

end Runs

def IsChain (memory : ℕ → ℕ) : ℕ → List ℕ → Prop
  | ptr, [] => ptr = 0
  | ptr, chunk :: chunks => ptr = chunk ∧ chunk ≠ 0 ∧ IsChain memory (readPtr memory chunk) chunks

end Quadrants.Memory.Dynamic

/-!
The chains of the dynamic nodes partition the live chunks of the allocator. Only a pointer that is
null is written, and a chunk that is handed out has a null pointer in front.
-/

namespace Quadrants.Memory.Dynamic

open Library.LittleEndian

section Pointers

variable {memory memory' : ℕ → ℕ} {address ptr : ℕ}

theorem readPtr_congr (h : ∀ k < sizeofPtr, memory' (address + k) = memory (address + k)) :
    readPtr memory' address = readPtr memory address := by
  refine congrArg ofBytes (List.map_congr_left fun k hk => ?_)
  exact congrArg UInt8.ofNat (h k (List.mem_range.1 hk))

theorem readPtr_of_clear (h : ∀ k < sizeofPtr, memory (address + k) = 0) :
    readPtr memory address = 0 := by
  have hzero : readPtr memory address = readPtr (fun _ => 0) address :=
    readPtr_congr h
  rw [hzero]
  rfl

theorem readPtr_writePtr (h : ptr < 256 ^ sizeofPtr) :
    readPtr (writePtr memory address ptr) address = ptr := by
  have hslice : slice (fun x => UInt8.ofNat (writePtr memory address ptr x)) address sizeofPtr =
      toBytes sizeofPtr ptr := by
    refine List.ext_getElem (by simp) fun k hk hk' => ?_
    have hlt : k < sizeofPtr := by simpa using hk
    simp [slice, writePtr, hlt]
  rw [readPtr, hslice, ofBytes_toBytes h]

theorem writePtr_of_apart {x : ℕ} (h : x < address ∨ address + sizeofPtr ≤ x) :
    writePtr memory address ptr x = memory x :=
  if_neg (by omega)

theorem readPtr_writePtr_of_apart {other : ℕ}
    (h : other + sizeofPtr ≤ address ∨ address + sizeofPtr ≤ other) :
    readPtr (writePtr memory address ptr) other = readPtr memory other :=
  readPtr_congr fun k hk => writePtr_of_apart (by omega)

end Pointers

section Chunks

variable {m : DynamicMeta} {index index' : ℕ}

theorem sizeofPtr_lt (m : DynamicMeta) : sizeofPtr < m.data.elementSize := by
  have := Nat.mul_pos m.elementSize_pos m.chunkSize_pos
  rw [m.nodeSize]
  omega

theorem getElementPtr_ne_zero (m : DynamicMeta) (index : ℕ) : m.data.getElementPtr index ≠ 0 := by
  have := m.chunks_pos (index / 2 ^ m.data.log2ChunkNumElements)
  rw [DataChunks.getElementPtr_eq]
  omega

theorem getElementPtr_lt (h : index >>> m.data.log2ChunkNumElements < DataChunks.maxNumChunks) :
    m.data.getElementPtr index < 256 ^ sizeofPtr := by
  rw [Nat.shiftRight_eq_div_pow] at h
  have hle := m.chunks_le _ h
  have hbound := m.data.node_bounds index m.data.elementSize_pos
  rw [DataChunks.getElementPtr_eq]
  omega

theorem chunks_apart (hne : index ≠ index') :
    m.data.getElementPtr index + m.data.elementSize ≤ m.data.getElementPtr index' ∨
      m.data.getElementPtr index' + m.data.elementSize ≤ m.data.getElementPtr index := by
  by_contra hover
  rcases Nat.le_total (m.data.getElementPtr index) (m.data.getElementPtr index') with hle | hle
  · obtain ⟨k, hk⟩ := Nat.exists_eq_add_of_le hle
    exact hne (m.data.index_unique (show k < _ by omega) m.data.elementSize_pos hk.symm)
  · obtain ⟨k, hk⟩ := Nat.exists_eq_add_of_le hle
    exact hne.symm (m.data.index_unique (show k < _ by omega) m.data.elementSize_pos hk.symm)

theorem fronts_apart (hne : index ≠ index') :
    m.data.getElementPtr index + sizeofPtr ≤ m.data.getElementPtr index' ∨
      m.data.getElementPtr index' + sizeofPtr ≤ m.data.getElementPtr index := by
  have hlt := sizeofPtr_lt m
  rcases chunks_apart (m := m) hne with h | h
  · exact Or.inl (by omega)
  · exact Or.inr (by omega)

end Chunks

section Chains

variable {m : DynamicMeta} {memory memory' : ℕ → ℕ} {ptr : ℕ}

def addresses (m : DynamicMeta) (chain : List ℕ) : List ℕ :=
  chain.map m.data.getElementPtr

theorem IsChain.congr {chain : List ℕ} (h : IsChain memory ptr (addresses m chain))
    (hsame : ∀ index ∈ chain, readPtr memory' (m.data.getElementPtr index) =
      readPtr memory (m.data.getElementPtr index)) : IsChain memory' ptr (addresses m chain) := by
  induction chain generalizing ptr with
  | nil => exact h
  | cons index chain ih =>
    obtain ⟨hptr, hne, hrest⟩ := h
    refine ⟨hptr, hne, ?_⟩
    rw [hsame index List.mem_cons_self]
    exact ih hrest fun j hj => hsame j (List.mem_cons_of_mem _ hj)

theorem IsChain.append {before : List ℕ} {last new : ℕ}
    (h : IsChain memory ptr (addresses m (before ++ [last])))
    (hlast : readPtr memory' (m.data.getElementPtr last) = m.data.getElementPtr new)
    (hnew : readPtr memory' (m.data.getElementPtr new) = 0)
    (hsame : ∀ index ∈ before, readPtr memory' (m.data.getElementPtr index) =
      readPtr memory (m.data.getElementPtr index)) :
    IsChain memory' ptr (addresses m (before ++ [last, new])) := by
  induction before generalizing ptr with
  | nil =>
    obtain ⟨hptr, hne, -⟩ := h
    exact ⟨hptr, hne, hlast, getElementPtr_ne_zero m new, hnew⟩
  | cons index before ih =>
    obtain ⟨hptr, hne, hrest⟩ := h
    refine ⟨hptr, hne, ?_⟩
    rw [hsame index List.mem_cons_self]
    exact ih hrest fun j hj => hsame j (List.mem_cons_of_mem _ hj)

def placeAfter (m : DynamicMeta) (before : List ℕ) : ChunkPtr :=
  before.getLast?.map m.data.getElementPtr

theorem IsChain.after {before after : List ℕ}
    (h : IsChain memory ptr (addresses m (before ++ after))) :
    IsChain memory ((placeAfter m before).elim ptr (readPtr memory)) (addresses m after) := by
  induction before generalizing ptr with
  | nil => exact h
  | cons index before ih =>
    have hrest := ih h.2.2
    rcases List.eq_nil_or_concat' before with rfl | ⟨init, last, rfl⟩
    · exact hrest
    · simpa [placeAfter, List.getLast?_cons] using hrest

end Chains

section Invariant

variable {ι : Type} {m : DynamicMeta} {s s' : State ι} {live : List ℕ} {chains : ι → List ℕ}

structure Partition (live : List ℕ) (chains : ι → List ℕ) : Prop where
  mem_live : ∀ index, index ∈ live ↔ ∃ node, index ∈ chains node
  nodup : ∀ node, (chains node).Nodup
  apart : ∀ node node', node ≠ node' → ∀ index ∈ chains node, index ∉ chains node'

variable {alloc : NodeManager} {index : ℕ} {node : ι}

theorem Partition.append [DecidableEq ι] (h : Partition live chains) (node : ι)
    (hindex : index ∉ live) :
    Partition (index :: live) (Function.update chains node (chains node ++ [index])) := by
  have hout : ∀ node, index ∉ chains node := fun node hmem =>
    hindex ((h.mem_live index).2 ⟨node, hmem⟩)
  have hmem : ∀ node' index', index' ∈ Function.update chains node (chains node ++ [index]) node' ↔
      index' ∈ chains node' ∨ node' = node ∧ index' = index := by
    intro node' index'
    rcases eq_or_ne node' node with rfl | hne
    · simp
    · simp [hne]
  refine ⟨fun index' => ?_, fun node' => ?_, fun node₁ node₂ hne index' h₁ h₂ => ?_⟩
  · simp only [List.mem_cons, h.mem_live, hmem]
    constructor
    · rintro (rfl | ⟨node', hmem⟩)
      · exact ⟨node, Or.inr ⟨rfl, rfl⟩⟩
      · exact ⟨node', Or.inl hmem⟩
    · rintro ⟨node', hmem | ⟨-, rfl⟩⟩
      · exact Or.inr ⟨node', hmem⟩
      · exact Or.inl rfl
  · rcases eq_or_ne node' node with rfl | hne
    · rw [Function.update_self, List.nodup_append]
      refine ⟨h.nodup node', List.nodup_singleton index, fun a ha b hb => ?_⟩
      rintro rfl
      exact hout node' (List.mem_singleton.1 hb ▸ ha)
    · rw [Function.update_of_ne hne]
      exact h.nodup node'
  · rw [hmem] at h₁ h₂
    rcases h₁ with h₁ | ⟨rfl, rfl⟩
    · rcases h₂ with h₂ | ⟨-, rfl⟩
      · exact h.apart node₁ node₂ hne index' h₁ h₂
      · exact hout node₁ h₁
    · rcases h₂ with h₂ | ⟨rfl, -⟩
      · exact hout node₂ h₂
      · exact hne rfl

theorem Partition.clear [DecidableEq ι] (h : Partition live chains) (node : ι) {live' : List ℕ}
    (hlive : ∀ index, index ∈ live' ↔ index ∈ live ∧ index ∉ chains node) :
    Partition live' (Function.update chains node []) := by
  have hmem : ∀ node' index, index ∈ Function.update chains node [] node' ↔
      index ∈ chains node' ∧ node' ≠ node := by
    intro node' index
    rcases eq_or_ne node' node with rfl | hne
    · simp
    · simp [hne]
  refine ⟨fun index => ?_, fun node' => ?_, fun node₁ node₂ hne index h₁ h₂ => ?_⟩
  · simp only [hlive, h.mem_live, hmem]
    constructor
    · rintro ⟨⟨node', hin⟩, hout⟩
      refine ⟨node', hin, ?_⟩
      rintro rfl
      exact hout hin
    · rintro ⟨node', hin, hne⟩
      exact ⟨⟨node', hin⟩, h.apart node' node hne index hin⟩
  · rcases eq_or_ne node' node with rfl | hne
    · rw [Function.update_self]
      exact List.nodup_nil
    · rw [Function.update_of_ne hne]
      exact h.nodup node'
  · exact h.apart node₁ node₂ hne index ((hmem _ _).1 h₁).1 ((hmem _ _).1 h₂).1

/-- The live chunks are those of the chains, and what is not reserved yet is clear. -/
structure Core (m : DynamicMeta) (s : State ι) (live : List ℕ) (chains : ι → List ℕ) : Prop where
  alloc : NodeManager.Inv m.data s.alloc live
  partition : Partition live chains
  linked : ∀ node, IsChain s.alloc.memory (s.nodes node).ptr (addresses m (chains node))
  fits : ∀ node, m.chunkSize * (chains node).length < 2 ^ 31
  fresh : ∀ index, s.alloc.dataSize ≤ index → s.alloc.Cleared m.data index
  room : ∀ index < s.alloc.dataSize,
    index >>> m.data.log2ChunkNumElements < DataChunks.maxNumChunks

theorem core_init : Core m (.init : State ι) [] fun _ => [] where
  alloc := NodeManager.init_inv
  partition := ⟨fun _ => iff_of_false List.not_mem_nil fun ⟨_, h⟩ => List.not_mem_nil h,
    fun _ => List.nodup_nil, fun _ _ _ _ h => absurd h List.not_mem_nil⟩
  linked _ := rfl
  fits _ := by simp
  fresh _ _ _ _ := rfl
  room _ h := absurd h (Nat.not_lt_zero _)

theorem Core.setNode_n [DecidableEq ι] (h : Core m s live chains) (node : ι) (n : ℕ) :
    Core m (s.setNode node { s.nodes node with n }) live chains := by
  refine { h with linked := fun node' => ?_ }
  rcases eq_or_ne node' node with rfl | hne
  · simpa [State.setNode] using h.linked node'
  · simpa [State.setNode, hne] using h.linked node'

theorem Core.read_placeAfter (h : Core m s live chains) {before after : List ℕ}
    (hchain : chains node = before ++ after) :
    IsChain s.alloc.memory (s.read node (placeAfter m before)) (addresses m after) := by
  have hafter := IsChain.after (hchain ▸ h.linked node)
  rcases hplace : placeAfter m before with _ | address
  · rw [hplace] at hafter
    exact hafter
  · rw [hplace] at hafter
    exact hafter

structure Handed (m : DynamicMeta) (alloc alloc' : NodeManager) (live : List ℕ) (index : ℕ) :
    Prop where
  inv : NodeManager.Inv m.data alloc' (index :: live)
  memory : alloc'.memory = alloc.memory
  clear : alloc.Cleared m.data index
  grows : alloc.dataSize ≤ alloc'.dataSize
  room : ∀ index < alloc'.dataSize,
    index >>> m.data.log2ChunkNumElements < DataChunks.maxNumChunks

theorem Core.handed (h : Core m s live chains)
    (halloc : s.alloc.allocate m.data = some (index, alloc)) :
    Handed m s.alloc alloc live index := by
  have hinv := NodeManager.allocate_inv h.alloc halloc
  rcases NodeManager.allocate_cases halloc with ⟨hempty, rfl, rfl⟩ | ⟨hused, rfl, rfl⟩
  · refine ⟨hinv, rfl, h.fresh _ (Nat.le_refl _), Nat.le_succ _, fun index hlt => ?_⟩
    rcases Nat.lt_succ_iff_lt_or_eq.1 hlt with hlt | rfl
    · exact h.room index hlt
    · rw [NodeManager.allocate] at halloc
      simp only [if_pos (show s.alloc.freeListUsed ≥ s.alloc.freeList.numElements from hempty)]
        at halloc
      by_contra hfull
      rw [if_neg hfull] at halloc
      cases halloc
  · refine ⟨hinv, rfl, h.alloc.cleared _ ?_, Nat.le_refl _, h.room⟩
    rw [NodeManager.unused, ListManager.entries_eq_cons hused]
    exact List.mem_cons_self

theorem Handed.not_mem {alloc' : NodeManager}
    (h : Handed m alloc alloc' live index) : index ∉ live := by
  have hnodup := h.inv.perm.nodup_iff.2 List.nodup_range
  exact fun hmem => (List.nodup_cons.1 hnodup).1 (List.mem_append_left _ hmem)

theorem inv_writePtr {ptr : ℕ} (h : NodeManager.Inv m.data alloc live)
    (hindex : index ∈ live) : NodeManager.Inv m.data
      { alloc with memory := writePtr alloc.memory (m.data.getElementPtr index) ptr } live := by
  refine ⟨h.perm, fun free hfree k hk => ?_⟩
  have hne : free ≠ index := by
    rintro rfl
    have hnodup := h.perm.nodup_iff.2 List.nodup_range
    exact (List.nodup_append.1 hnodup).2.2 free hindex free (List.mem_append_left _ hfree) rfl
  have hlt := sizeofPtr_lt m
  refine (writePtr_of_apart ?_).trans (h.cleared free hfree k hk)
  rcases chunks_apart (m := m) hne with hle | hle
  · exact Or.inl (by omega)
  · exact Or.inr (by omega)

theorem Core.fits_update [DecidableEq ι] (h : Core m s live chains) (node : ι) {chain : List ℕ}
    (hfits : m.chunkSize * chain.length < 2 ^ 31) (node' : ι) :
    m.chunkSize * (Function.update chains node chain node').length < 2 ^ 31 := by
  rcases eq_or_ne node' node with rfl | hne
  · rwa [Function.update_self]
  · rw [Function.update_of_ne hne]
    exact h.fits node'

theorem Core.link_head [DecidableEq ι] (h : Core m s live chains) (hchain : chains node = [])
    (halloc : s.alloc.allocate m.data = some (index, alloc)) (hfits : m.chunkSize < 2 ^ 31) :
    Core m ({ s with alloc }.write node none (m.data.getElementPtr index)) (index :: live)
      (Function.update chains node [index]) := by
  have hhanded := h.handed halloc
  have hpartition := h.partition.append node hhanded.not_mem
  rw [hchain] at hpartition
  have hclear : readPtr alloc.memory (m.data.getElementPtr index) = 0 := by
    rw [hhanded.memory]
    exact readPtr_of_clear fun k hk => hhanded.clear k (Nat.lt_trans hk (sizeofPtr_lt m))
  refine ⟨hhanded.inv, hpartition, fun node' => ?_, h.fits_update node (by simpa using hfits),
    fun index' hle k hk => ?_, hhanded.room⟩
  · rcases eq_or_ne node' node with rfl | hne
    · simp only [State.write, State.setNode, Function.update_self]
      exact ⟨rfl, getElementPtr_ne_zero m index, hclear⟩
    · simp only [State.write, State.setNode, Function.update_of_ne hne, hhanded.memory]
      exact h.linked node'
  · change alloc.memory _ = 0
    rw [hhanded.memory]
    exact h.fresh index' (Nat.le_trans hhanded.grows hle) k hk

theorem Core.link_last [DecidableEq ι] (h : Core m s live chains) {before : List ℕ}
    {last : ℕ} (hchain : chains node = before ++ [last])
    (halloc : s.alloc.allocate m.data = some (index, alloc))
    (hfits : m.chunkSize * (before.length + 2) < 2 ^ 31) :
    Core m ({ s with alloc }.write node (some (m.data.getElementPtr last))
      (m.data.getElementPtr index)) (index :: live)
      (Function.update chains node (before ++ [last, index])) := by
  have hhanded := h.handed halloc
  have hpartition := h.partition.append node hhanded.not_mem
  rw [hchain, List.append_assoc] at hpartition
  have hlast : last ∈ chains node := by simp [hchain]
  have hlive : last ∈ live := (h.partition.mem_live last).2 ⟨node, hlast⟩
  have hindex : index ≠ last := by
    rintro rfl
    exact hhanded.not_mem hlive
  have hother : ∀ other, other ≠ last →
      readPtr (writePtr alloc.memory (m.data.getElementPtr last) (m.data.getElementPtr index))
        (m.data.getElementPtr other) = readPtr s.alloc.memory (m.data.getElementPtr other) := by
    intro other hne
    rw [readPtr_writePtr_of_apart (fronts_apart hne), hhanded.memory]
  refine ⟨inv_writePtr hhanded.inv (List.mem_cons_of_mem _ hlive), hpartition, fun node' => ?_,
    h.fits_update node (by simpa using hfits), fun index' hle k hk => ?_, hhanded.room⟩
  · rcases eq_or_ne node' node with rfl | hne
    · have hnodup := h.partition.nodup node'
      rw [Function.update_self]
      have hlinked := h.linked node'
      rw [hchain] at hlinked hnodup
      refine hlinked.append ?_ ?_ fun other hmem => hother other ?_
      · refine readPtr_writePtr (getElementPtr_lt (hhanded.room index ?_))
        exact hhanded.inv.lt_dataSize List.mem_cons_self
      · refine (hother index hindex).trans ?_
        exact readPtr_of_clear fun k hk => hhanded.clear k (Nat.lt_trans hk (sizeofPtr_lt m))
      · exact (List.nodup_append.1 hnodup).2.2 other hmem last (List.mem_singleton_self last)
    · rw [Function.update_of_ne hne]
      refine (h.linked node').congr fun other hmem => hother other ?_
      rintro rfl
      exact h.partition.apart node' node hne other hmem hlast
  · have hne : index' ≠ last := by
      rintro rfl
      have := h.alloc.lt_dataSize hlive
      have := Nat.le_trans hhanded.grows hle
      omega
    have hlt := sizeofPtr_lt m
    refine (writePtr_of_apart ?_).trans ?_
    · rcases chunks_apart (m := m) hne with hle | hle
      · exact Or.inl (by omega)
      · exact Or.inr (by omega)
    · rw [hhanded.memory]
      exact h.fresh index' (Nat.le_trans hhanded.grows hle) k hk

end Invariant

section Walks

variable {ι : Type} {m : DynamicMeta} {s s' : State ι} {live : List ℕ} {chains : ι → List ℕ}
  {node : ι}

structure Grown (m : DynamicMeta) (s s' : State ι) (chains chains' : ι → List ℕ) (live' : List ℕ) :
    Prop where
  core : Core m s' live' chains'
  isPrefix : ∀ node, chains node <+: chains' node
  n : ∀ node, (s'.nodes node).n = (s.nodes node).n

theorem Grown.trans {s₁ s₂ s₃ : State ι} {chains₁ chains₂ chains₃ : ι → List ℕ}
    {live₂ live₃ : List ℕ} (h : Grown m s₁ s₂ chains₁ chains₂ live₂)
    (h' : Grown m s₂ s₃ chains₂ chains₃ live₃) : Grown m s₁ s₃ chains₁ chains₃ live₃ where
  core := h'.core
  isPrefix node := (h.isPrefix node).trans (h'.isPrefix node)
  n node := (h'.n node).trans (h.n node)

variable [DecidableEq ι]

theorem isPrefix_update {chain : List ℕ} (h : chains node <+: chain) (node' : ι) :
    chains node' <+: Function.update chains node chain node' := by
  rcases eq_or_ne node' node with rfl | hne
  · rwa [Function.update_self]
  · simp [Function.update_of_ne hne]

theorem write_n (place : ChunkPtr) (ptr : ℕ) (node' : ι) :
    ((s.write node place ptr).nodes node').n = (s.nodes node').n := by
  rcases place with _ | address
  · rcases eq_or_ne node' node with rfl | hne
    · simp [State.write, State.setNode]
    · simp [State.write, State.setNode, hne]
  · rfl

theorem Core.touch (h : Core m s live chains) {before after : List ℕ}
    (hchain : chains node = before ++ after) (hfits : m.chunkSize * (before.length + 1) < 2 ^ 31)
    (htouch : touchChunk m s node (placeAfter m before) = some s') :
    ∃ live' chains' index after', Grown m s s' chains chains' live' ∧
      chains' node = before ++ index :: after' := by
  have hlinked := h.read_placeAfter hchain
  unfold touchChunk at htouch
  rcases after with _ | ⟨index, after⟩
  · have hnull : s.read node (placeAfter m before) = 0 := hlinked
    rw [if_pos hnull] at htouch
    obtain ⟨⟨index, alloc⟩, halloc, rfl⟩ := Option.map_eq_some_iff.1 htouch
    rw [List.append_nil] at hchain
    rcases List.eq_nil_or_concat' before with rfl | ⟨init, last, rfl⟩
    · have hcore := h.link_head hchain halloc (by simpa using hfits)
      refine ⟨_, _, index, [], ⟨hcore, isPrefix_update ?_, write_n _ _⟩, Function.update_self _ _ _⟩
      rw [hchain]
      exact List.nil_prefix
    · have hplace : placeAfter m (init ++ [last]) = some (m.data.getElementPtr last) := by
        simp [placeAfter]
      have hcore := h.link_last hchain halloc (by simpa using hfits)
      rw [hplace]
      refine ⟨_, _, index, [], ⟨hcore, isPrefix_update ?_, write_n _ _⟩, ?_⟩
      · rw [hchain]
        exact ⟨[index], by simp⟩
      · simp
  · have hne : s.read node (placeAfter m before) ≠ 0 := by
      rw [hlinked.1]
      exact getElementPtr_ne_zero m index
    rw [if_neg hne] at htouch
    obtain rfl := Option.some.inj htouch
    exact ⟨live, chains, index, after, ⟨h, fun _ => List.prefix_rfl, fun _ => rfl⟩, hchain⟩

theorem Core.walk {i steps : ℕ} {before after : List ℕ} {chunk chunkStart : ℕ}
    (h : Core m s live chains) (hchain : chains node = before ++ after)
    (hle : m.chunkSize * before.length ≤ i) (hlt : i < m.chunkSize * (before.length + steps))
    (hwalk : walkChunks m node i s (placeAfter m before) (m.chunkSize * before.length) =
      some (s', chunk, chunkStart)) :
    ∃ live' chains' index, Grown m s s' chains chains' live' ∧
      (chains' node)[i / m.chunkSize]? = some index ∧ chunk = m.data.getElementPtr index ∧
      chunkStart = m.chunkSize * (i / m.chunkSize) := by
  induction steps generalizing s live chains before after with
  | zero => exact absurd hlt (Nat.not_lt.2 hle)
  | succ steps ih =>
    rw [walkChunks] at hwalk
    split at hwalk
    · next hfits =>
        obtain ⟨s₁, htouch, hrest⟩ := Option.bind_eq_some_iff.1 hwalk
        obtain ⟨live₁, chains₁, index, after₁, hgrown, hchain₁⟩ := h.touch hchain hfits htouch
        have hread := (hgrown.core.read_placeAfter hchain₁).1
        rw [← Nat.mul_succ, hread] at hrest
        split at hrest
        · next hin =>
            obtain ⟨rfl, rfl, rfl⟩ : s₁ = s' ∧ m.data.getElementPtr index = chunk ∧
                m.chunkSize * before.length = chunkStart := by simpa using hrest
            have hdiv : i / m.chunkSize = before.length :=
              Nat.div_eq_of_lt_le (by rwa [Nat.mul_comm]) (by rwa [Nat.mul_comm])
            refine ⟨live₁, chains₁, index, hgrown, ?_, rfl, by rw [hdiv]⟩
            rw [hchain₁, hdiv]
            simp
        · next hout =>
            have hplace :
                some (m.data.getElementPtr index) = placeAfter m (before ++ [index]) := by
              simp [placeAfter]
            have hlength : before.length.succ = (before ++ [index]).length := by simp
            rw [hplace, hlength] at hrest
            obtain ⟨live', chains', index', hgrown', hresult⟩ :=
              ih hgrown.core (show chains₁ node = (before ++ [index]) ++ after₁ by simp [hchain₁])
                (by rw [← hlength]; omega)
                (by rw [← hlength, Nat.succ_add, ← Nat.add_succ]; exact hlt) hrest
            exact ⟨live', chains', index', hgrown.trans hgrown', hresult⟩
    · exact absurd hwalk nofun

end Walks

end Quadrants.Memory.Dynamic
