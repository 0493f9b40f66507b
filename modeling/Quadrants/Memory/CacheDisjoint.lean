import Mathlib.Data.Finmap
import Mathlib.Data.Prod.Lex
import Quadrants.Library.Cover

/-!
`CachingAllocator` and the part of `CudaDevice` that calls it. Addresses and sizes are numbers; what
`allocate_llvm_runtime_memory_jit` returns is an argument of the call, zero for a null pointer.
-/

namespace Quadrants.Memory

open Library.Cover

def pageSize : ℕ :=
  4096

def iroundup (a b : ℕ) : ℕ :=
  (a + b - 1) % 2 ^ 64 / b * b

inductive Error where
  | assertion
  | outOfMemory
  | invalidHandle
  | alreadyDeallocated
  deriving DecidableEq

structure CachingAllocator where
  memBlocks : Finset (ℕ ×ₗ ℕ)
  ptrMap : Finmap fun _ : ℕ => ℕ
  mergeUponRelease : Bool

namespace CachingAllocator

def subscript (m : Finmap fun _ : ℕ => ℕ) (key : ℕ) : ℕ × Finmap fun _ : ℕ => ℕ :=
  match m.lookup key with
  | some value => (value, m)
  | none => (0, m.insert key 0)

def insertNew (m : Finmap fun _ : ℕ => ℕ) (key value : ℕ) : Finmap fun _ : ℕ => ℕ :=
  match m.lookup key with
  | some _ => m
  | none => m.insert key value

def mergeRight (a : CachingAllocator) (ptr size : ℕ) : CachingAllocator × ℕ :=
  let probed := subscript a.ptrMap (ptr + size)
  if probed.1 ≠ 0 then
    ({ a with
        memBlocks := a.memBlocks.erase (toLex (probed.1, ptr + size))
        ptrMap := probed.2.erase (ptr + size) }, size + probed.1)
  else ({ a with ptrMap := probed.2 }, size)

def mergeLeft (a : CachingAllocator) (ptr size : ℕ) : CachingAllocator × ℕ × ℕ :=
  match lastBelow a.ptrMap.keys ptr with
  | some first =>
    let second := (a.ptrMap.lookup first).getD 0
    if first + second = ptr then
      ({ a with
          memBlocks := a.memBlocks.erase (toLex (second, first))
          ptrMap := a.ptrMap.erase first }, first, size + second)
    else (a, ptr, size)
  | none => (a, ptr, size)

def insertBlock (a : CachingAllocator) (ptr size : ℕ) : CachingAllocator :=
  { a with
    memBlocks := insert (toLex (size, ptr)) a.memBlocks
    ptrMap := a.ptrMap.insert ptr size }

def mergeAndInsert (a : CachingAllocator) (ptr size : ℕ) : CachingAllocator :=
  let right := mergeRight a ptr size
  let left := mergeLeft right.1 ptr right.2
  insertBlock left.1 left.2.1 left.2.2

def findBlock (a : CachingAllocator) (sizeAligned : ℕ) : Option (ℕ ×ₗ ℕ) :=
  lowerBound a.memBlocks (toLex (sizeAligned, 0))

def takeBlock (a : CachingAllocator) (sizeAligned : ℕ) (blk : ℕ ×ₗ ℕ) :
    Except Error (ℕ × CachingAllocator) :=
  let remainingSz := (ofLex blk).1 - sizeAligned
  let remainingHead := (ofLex blk).2 + sizeAligned
  if remainingSz > 0 then
    if remainingSz % pageSize = 0 then
      .ok ((ofLex blk).2, { a with
          memBlocks := (insert (toLex (remainingSz, remainingHead)) a.memBlocks).erase blk
          ptrMap := (insertNew a.ptrMap remainingHead remainingSz).erase (ofLex blk).2 })
    else .error .assertion
  else
    .ok ((ofLex blk).2,
      { a with memBlocks := a.memBlocks.erase blk, ptrMap := a.ptrMap.erase (ofLex blk).2 })

def allocate (a : CachingAllocator) (size jit : ℕ) : Except Error (ℕ × CachingAllocator) :=
  let sizeAligned := iroundup size pageSize
  match a.findBlock sizeAligned with
  | some blk => a.takeBlock sizeAligned blk
  | none => if jit = 0 then .error .outOfMemory else .ok (jit, a)

def release (a : CachingAllocator) (sz ptr : ℕ) : CachingAllocator :=
  if a.mergeUponRelease then a.mergeAndInsert ptr sz
  else if sz ≥ pageSize then { a with memBlocks := insert (toLex (sz, ptr)) a.memBlocks }
  else a

end CachingAllocator

/-- `AllocInfo` of an allocation that is cached and not from the memory pool of the driver. -/
structure AllocInfo where
  ptr : ℕ
  size : ℕ
  deriving DecidableEq

structure CudaDevice where
  allocations : List AllocInfo
  allocator : CachingAllocator

namespace CudaDevice

def init : CudaDevice :=
  ⟨[], ⟨∅, ∅, true⟩⟩

def allocateMemoryRuntime (d : CudaDevice) (size jit : ℕ) : Except Error CudaDevice :=
  let infoSize := iroundup size pageSize
  if infoSize = 0 then .ok { d with allocations := d.allocations ++ [⟨0, infoSize⟩] }
  else
    match d.allocator.allocate size jit with
    | .error e => .error e
    | .ok (ptr, allocator) =>
      if ptr = 0 then .ok { d with allocator }
      else .ok ⟨d.allocations ++ [⟨ptr, infoSize⟩], allocator⟩

def deallocMemory (d : CudaDevice) (id : ℕ) : Except Error CudaDevice :=
  if d.allocations = [] then .ok d
  else
    match d.allocations[id]? with
    | none => .error .invalidHandle
    | some info =>
      if info.size = 0 then .ok d
      else if info.ptr = 0 then .error .alreadyDeallocated
      else
        .ok ⟨d.allocations.set id { info with ptr := 0 }, d.allocator.release info.size info.ptr⟩

end CudaDevice

end Quadrants.Memory

/-!
The blocks in use and the free blocks of `CachingAllocator` are disjoint and together are what the
device handed out.
-/

namespace Quadrants.Memory

open Library.Cover

def freeBlock (blk : ℕ ×ₗ ℕ) : Block :=
  ⟨(ofLex blk).2, (ofLex blk).1⟩

structure Paged (b : Block) : Prop where
  ptr_pos : 0 < b.ptr
  size_pos : 0 < b.size
  ptr_dvd : pageSize ∣ b.ptr
  size_dvd : pageSize ∣ b.size

theorem Paged.has_ptr {b : Block} (h : Paged b) : b.Has b.ptr :=
  ⟨le_rfl, Nat.lt_add_of_pos_right h.size_pos⟩

theorem Paged.append {p m n : ℕ} (h : Paged ⟨p, m⟩) (h' : Paged ⟨p + m, n⟩) : Paged ⟨p, m + n⟩ :=
  ⟨h.ptr_pos, Nat.add_pos_left h.size_pos n, h.ptr_dvd, Nat.dvd_add h.size_dvd h'.size_dvd⟩

namespace CachingAllocator

variable {a : CachingAllocator}

def free (a : CachingAllocator) (x : ℕ) : ℕ :=
  coverSet freeBlock a.memBlocks x

/-- `ptr_map_` names no block that is not in `mem_blocks_`. It may miss some, and it holds zeros. -/
def Listed (a : CachingAllocator) : Prop :=
  ∀ ptr size, a.ptrMap.lookup ptr = some size → size ≠ 0 → toLex (size, ptr) ∈ a.memBlocks

def AllPaged (a : CachingAllocator) : Prop :=
  ∀ blk ∈ a.memBlocks, Paged (freeBlock blk)

section Maps

variable {m : Finmap fun _ : ℕ => ℕ} {key value ptr size : ℕ}

theorem lookup_subscript (h : (subscript m key).2.lookup ptr = some size) (hsize : size ≠ 0) :
    m.lookup ptr = some size := by
  unfold subscript at h
  split at h
  · exact h
  · by_cases heq : ptr = key
    · subst heq
      rw [Finmap.lookup_insert] at h
      cases h
      exact absurd rfl hsize
    · rwa [Finmap.lookup_insert_of_ne m heq] at h

theorem lookup_of_subscript_ne_zero (h : (subscript m key).1 ≠ 0) :
    m.lookup key = some (subscript m key).1 := by
  unfold subscript at h ⊢
  split
  · next hvalue => exact hvalue
  · next hnone =>
      rw [hnone] at h
      exact absurd rfl h

theorem lookup_insertNew (h : (insertNew m key value).lookup ptr = some size) :
    m.lookup ptr = some size ∨ ptr = key ∧ size = value := by
  unfold insertNew at h
  split at h
  · exact .inl h
  · by_cases heq : ptr = key
    · subst heq
      rw [Finmap.lookup_insert] at h
      cases h
      exact .inr ⟨rfl, rfl⟩
    · rw [Finmap.lookup_insert_of_ne m heq] at h
      exact .inl h

theorem ne_of_lookup_erase (h : (m.erase key).lookup ptr = some size) :
    ptr ≠ key ∧ m.lookup ptr = some size := by
  by_cases heq : ptr = key
  · subst heq
    rw [Finmap.lookup_erase] at h
    cases h
  · rw [Finmap.lookup_erase_ne heq] at h
    exact ⟨heq, h⟩

end Maps

variable {a' : CachingAllocator} {blk : ℕ ×ₗ ℕ} {sizeAligned : ℕ}

theorem Listed.erase (h : a.Listed) (hblocks : a'.memBlocks = a.memBlocks.erase blk)
    (hmap : ∀ ptr size, a'.ptrMap.lookup ptr = some size → size ≠ 0 →
      ptr ≠ (ofLex blk).2 ∧ a.ptrMap.lookup ptr = some size) : a'.Listed := by
  intro ptr size hlookup hsize
  obtain ⟨hne, hold⟩ := hmap ptr size hlookup hsize
  rw [hblocks, Finset.mem_erase]
  refine ⟨fun heq => hne ?_, h ptr size hold hsize⟩
  rw [← heq]
  rfl

/-- What the two parts of `merge_and_insert` do: a block moves from the free ones to the block that
is released. -/
structure Merged (a a' : CachingAllocator) (b b' : Block) : Prop where
  listed : a'.Listed
  subset : a'.memBlocks ⊆ a.memBlocks
  paged : a.AllPaged → Paged b → Paged b'
  free_add : ∀ x, a'.free x + b'.count x = a.free x + b.count x
  mergeUponRelease : a'.mergeUponRelease = a.mergeUponRelease

theorem Merged.trans {a'' : CachingAllocator} {b b' b'' : Block} (h : Merged a a' b b')
    (h' : Merged a' a'' b' b'') : Merged a a'' b b'' where
  listed := h'.listed
  subset := Finset.Subset.trans h'.subset h.subset
  paged := fun ha hb => h'.paged (fun blk hblk => ha blk (h.subset hblk)) (h.paged ha hb)
  free_add := fun x => (h'.free_add x).trans (h.free_add x)
  mergeUponRelease := h'.mergeUponRelease.trans h.mergeUponRelease

theorem mergeRight_merged (h : a.Listed) (ptr size : ℕ) :
    Merged a (a.mergeRight ptr size).1 ⟨ptr, size⟩ ⟨ptr, (a.mergeRight ptr size).2⟩ := by
  simp only [mergeRight]
  split
  · next hprobed =>
      have hmem := h _ _ (lookup_of_subscript_ne_zero hprobed) hprobed
      refine ⟨h.erase rfl fun p s hlookup hs => ?_, Finset.erase_subset _ _, fun ha hb => ?_,
        fun x => ?_, rfl⟩
      · obtain ⟨hne, hlookup'⟩ := ne_of_lookup_erase hlookup
        exact ⟨hne, lookup_subscript hlookup' hs⟩
      · exact hb.append (ha _ hmem)
      · have hcover := @coverSet_erase _ _ freeBlock _ _ hmem x
        rw [Block.count_add, free, free, ← hcover]
        simp only [freeBlock, ofLex_toLex]
        omega
  · exact ⟨fun p s hlookup hs => h p s (lookup_subscript hlookup hs) hs, Finset.Subset.refl _,
      fun _ hb => hb, fun _ => rfl, rfl⟩

theorem mergeLeft_merged (h : a.Listed) (ptr size : ℕ) :
    Merged a (a.mergeLeft ptr size).1 ⟨ptr, size⟩
      ⟨(a.mergeLeft ptr size).2.1, (a.mergeLeft ptr size).2.2⟩ := by
  have hrefl : Merged a a ⟨ptr, size⟩ ⟨ptr, size⟩ :=
    ⟨h, Finset.Subset.refl _, fun _ hb => hb, fun _ => rfl, rfl⟩
  simp only [mergeLeft]
  split
  · next first hfirst =>
      obtain ⟨hkey, hlt⟩ := lastBelow_eq_some hfirst
      obtain ⟨second, hsecond⟩ := Finmap.mem_iff.1 (Finmap.mem_keys.1 hkey)
      simp only [hsecond, Option.getD_some]
      split
      · next hadjacent =>
          subst hadjacent
          have hmem := h first second hsecond (by omega)
          refine ⟨h.erase rfl fun p s hlookup _ => ne_of_lookup_erase hlookup,
            Finset.erase_subset _ _, fun ha hb => ?_, fun x => ?_, rfl⟩
          · rw [Nat.add_comm]
            exact (ha _ hmem).append hb
          · have hcover := @coverSet_erase _ _ freeBlock _ _ hmem x
            rw [Nat.add_comm size, Block.count_add, free, free, ← hcover]
            simp only [freeBlock, ofLex_toLex]
            omega
      · exact hrefl
  · exact hrefl

theorem mergeAndInsert_spec (h : a.Listed) (ha : a.AllPaged) {ptr size : ℕ}
    (hb : Paged ⟨ptr, size⟩) (hfree : ∀ x, a.free x + (Block.mk ptr size).count x ≤ 1) :
    (a.mergeAndInsert ptr size).Listed ∧ (a.mergeAndInsert ptr size).AllPaged ∧
      (∀ x, (a.mergeAndInsert ptr size).free x = a.free x + (Block.mk ptr size).count x) ∧
      (a.mergeAndInsert ptr size).mergeUponRelease = a.mergeUponRelease := by
  have hright := mergeRight_merged h ptr size
  have hmerged := hright.trans (mergeLeft_merged hright.listed ptr _)
  simp only [mergeAndInsert]
  generalize (a.mergeRight ptr size).1.mergeLeft ptr (a.mergeRight ptr size).2 = left at hmerged ⊢
  obtain ⟨a', ptr', size'⟩ := left
  have hpaged := hmerged.paged ha hb
  have hnew : toLex (size', ptr') ∉ a'.memBlocks := by
    refine @not_mem_of_cover _ _ freeBlock _ _ ptr' hpaged.has_ptr ?_
    have := hmerged.free_add ptr'
    have := hfree ptr'
    simp only [free, freeBlock, ofLex_toLex] at *
    omega
  refine ⟨fun p s hlookup hs => ?_, fun blk hblk => ?_, fun x => ?_, hmerged.mergeUponRelease⟩
  · simp only [insertBlock] at hlookup ⊢
    by_cases heq : p = ptr'
    · subst heq
      rw [Finmap.lookup_insert] at hlookup
      cases hlookup
      exact Finset.mem_insert_self _ _
    · rw [Finmap.lookup_insert_of_ne _ heq] at hlookup
      exact Finset.mem_insert_of_mem (hmerged.listed p s hlookup hs)
  · rcases Finset.mem_insert.1 hblk with rfl | hold
    · exact hpaged
    · exact ha blk (hmerged.subset hold)
  · rw [← hmerged.free_add x, Nat.add_comm]
    exact coverSet_insert hnew x

theorem le_of_findBlock (h : a.findBlock sizeAligned = some blk) :
    blk ∈ a.memBlocks ∧ sizeAligned ≤ (ofLex blk).1 := by
  obtain ⟨hmem, hle⟩ := lowerBound_eq_some h
  refine ⟨hmem, ?_⟩
  rcases Prod.Lex.le_iff.1 hle with hlt | ⟨heq, -⟩
  · exact Nat.le_of_lt hlt
  · exact Nat.le_of_eq heq

theorem remaining_dvd (ha : a.AllPaged) (hsize : pageSize ∣ sizeAligned)
    (h : a.findBlock sizeAligned = some blk) :
    pageSize ∣ (ofLex blk).1 - sizeAligned :=
  Nat.dvd_sub (ha blk (le_of_findBlock h).1).size_dvd hsize

theorem takeBlock_spec (h : a.Listed) (ha : a.AllPaged) (hfree : ∀ x, a.free x ≤ 1)
    (hpos : 0 < sizeAligned) (hsize : pageSize ∣ sizeAligned)
    (hblk : a.findBlock sizeAligned = some blk) :
    ∃ a', a.takeBlock sizeAligned blk = .ok ((ofLex blk).2, a') ∧ a'.Listed ∧ a'.AllPaged ∧
      (∀ x, a'.free x + (Block.mk (ofLex blk).2 sizeAligned).count x = a.free x) ∧
      a'.mergeUponRelease = a.mergeUponRelease := by
  obtain ⟨hmem, hle⟩ := le_of_findBlock hblk
  have hdvd := remaining_dvd ha hsize hblk
  have hcover := fun x => @coverSet_erase _ _ freeBlock _ _ hmem x
  unfold takeBlock
  simp only
  split
  · next hremaining =>
      rw [if_pos (Nat.mod_eq_zero_of_dvd hdvd)]
      have hblock := ha blk hmem
      have hrest : Paged ⟨(ofLex blk).2 + sizeAligned, (ofLex blk).1 - sizeAligned⟩ :=
        ⟨Nat.add_pos_left hblock.ptr_pos _, hremaining, Nat.dvd_add hblock.ptr_dvd hsize, hdvd⟩
      have hparts : ∀ x, (freeBlock blk).count x =
          (Block.mk (ofLex blk).2 sizeAligned).count x +
            (Block.mk ((ofLex blk).2 + sizeAligned) ((ofLex blk).1 - sizeAligned)).count x := by
        intro x
        rw [← Block.count_add, Nat.add_sub_cancel' hle]
        rfl
      have hne : toLex ((ofLex blk).1 - sizeAligned, (ofLex blk).2 + sizeAligned) ≠ blk := by
        intro heq
        have := congrArg (fun blk => (ofLex blk).2) heq
        simp only [ofLex_toLex] at this
        omega
      refine ⟨_, rfl, fun p s hlookup hs => ?_, fun blk' hblk' => ?_, fun x => ?_, rfl⟩
      · obtain ⟨hp, hlookup'⟩ := ne_of_lookup_erase hlookup
        refine Finset.mem_erase.2 ⟨fun heq => hp ?_, ?_⟩
        · rw [← heq]
          rfl
        · rcases lookup_insertNew hlookup' with hold | ⟨rfl, rfl⟩
          · exact Finset.mem_insert_of_mem (h p s hold hs)
          · exact Finset.mem_insert_self _ _
      · rcases Finset.mem_insert.1 (Finset.mem_of_mem_erase hblk') with rfl | hold
        · exact hrest
        · exact ha blk' hold
      · simp only [free]
        rw [Finset.erase_insert_of_ne hne, coverSet_insert, ← hcover x, hparts x]
        · simp only [freeBlock, ofLex_toLex]
          omega
        · -- the rest of the block is not free by itself
          refine @not_mem_of_cover _ _ freeBlock _ _ ((ofLex blk).2 + sizeAligned) hrest.has_ptr ?_
          have hone := hfree ((ofLex blk).2 + sizeAligned)
          rw [free, ← hcover, hparts] at hone
          simp only [freeBlock, ofLex_toLex] at *
          omega
  · next hremaining =>
      have hexact : (ofLex blk).1 = sizeAligned := by omega
      refine ⟨_, rfl, h.erase rfl fun p s hlookup _ => ne_of_lookup_erase hlookup,
        fun blk' hblk' => ha blk' (Finset.mem_of_mem_erase hblk'), fun x => ?_, rfl⟩
      simp only [free]
      rw [← hcover x, ← hexact, Nat.add_comm]
      rfl

end CachingAllocator

def AllocInfo.block (info : AllocInfo) : Block :=
  if info.ptr = 0 then ⟨0, 0⟩ else ⟨info.ptr, info.size⟩

namespace CudaDevice

open CachingAllocator

def live (d : CudaDevice) : List Block :=
  d.allocations.map AllocInfo.block

def AsksDevice (d : CudaDevice) (size : ℕ) : Prop :=
  iroundup size pageSize ≠ 0 ∧ d.allocator.findBlock (iroundup size pageSize) = none

instance (d : CudaDevice) (size : ℕ) : Decidable (d.AsksDevice size) :=
  inferInstanceAs (Decidable (_ ∧ _))

/-- The device returns a block of whole pages that it has not returned before. -/
def IsFresh (served : List Block) (b : Block) : Prop :=
  pageSize ∣ b.ptr ∧ ∀ c ∈ served, b.Disjoint c

inductive Reaches : CudaDevice → List Block → Prop
  | init : Reaches init []
  | cached {d d' : CudaDevice} {served : List Block} {size jit : ℕ} :
      Reaches d served → ¬d.AsksDevice size → d.allocateMemoryRuntime size jit = .ok d' →
      Reaches d' served
  | fresh {d d' : CudaDevice} {served : List Block} {size jit : ℕ} :
      Reaches d served → d.AsksDevice size → IsFresh served ⟨jit, iroundup size pageSize⟩ →
      d.allocateMemoryRuntime size jit = .ok d' →
      Reaches d' (⟨jit, iroundup size pageSize⟩ :: served)
  | dealloc {d d' : CudaDevice} {served : List Block} {id : ℕ} :
      Reaches d served → d.deallocMemory id = .ok d' → Reaches d' served

/-- No two blocks of the allocations in use and of `mem_blocks_` have a common address. -/
structure BlocksDisjoint (d : CudaDevice) : Prop where
  live : d.live.Pairwise Block.Disjoint
  free : ∀ blk ∈ d.allocator.memBlocks, ∀ blk' ∈ d.allocator.memBlocks, blk ≠ blk' →
    (freeBlock blk).Disjoint (freeBlock blk')
  live_free : ∀ b ∈ d.live, ∀ blk ∈ d.allocator.memBlocks, b.Disjoint (freeBlock blk)

structure Inv (d : CudaDevice) (served : List Block) : Prop where
  listed : d.allocator.Listed
  allPaged : d.allocator.AllPaged
  livePaged : ∀ info ∈ d.allocations, info.ptr ≠ 0 → Paged ⟨info.ptr, info.size⟩
  cover : ∀ x, cover d.live x + d.allocator.free x = cover served x
  served : ∀ x, Library.Cover.cover served x ≤ 1
  merges : d.allocator.mergeUponRelease = true

variable {d d' : CudaDevice} {served : List Block} {size jit id : ℕ}

theorem iroundup_dvd (size : ℕ) : pageSize ∣ iroundup size pageSize :=
  Dvd.intro_left _ rfl

theorem Inv.free_le (h : Inv d served) (x : ℕ) : d.allocator.free x ≤ 1 := by
  have := h.cover x
  have := h.served x
  omega

theorem init_inv : Inv init [] where
  listed := fun ptr size hlookup => by
    cases hlookup
  allPaged := fun blk hblk => absurd hblk (Finset.notMem_empty blk)
  livePaged := fun info hinfo => absurd hinfo List.not_mem_nil
  cover := fun _ => rfl
  served := fun _ => Nat.zero_le 1
  merges := rfl

theorem Inv.append (h : Inv d served) {allocator : CachingAllocator} {ptr infoSize : ℕ}
    {served' : List Block} (hlisted : allocator.Listed) (hpaged : allocator.AllPaged)
    (hblock : Paged ⟨ptr, infoSize⟩) (hcover : ∀ x, Library.Cover.cover d.live x +
      ((Block.mk ptr infoSize).count x + allocator.free x) = Library.Cover.cover served' x)
    (hserved : ∀ x, Library.Cover.cover served' x ≤ 1)
    (hmerges : allocator.mergeUponRelease = true) :
    Inv ⟨d.allocations ++ [⟨ptr, infoSize⟩], allocator⟩ served' where
  listed := hlisted
  allPaged := hpaged
  livePaged := fun info hinfo hptr => by
    rcases List.mem_append.1 hinfo with hold | hnew
    · exact h.livePaged info hold hptr
    · cases List.mem_singleton.1 hnew
      exact hblock
  cover := fun x => by
    have hptr : ptr ≠ 0 := Nat.pos_iff_ne_zero.1 hblock.ptr_pos
    have hx := hcover x
    simp only [live, List.map_append, List.map_singleton, cover_append, cover_cons, cover_nil,
      AllocInfo.block, if_neg hptr] at hx ⊢
    omega
  served := hserved
  merges := hmerges

theorem allocate_empty_inv (h : Inv d served) (hsize : iroundup size pageSize = 0)
    (hd : d.allocateMemoryRuntime size jit = .ok d') : Inv d' served := by
  simp only [allocateMemoryRuntime, hsize, if_true] at hd
  cases hd
  refine ⟨h.listed, h.allPaged, fun info hinfo hptr => ?_, fun x => ?_, h.served, h.merges⟩
  · rcases List.mem_append.1 hinfo with hold | hnew
    · exact h.livePaged info hold hptr
    · cases List.mem_singleton.1 hnew
      exact absurd rfl hptr
  · have hx := h.cover x
    simpa [live, AllocInfo.block] using hx

theorem allocate_cached_inv (h : Inv d served) (hsize : iroundup size pageSize ≠ 0)
    {blk : ℕ ×ₗ ℕ} (hblk : d.allocator.findBlock (iroundup size pageSize) = some blk)
    (hd : d.allocateMemoryRuntime size jit = .ok d') : Inv d' served := by
  have hpaged := h.allPaged blk (le_of_findBlock hblk).1
  obtain ⟨allocator, htake, hlisted, hallPaged, hfree, hmerges⟩ :=
    takeBlock_spec h.listed h.allPaged h.free_le (Nat.pos_of_ne_zero hsize) (iroundup_dvd size) hblk
  simp only [allocateMemoryRuntime, if_neg hsize, allocate, hblk, htake,
    if_neg (Nat.pos_iff_ne_zero.1 hpaged.ptr_pos : (ofLex blk).2 ≠ 0)] at hd
  cases hd
  refine h.append hlisted hallPaged
    ⟨hpaged.ptr_pos, Nat.pos_of_ne_zero hsize, hpaged.ptr_dvd, iroundup_dvd size⟩ (fun x => ?_)
    h.served (hmerges.trans h.merges)
  rw [← h.cover x, ← hfree x]
  omega

theorem allocate_fresh_inv (h : Inv d served) (hasks : d.AsksDevice size)
    (hfresh : IsFresh served ⟨jit, iroundup size pageSize⟩)
    (hd : d.allocateMemoryRuntime size jit = .ok d') :
    Inv d' (⟨jit, iroundup size pageSize⟩ :: served) := by
  obtain ⟨hsize, hnone⟩ := hasks
  simp only [allocateMemoryRuntime, if_neg hsize, allocate, hnone] at hd
  by_cases hjit : jit = 0
  · rw [if_pos hjit] at hd
    cases hd
  · simp only [if_neg hjit] at hd
    cases hd
    refine h.append h.listed h.allPaged
      ⟨Nat.pos_of_ne_zero hjit, Nat.pos_of_ne_zero hsize, hfresh.1, iroundup_dvd size⟩
      (fun x => ?_) (cover_le_one_of_disjoint h.served hfresh.2) h.merges
    rw [cover_cons, ← h.cover x]
    omega

theorem dealloc_inv (h : Inv d served) (hd : d.deallocMemory id = .ok d') : Inv d' served := by
  unfold deallocMemory at hd
  split at hd
  · cases hd
    exact h
  · split at hd
    · cases hd
    · next info hinfo =>
        split at hd
        · cases hd
          exact h
        · split at hd
          · cases hd
          · next hsize hptr =>
              obtain ⟨hid, hget⟩ := List.getElem?_eq_some_iff.1 hinfo
              have hpaged := h.livePaged info (List.mem_of_getElem? hinfo) hptr
              have hblock : AllocInfo.block info = ⟨info.ptr, info.size⟩ := if_neg hptr
              have hset := fun x => @cover_set d.live id (by simpa [live] using hid) ⟨0, 0⟩ x
              simp only [live, List.getElem_map, hget, hblock, Block.count_empty] at hset
              have hroom : ∀ x, d.allocator.free x + (Block.mk info.ptr info.size).count x ≤ 1 := by
                intro x
                have := hset x
                have := h.cover x
                have := h.served x
                simp only [live] at *
                omega
              obtain ⟨hlisted, hallPaged, hfree, hmerges⟩ :=
                mergeAndInsert_spec h.listed h.allPaged hpaged hroom
              cases hd
              rw [release, if_pos h.merges]
              refine ⟨hlisted, hallPaged, fun info' hinfo' hptr' => ?_, fun x => ?_, h.served,
                hmerges.trans h.merges⟩
              · rcases List.mem_or_eq_of_mem_set hinfo' with hold | rfl
                · exact h.livePaged info' hold hptr'
                · exact absurd rfl hptr'
              · have hx := hset x
                have hcover := h.cover x
                simp only [live, List.map_set, AllocInfo.block, if_true, hfree x] at *
                omega

theorem allocate_inv (h : Inv d served) (hasks : ¬d.AsksDevice size)
    (hd : d.allocateMemoryRuntime size jit = .ok d') : Inv d' served := by
  by_cases hsize : iroundup size pageSize = 0
  · exact allocate_empty_inv h hsize hd
  · cases hblk : d.allocator.findBlock (iroundup size pageSize) with
    | none => exact absurd ⟨hsize, hblk⟩ hasks
    | some blk => exact allocate_cached_inv h hsize hblk hd

theorem reaches_inv (h : Reaches d served) : Inv d served := by
  induction h with
  | init => exact init_inv
  | cached _ hasks hd ih => exact allocate_inv ih hasks hd
  | fresh _ hasks hfresh hd ih => exact allocate_fresh_inv ih hasks hfresh hd
  | dealloc _ hd ih => exact dealloc_inv ih hd

theorem Inv.blocksDisjoint (h : Inv d served) : d.BlocksDisjoint where
  live := pairwise_disjoint_of_cover fun x => by
    have := h.cover x
    have := h.served x
    omega
  free := fun _ hblk _ hblk' hne => disjoint_of_coverSet h.free_le hblk hblk' hne
  live_free := fun b hb blk hblk => Block.disjoint_of_count_le fun x => by
    have hlive := count_le_cover hb x
    have hfree := @count_le_coverSet _ _ freeBlock _ _ hblk x
    have hcover := h.cover x
    have hserved := h.served x
    rw [CachingAllocator.free] at hcover
    omega

end CudaDevice

end Quadrants.Memory
