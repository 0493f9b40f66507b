import Quadrants.Memory.CacheDisjoint

/-!
Calls of `CachingAllocator` when it merges. The probe for the block on the right leaves an entry of
size zero behind the last block, and no later call removes it.
-/

namespace Quadrants.Memory.CachingAllocator

open Library.Cover Finset

inductive Call where
  | allocate (size jit : ℕ)
  | release (sz ptr : ℕ)
  deriving DecidableEq

def empty : CachingAllocator :=
  ⟨∅, ∅, true⟩

def call (a : CachingAllocator) : Call → Except Error CachingAllocator
  | .allocate size jit => (a.allocate size jit).map Prod.snd
  | .release sz ptr => .ok (a.release sz ptr)

def run (a : CachingAllocator) (calls : List Call) : Except Error CachingAllocator :=
  calls.foldlM call a

/-- `ptr_map_` and `mem_blocks_` hold the same blocks, none is empty, and none ends where another
one starts. -/
structure Coalesced (a : CachingAllocator) : Prop where
  same : ∀ ptr size, a.ptrMap.lookup ptr = some size ↔ toLex (size, ptr) ∈ a.memBlocks
  positive : ∀ blk ∈ a.memBlocks, 0 < (ofLex blk).1
  apart : ∀ blk ∈ a.memBlocks, ∀ blk' ∈ a.memBlocks,
    (ofLex blk).2 + (ofLex blk).1 ≠ (ofLex blk').2

structure Below (a : CachingAllocator) (last : ℕ) : Prop where
  positive : ∀ blk ∈ a.memBlocks, 0 < (ofLex blk).1
  blocks : ∀ blk ∈ a.memBlocks, (ofLex blk).2 + (ofLex blk).1 ≤ last
  entries : ∀ ptr size, a.ptrMap.lookup ptr = some size → ptr + size ≤ last

structure Stale (a : CachingAllocator) (last : ℕ) : Prop where
  below : a.Below last
  zero : a.ptrMap.lookup last = some 0

variable {a a' : CachingAllocator} {last ptr size sizeAligned : ℕ} {blk : ℕ ×ₗ ℕ}

theorem below_empty (last : ℕ) : empty.Below last where
  positive := fun _ h => absurd h (notMem_empty _)
  blocks := fun _ h => absurd h (notMem_empty _)
  entries := by
    intro ptr size h
    simp [empty] at h

theorem Below.mono {last' : ℕ} (h : a.Below last) (hle : last ≤ last') : a.Below last' where
  positive := h.positive
  blocks := fun blk hblk => (h.blocks blk hblk).trans hle
  entries := fun ptr size hlookup => (h.entries ptr size hlookup).trans hle

theorem Stale.not_coalesced (h : a.Stale last) : ¬a.Coalesced := by
  intro hcoalesced
  have hmem := (hcoalesced.same last 0).1 h.zero
  exact Nat.lt_irrefl 0 (hcoalesced.positive _ hmem)

theorem coalesced_empty : empty.Coalesced where
  same := by
    simp [empty]
  positive := (below_empty 0).positive
  apart := fun _ h => absurd h (notMem_empty _)

section Probing

variable {m : Finmap fun _ : ℕ => ℕ} {key value : ℕ}

theorem lookup_probed (h : (subscript m key).2.lookup ptr = some size) :
    m.lookup ptr = some size ∨ ptr = key ∧ size = 0 := by
  rcases Nat.eq_zero_or_pos size with rfl | hsize
  · unfold subscript at h
    split at h
    · exact .inl h
    · by_cases heq : ptr = key
      · exact .inr ⟨heq, rfl⟩
      · rw [Finmap.lookup_insert_of_ne m heq] at h
        exact .inl h
  · exact .inl (lookup_subscript h (Nat.ne_of_gt hsize))

theorem lookup_probed_of_some (h : m.lookup ptr = some size) :
    (subscript m key).2.lookup ptr = some size := by
  unfold subscript
  split
  · exact h
  · next hnone =>
      have hne : ptr ≠ key := by
        rintro rfl
        rw [hnone] at h
        cases h
      rw [Finmap.lookup_insert_of_ne m hne]
      exact h

theorem lookup_probed_self (h : (subscript m key).1 = 0) :
    (subscript m key).2.lookup key = some 0 := by
  unfold subscript at h ⊢
  split
  · next hvalue =>
      rw [hvalue] at h
      rw [hvalue, ← show _ = 0 from h]
  · exact Finmap.lookup_insert m

theorem lookup_insertNew_of_some (h : m.lookup ptr = some size) :
    (insertNew m key value).lookup ptr = some size := by
  unfold insertNew
  split
  · exact h
  · next hnone =>
      have hne : ptr ≠ key := by
        rintro rfl
        rw [hnone] at h
        cases h
      rw [Finmap.lookup_insert_of_ne m hne]
      exact h

end Probing

theorem mergeRight_stale (h : a.Below last) (hend : ptr + size ≤ last)
    (hzero : ptr + size = last ∨ a.ptrMap.lookup last = some 0) :
    (a.mergeRight ptr size).1.Stale last ∧ size ≤ (a.mergeRight ptr size).2 ∧
      ptr + (a.mergeRight ptr size).2 ≤ last := by
  simp only [mergeRight]
  split
  · next hprobed =>
      have hlookup := lookup_of_subscript_ne_zero hprobed
      have hbound := h.entries _ _ hlookup
      -- an entry that is not zero starts before the last address
      have hne : last ≠ ptr + size := by omega
      have hlast : a.ptrMap.lookup last = some 0 := hzero.resolve_left fun heq => hne heq.symm
      refine ⟨⟨⟨fun blk hblk => ?_, fun blk hblk => ?_, fun p s hold => ?_⟩, ?_⟩, ?_, ?_⟩
      · exact h.positive blk (mem_of_mem_erase hblk)
      · exact h.blocks blk (mem_of_mem_erase hblk)
      · rcases lookup_probed (ne_of_lookup_erase hold).2 with hold' | ⟨rfl, rfl⟩
        · exact h.entries p s hold'
        · exact hend
      · rw [Finmap.lookup_erase_ne hne]
        exact lookup_probed_of_some hlast
      · exact Nat.le_add_right _ _
      · omega
  · next hprobed =>
      rw [not_not] at hprobed
      refine ⟨⟨⟨h.positive, h.blocks, fun p s hold => ?_⟩, ?_⟩, le_rfl, hend⟩
      · rcases lookup_probed hold with hold' | ⟨rfl, rfl⟩
        · exact h.entries p s hold'
        · exact hend
      · rcases hzero with rfl | hlast
        · exact lookup_probed_self hprobed
        · exact lookup_probed_of_some hlast

theorem mergeLeft_stale (h : a.Stale last) (hsize : 0 < size) (hend : ptr + size ≤ last) :
    (a.mergeLeft ptr size).1.Stale last ∧ 0 < (a.mergeLeft ptr size).2.2 ∧
      (a.mergeLeft ptr size).2.1 + (a.mergeLeft ptr size).2.2 ≤ last := by
  simp only [mergeLeft]
  split
  · next first hfirst =>
      split
      · next hadjacent =>
          have hne : last ≠ first := by omega
          refine ⟨⟨⟨fun blk hblk => ?_, fun blk hblk => ?_, fun p s hold => ?_⟩, ?_⟩, ?_, ?_⟩
          · exact h.below.positive blk (mem_of_mem_erase hblk)
          · exact h.below.blocks blk (mem_of_mem_erase hblk)
          · exact h.below.entries p s (ne_of_lookup_erase hold).2
          · rw [Finmap.lookup_erase_ne hne]
            exact h.zero
          · exact Nat.add_pos_left hsize _
          · dsimp only
            omega
      · exact ⟨h, hsize, hend⟩
  · exact ⟨h, hsize, hend⟩

theorem insertBlock_stale (h : a.Stale last) (hsize : 0 < size) (hend : ptr + size ≤ last) :
    (a.insertBlock ptr size).Stale last := by
  have hne : last ≠ ptr := by omega
  refine ⟨⟨fun blk hblk => ?_, fun blk hblk => ?_, fun p s hold => ?_⟩, ?_⟩
  · rcases mem_insert.1 hblk with rfl | hblk
    · exact hsize
    · exact h.below.positive blk hblk
  · rcases mem_insert.1 hblk with rfl | hblk
    · exact hend
    · exact h.below.blocks blk hblk
  · simp only [insertBlock] at hold
    by_cases heq : p = ptr
    · subst heq
      rw [Finmap.lookup_insert] at hold
      cases hold
      exact hend
    · rw [Finmap.lookup_insert_of_ne _ heq] at hold
      exact h.below.entries p s hold
  · simp only [insertBlock]
    rw [Finmap.lookup_insert_of_ne _ hne]
    exact h.zero

theorem release_stale (hmerge : a.mergeUponRelease = true) (h : a.Below last) (hsize : 0 < size)
    (hend : ptr + size ≤ last) (hzero : ptr + size = last ∨ a.ptrMap.lookup last = some 0) :
    (a.release size ptr).Stale last := by
  obtain ⟨hright, hgrow, hrightEnd⟩ := mergeRight_stale h hend hzero
  obtain ⟨hleft, hpos, hleftEnd⟩ := mergeLeft_stale hright (hsize.trans_le hgrow) hrightEnd
  simp only [release, if_pos hmerge]
  exact insertBlock_stale hleft hpos hleftEnd

theorem exists_release_stale (hmerge : a.mergeUponRelease = true)
    (h : a = empty ∨ ∃ last, a.Stale last) (hsize : 0 < size) (ptr : ℕ) :
    ∃ last, (a.release size ptr).Stale last := by
  rcases h with rfl | ⟨last, hstale⟩
  · exact ⟨ptr + size, release_stale hmerge (below_empty _) hsize le_rfl (.inl rfl)⟩
  · rcases Nat.le_total (ptr + size) last with hle | hle
    · exact ⟨last, release_stale hmerge hstale.below hsize hle (.inr hstale.zero)⟩
    · exact ⟨ptr + size, release_stale hmerge (hstale.below.mono hle) hsize le_rfl (.inl rfl)⟩

theorem release_mergeUponRelease (a : CachingAllocator) (sz ptr : ℕ) :
    (a.release sz ptr).mergeUponRelease = a.mergeUponRelease := by
  have hright : ∀ a : CachingAllocator, ∀ ptr size,
      (a.mergeRight ptr size).1.mergeUponRelease = a.mergeUponRelease := by
    intro a ptr size
    simp only [mergeRight]
    split <;> rfl
  have hleft : ∀ a : CachingAllocator, ∀ ptr size,
      (a.mergeLeft ptr size).1.mergeUponRelease = a.mergeUponRelease := by
    intro a ptr size
    simp only [mergeLeft]
    split
    · split <;> rfl
    · rfl
  unfold release
  split
  · exact (hleft _ _ _).trans (hright _ _ _)
  · split <;> rfl

variable {calls : List Call} {ret : ℕ}

theorem allocate_ok {size jit : ℕ} (h : a.allocate size jit = .ok (ret, a')) :
    a' = a ∨ ∃ sizeAligned blk, a.findBlock sizeAligned = some blk ∧
      a.takeBlock sizeAligned blk = .ok (ret, a') := by
  simp only [allocate] at h
  split at h
  · next blk hblk => exact .inr ⟨_, blk, hblk, h⟩
  · split at h
    · cases h
    · cases h
      exact .inl rfl

theorem takeBlock_mergeUponRelease (h : a.takeBlock sizeAligned blk = .ok (ret, a')) :
    a'.mergeUponRelease = a.mergeUponRelease := by
  simp only [takeBlock] at h
  split at h
  · split at h
    · cases h
      rfl
    · cases h
  · cases h
    rfl

theorem takeBlock_stale (hstale : a.Stale last) (hblk : a.findBlock sizeAligned = some blk)
    (h : a.takeBlock sizeAligned blk = .ok (ret, a')) : a'.Stale last := by
  obtain ⟨hmem, hle⟩ := le_of_findBlock hblk
  have hpos := hstale.below.positive blk hmem
  have hend := hstale.below.blocks blk hmem
  have hne : last ≠ (ofLex blk).2 := by omega
  simp only [takeBlock] at h
  split at h
  · next hremaining =>
      split at h
      · cases h
        refine ⟨⟨fun blk' hblk' => ?_, fun blk' hblk' => ?_, fun p s hold => ?_⟩, ?_⟩
        · rcases mem_insert.1 (mem_of_mem_erase hblk') with rfl | hblk'
          · exact hremaining
          · exact hstale.below.positive blk' hblk'
        · rcases mem_insert.1 (mem_of_mem_erase hblk') with rfl | hblk'
          · simp only [ofLex_toLex]
            omega
          · exact hstale.below.blocks blk' hblk'
        · rcases lookup_insertNew (ne_of_lookup_erase hold).2 with hold' | ⟨rfl, rfl⟩
          · exact hstale.below.entries p s hold'
          · omega
        · rw [Finmap.lookup_erase_ne hne]
          exact lookup_insertNew_of_some hstale.zero
      · cases h
  · cases h
    refine ⟨⟨fun blk' hblk' => ?_, fun blk' hblk' => ?_, fun p s hold => ?_⟩, ?_⟩
    · exact hstale.below.positive blk' (mem_of_mem_erase hblk')
    · exact hstale.below.blocks blk' (mem_of_mem_erase hblk')
    · exact hstale.below.entries p s (ne_of_lookup_erase hold).2
    · rw [Finmap.lookup_erase_ne hne]
      exact hstale.zero

/-- The state after calls that return: whether one of them is a release decides which part holds. -/
structure After (a : CachingAllocator) (calls : List Call) : Prop where
  merges : a.mergeUponRelease = true
  fresh : (∀ sz ptr, Call.release sz ptr ∉ calls) → a = empty
  stale : (∃ sz ptr, Call.release sz ptr ∈ calls) → ∃ last, a.Stale last

theorem After.empty_or_stale (h : a.After calls) : a = empty ∨ ∃ last, a.Stale last := by
  by_cases hreleased : ∃ sz ptr, Call.release sz ptr ∈ calls
  · exact .inr (h.stale hreleased)
  · exact .inl (h.fresh fun sz ptr hmem => hreleased ⟨sz, ptr, hmem⟩)

theorem After.call {c : Call} (h : a.After calls) (hc : a.call c = .ok a')
    (hpos : ∀ sz ptr, c = .release sz ptr → 0 < sz) : a'.After (calls ++ [c]) := by
  cases c with
  | release sz ptr =>
    cases hc
    refine ⟨(release_mergeUponRelease a sz ptr).trans h.merges, fun hnone => ?_, fun _ => ?_⟩
    · exact absurd (List.mem_append_right _ (List.mem_singleton.2 rfl)) (hnone sz ptr)
    · exact exists_release_stale h.merges h.empty_or_stale (hpos sz ptr rfl) ptr
  | allocate size jit =>
    obtain ⟨⟨ret, a''⟩, hallocate, rfl⟩ : ∃ r, a.allocate size jit = .ok r ∧ r.2 = a' := by
      rcases hr : a.allocate size jit with e | r
      · simp [CachingAllocator.call, hr, Except.map] at hc
      · simpa [CachingAllocator.call, hr, Except.map] using hc
    have hkeep : ∀ sz ptr, Call.release sz ptr ∈ calls ++ [.allocate size jit] ↔
        Call.release sz ptr ∈ calls := by
      simp
    rcases allocate_ok hallocate with rfl | ⟨sizeAligned, blk, hblk, htake⟩
    · exact ⟨h.merges, by simpa only [hkeep] using h.fresh, by simpa only [hkeep] using h.stale⟩
    · refine ⟨(takeBlock_mergeUponRelease htake).trans h.merges, fun hnone => ?_, fun hsome => ?_⟩
      · simp only [hkeep] at hnone
        rw [h.fresh hnone] at hblk
        cases hblk
      · simp only [hkeep] at hsome
        obtain ⟨last, hstale⟩ := h.stale hsome
        exact ⟨last, takeBlock_stale hstale hblk htake⟩

theorem run_after (h : run empty calls = .ok a)
    (hpos : ∀ sz ptr, Call.release sz ptr ∈ calls → 0 < sz) : a.After calls := by
  induction calls using List.reverseRecOn generalizing a with
  | nil =>
    cases h
    exact ⟨rfl, fun _ => rfl, by simp⟩
  | append_singleton calls c ih =>
    rw [run, List.foldlM_append] at h
    rcases hmid : run empty calls with e | mid
    · rw [run] at hmid
      simp [hmid, Bind.bind, Except.bind] at h
    · have hlast : mid.call c = .ok a := by
        rw [run] at hmid
        rw [hmid] at h
        exact (bind_pure (mid.call c)).symm.trans h
      have hafter := ih hmid fun sz ptr hmem => hpos sz ptr (List.mem_append_left _ hmem)
      refine hafter.call hlast fun sz ptr heq => hpos sz ptr ?_
      rw [heq]
      exact List.mem_append_right _ (List.mem_singleton.2 rfl)

/-- A run leaves the blocks coalesced exactly when it releases none. -/
theorem run_coalesced_iff {calls : List Call} (h : run empty calls = .ok a)
    (hpos : ∀ sz ptr, Call.release sz ptr ∈ calls → 0 < sz) :
    a.Coalesced ↔ ∀ sz ptr, Call.release sz ptr ∉ calls := by
  have hafter := run_after h hpos
  constructor
  · intro hcoalesced sz ptr hmem
    obtain ⟨last, hstale⟩ := hafter.stale ⟨sz, ptr, hmem⟩
    exact hstale.not_coalesced hcoalesced
  · intro hnone
    rw [hafter.fresh hnone]
    exact coalesced_empty

def threePages : List Call :=
  [.release 4096 4096, .release 4096 8192, .release 4096 12288]

/-- The first two become one block and the third stays beside it: the entry of size zero that the
first release left between them is the nearest one on the left. -/
theorem threePages_not_coalesced :
    ∃ a, run empty threePages = .ok a ∧ a.ptrMap.lookup 16384 = some 0 ∧
      toLex (8192, 4096) ∈ a.memBlocks ∧ toLex (4096, 12288) ∈ a.memBlocks ∧ ¬a.Coalesced := by
  refine ⟨_, rfl, by decide, by decide, by decide, fun h => ?_⟩
  exact h.apart (toLex (8192, 4096)) (by decide) (toLex (4096, 12288)) (by decide) rfl

theorem run_coalesced_iff_threePages : ∃ a, run empty threePages = .ok a ∧
      (a.Coalesced ↔ ∀ sz ptr, Call.release sz ptr ∉ threePages) := by
  refine ⟨_, rfl, run_coalesced_iff rfl fun sz ptr h => ?_⟩
  simp only [threePages, List.mem_cons, Call.release.injEq, List.not_mem_nil, or_false] at h
  omega

end Quadrants.Memory.CachingAllocator
