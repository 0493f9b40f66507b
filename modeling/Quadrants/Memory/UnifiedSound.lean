import Mathlib.Data.List.Pairwise
import Mathlib.Data.List.Perm.Basic
import Mathlib.Order.Basic
import Quadrants.Library.StatefulLoops
import Quadrants.Memory.UnifiedAllocator

namespace Quadrants.Memory

open List Nat Bool

open Library.StatefulLoops (bind_eq_ok)

structure Allocation where
  ptr : ℕ
  size : ℕ
  alignment : ℕ
  exclusive : Bool
  deriving DecidableEq, Repr

namespace HostMemoryPool

def Apart (p q : ℕ × ℕ) : Prop :=
  p.1 + p.2 ≤ q.1 ∨ q.1 + q.2 ≤ p.1

structure RawMemory (raw : List (ℕ × ℕ)) (ptr size : ℕ) : Prop where
  ne_zero : ptr ≠ 0
  aligned : pageSize ∣ ptr
  lt : ptr + size < 2 ^ 64
  apart : ∀ entry ∈ raw, Apart (ptr, size) entry

def firstAccepting (size alignment : ℕ) (chunks : List MemoryChunk) : Option MemoryChunk :=
  chunks.find? fun chunk =>
    !chunk.isExclusive && decide (wrap (alignedHead chunk.head alignment + size) ≤ chunk.tail)

def target (pool : HostMemoryPool) (size alignment : ℕ) (exclusive : Bool) : Option MemoryChunk :=
  if exclusive then none else firstAccepting size alignment pool.chunks

/-- A new chunk is aligned to pages only, and in an old one no sum may wrap around. -/
def GoodCall (pool : HostMemoryPool) (size alignment : ℕ) (exclusive : Bool) : Prop :=
  match pool.target size alignment exclusive with
  | some chunk =>
    chunk.head + alignment - 1 < 2 ^ 64 ∧ alignedHead chunk.head alignment + size < 2 ^ 64
  | none => alignment ∣ pageSize

structure System where
  pool : HostMemoryPool
  live : List Allocation

def System.init : System :=
  ⟨⟨[], []⟩, []⟩

section Runs

variable (defaultAllocatorSize : ℕ)

/-- A call that raises leaves the pool as it is. Releasing a pointer ends the exclusive allocation
there; shared allocations stay to the end. -/
inductive Step (Allowed : HostMemoryPool → ℕ → ℕ → Bool → Prop) : System → System → Prop where
  | allocate {s : System} {size alignment : ℕ} {exclusive : Bool} {mapped : Option ℕ} {ptr : ℕ}
      {pool : HostMemoryPool} :
      Allowed s.pool size alignment exclusive →
      (∀ raw, mapped = some raw → RawMemory s.pool.rawMemoryChunks raw
        (allocationSize defaultAllocatorSize size exclusive)) →
      s.pool.allocate defaultAllocatorSize size alignment exclusive mapped = .ok (ptr, pool) →
      Step Allowed s ⟨pool, ⟨ptr, size, alignment, exclusive⟩ :: s.live⟩
  | release {s : System} {ptr : ℕ} {pool : HostMemoryPool} :
      s.pool.release ptr = .ok pool →
      Step Allowed s ⟨pool, s.live.filter fun a => !(a.exclusive && a.ptr == ptr)⟩

inductive Reaches (Allowed : HostMemoryPool → ℕ → ℕ → Bool → Prop) : System → Prop where
  | init : Reaches Allowed .init
  | step {s s' : System} : Reaches Allowed s → Step defaultAllocatorSize Allowed s s' →
      Reaches Allowed s'

end Runs

structure Sound (s : System) : Prop where
  aligned : ∀ a ∈ s.live, a.alignment ∣ a.ptr
  apart : s.live.Pairwise fun a b => Apart (a.ptr, a.size) (b.ptr, b.size)
  inside : ∀ a ∈ s.live, ∃ chunk ∈ s.pool.chunks,
    chunk.data ≤ a.ptr ∧ a.ptr + a.size ≤ chunk.tail
  release : ∀ chunk ∈ s.pool.chunks, chunk.isExclusive = true → ∃ pool,
    s.pool.release chunk.data = .ok pool ∧ s.pool.chunks.Perm (chunk :: pool.chunks) ∧
      pool.rawMemoryChunks = s.pool.rawMemoryChunks.filter fun entry => entry.1 != chunk.data

section Invariant

def ChunksApart (c d : MemoryChunk) : Prop :=
  c.data ≠ d.data ∧ (c.tail ≤ d.data ∨ d.tail ≤ c.data)

theorem ChunksApart.symm {c d : MemoryChunk} (h : ChunksApart c d) : ChunksApart d c :=
  ⟨h.1.symm, h.2.symm⟩

instance : Std.Symm ChunksApart :=
  ⟨fun _ _ h => h.symm⟩

/-- Every chunk is raw memory of its own, and every allocation is in the used part of a chunk. -/
structure Inv (s : System) : Prop where
  bounds : ∀ chunk ∈ s.pool.chunks,
    chunk.data ≤ chunk.head ∧ chunk.head ≤ chunk.tail ∧ chunk.tail < 2 ^ 64
  mapped : ∀ chunk ∈ s.pool.chunks,
    (chunk.data, chunk.tail - chunk.data) ∈ s.pool.rawMemoryChunks
  chunksApart : s.pool.chunks.Pairwise ChunksApart
  aligned : ∀ a ∈ s.live, a.alignment ∣ a.ptr
  used : ∀ a ∈ s.live, ∃ chunk ∈ s.pool.chunks, chunk.isExclusive = a.exclusive ∧
    chunk.data ≤ a.ptr ∧ a.ptr + a.size ≤ chunk.head ∧ (a.exclusive = true → a.ptr = chunk.data)
  apart : s.live.Pairwise fun a b => Apart (a.ptr, a.size) (b.ptr, b.size)

theorem inv_init : Inv .init where
  bounds := fun _ h => nomatch h
  mapped := fun _ h => nomatch h
  chunksApart := .nil
  aligned := fun _ h => nomatch h
  used := fun _ h => nomatch h
  apart := .nil

end Invariant

section Allocate

variable {size alignment : ℕ}

def Found (size alignment : ℕ) (chunks : List MemoryChunk) :
    Option (ℕ × List MemoryChunk) → Prop
  | none => firstAccepting size alignment chunks = none
  | some (ptr, chunks') => ∃ before chunk after, chunks = before ++ chunk :: after ∧
      firstAccepting size alignment chunks = some chunk ∧ chunk.isExclusive = false ∧
      0 < alignment ∧ ptr = alignedHead chunk.head alignment ∧ wrap (ptr + size) ≤ chunk.tail ∧
      chunks' = before ++ { chunk with head := wrap (ptr + size) } :: after

theorem Found.cons {chunk : MemoryChunk} {rest : List MemoryChunk}
    {found : Option (ℕ × List MemoryChunk)} (h : Found size alignment rest found)
    (hnot : (!chunk.isExclusive &&
      decide (wrap (alignedHead chunk.head alignment + size) ≤ chunk.tail)) = false) :
    Found size alignment (chunk :: rest) (found.map fun (ptr, rest) => (ptr, chunk :: rest)) := by
  have hfirst : firstAccepting size alignment (chunk :: rest) =
      firstAccepting size alignment rest := by
    rw [firstAccepting, List.find?_cons, hnot]
    rfl
  match found with
  | none => exact hfirst.trans h
  | some (ptr, rest') =>
    obtain ⟨before, taken, after, rfl, htaken, hshared, hpos, hptr, hfits, rfl⟩ := h
    exact ⟨chunk :: before, taken, after, rfl, hfirst.trans htaken, hshared, hpos, hptr, hfits, rfl⟩

theorem allocateInChunks_ok {chunks : List MemoryChunk} {found : Option (ℕ × List MemoryChunk)}
    (h : allocateInChunks size alignment chunks = .ok found) :
    Found size alignment chunks found := by
  induction chunks generalizing found with
  | nil =>
    rw [allocateInChunks, Except.ok.injEq] at h
    subst h
    rfl
  | cons chunk rest ih =>
    rw [allocateInChunks] at h
    by_cases hexclusive : chunk.isExclusive = true
    · rw [if_pos hexclusive] at h
      obtain ⟨found', hrest, hmap⟩ := bind_eq_ok.1 h
      cases hmap
      refine (ih hrest).cons ?_
      rw [hexclusive, Bool.not_true, Bool.false_and]
    · rw [if_neg hexclusive] at h
      by_cases hzero : alignment = 0
      · rw [if_pos hzero] at h
        cases h
      · rw [if_neg hzero] at h
        by_cases hfits : wrap (alignedHead chunk.head alignment + size) ≤ chunk.tail
        · rw [if_pos hfits] at h
          split at h
          · cases h
            have hshared := eq_false_of_ne_true hexclusive
            refine ⟨[], chunk, rest, rfl, ?_, hshared, Nat.pos_of_ne_zero hzero, rfl, hfits, rfl⟩
            rw [firstAccepting, List.find?_cons, hshared, decide_eq_true hfits]
            rfl
          · cases h
        · rw [if_neg hfits] at h
          obtain ⟨found', hrest, hmap⟩ := bind_eq_ok.1 h
          cases hmap
          refine (ih hrest).cons ?_
          rw [decide_eq_false hfits, Bool.and_false]

theorem searchChunks_ok {pool : HostMemoryPool} {exclusive : Bool}
    {found : Option (ℕ × List MemoryChunk)}
    (h : pool.searchChunks size alignment exclusive = .ok found) :
    (exclusive = false ∧ Found size alignment pool.chunks found) ∨
      (pool.target size alignment exclusive = none ∧ found = none) := by
  rw [searchChunks] at h
  split at h
  · next hsearch =>
      rw [and_eq_true, not_eq_true', not_eq_true'] at hsearch
      exact .inl ⟨hsearch.2, allocateInChunks_ok h⟩
  · next hskip =>
      cases h
      rw [and_eq_true, not_eq_true', not_eq_true', not_and_or] at hskip
      refine .inr ⟨?_, rfl⟩
      rw [target]
      split
      · rfl
      · next hshared =>
          rcases hskip with hskip | hskip
          · rw [List.isEmpty_iff.1 (eq_true_of_ne_false hskip)]
            rfl
          · exact absurd (eq_false_of_ne_true hshared) hskip

theorem allocateNewChunk_ok {defaultAllocatorSize : ℕ} {pool pool' : HostMemoryPool}
    {exclusive : Bool} {mapped : Option ℕ} {ptr : ℕ}
    (h : pool.allocateNewChunk defaultAllocatorSize size exclusive mapped = .ok (ptr, pool')) :
    mapped = some ptr ∧ (∀ entry ∈ pool.rawMemoryChunks, entry.1 ≠ ptr) ∧
      pool' = ⟨pool.chunks ++ [⟨exclusive, ptr, wrap (ptr + size),
        wrap (ptr + allocationSize defaultAllocatorSize size exclusive)⟩],
        (ptr, allocationSize defaultAllocatorSize size exclusive) :: pool.rawMemoryChunks⟩ := by
  obtain ⟨⟨ptr', raw⟩, hraw, hrest⟩ := bind_eq_ok.1 h
  cases mapped with
  | none => cases hraw
  | some mem =>
    rw [allocateRawMemory] at hraw
    split at hraw
    · cases hraw
    · split at hraw
      · cases hraw
      · next hnew =>
          cases hraw
          dsimp only at hrest
          split at hrest
          · cases hrest
          · cases hrest
            refine ⟨rfl, ?_, rfl⟩
            intro entry hentry heq
            exact hnew (any_eq_true.2 ⟨entry, hentry, beq_iff_eq.2 heq⟩)

theorem allocate_ok {defaultAllocatorSize : ℕ} {pool pool' : HostMemoryPool} {exclusive : Bool}
    {mapped : Option ℕ} {ptr : ℕ}
    (h : pool.allocate defaultAllocatorSize size alignment exclusive mapped = .ok (ptr, pool')) :
    (exclusive = false ∧ ∃ chunks, Found size alignment pool.chunks (some (ptr, chunks)) ∧
      pool' = { pool with chunks }) ∨
    (pool.target size alignment exclusive = none ∧
      pool.allocateNewChunk defaultAllocatorSize size exclusive mapped = .ok (ptr, pool')) := by
  obtain ⟨found, hfound, hrest⟩ := bind_eq_ok.1 h
  match found, searchChunks_ok hfound with
  | some (ptr', chunks), .inl ⟨hshared, hsome⟩ =>
    cases hrest
    exact .inl ⟨hshared, chunks, hsome, rfl⟩
  | none, .inl ⟨hshared, hnone⟩ =>
    refine .inr ⟨?_, hrest⟩
    rw [hshared]
    exact hnone
  | none, .inr ⟨hnone, _⟩ => exact .inr ⟨hnone, hrest⟩

theorem alignedHead_dvd (head alignment : ℕ) : alignment ∣ alignedHead head alignment :=
  dvd_sub_mod _

theorem le_alignedHead {head : ℕ} (hpos : 0 < alignment) (h : head + alignment - 1 < 2 ^ 64) :
    head ≤ alignedHead head alignment := by
  have hmod := mod_lt (head + alignment - 1) hpos
  rw [alignedHead, wrap, mod_eq_of_lt h]
  omega

end Allocate

section AllocateKeeps

variable {defaultAllocatorSize size alignment ptr : ℕ} {s : System} {exclusive : Bool}

theorem mem_middle {α : Type} {before after : List α} {x y z : α} (h : z ∈ before ++ x :: after) :
    z = x ∨ z ∈ before ++ y :: after := by
  rw [mem_append, mem_cons] at h ⊢
  rcases h with h | h | h
  · exact .inr (.inl h)
  · exact .inl h
  · exact .inr (.inr (.inr h))

theorem Inv.allocate_shared (hs : Inv s) (hgood : GoodCall s.pool size alignment false)
    {chunks : List MemoryChunk} (h : Found size alignment s.pool.chunks (some (ptr, chunks))) :
    Inv ⟨{ s.pool with chunks }, ⟨ptr, size, alignment, false⟩ :: s.live⟩ := by
  obtain ⟨before, chunk, after, hchunks, hfirst, hshared, hpos, rfl, hfits, rfl⟩ := h
  have htarget : s.pool.target size alignment false = some chunk := hfirst
  rw [GoodCall, htarget] at hgood
  obtain ⟨hround, hsum⟩ := hgood
  have hle := le_alignedHead hpos hround
  have hwrap : wrap (alignedHead chunk.head alignment + size) =
      alignedHead chunk.head alignment + size := mod_eq_of_lt hsum
  rw [hwrap] at hfits ⊢
  have hmem : chunk ∈ s.pool.chunks := by
    rw [hchunks]
    exact mem_append_right _ mem_cons_self
  have hbounds := hs.bounds chunk hmem
  -- another chunk is also one of the old ones
  have hold : ∀ c ∈ before ++
      { chunk with head := alignedHead chunk.head alignment + size } :: after,
      c = { chunk with head := alignedHead chunk.head alignment + size } ∨ c ∈ s.pool.chunks := by
    intro c hc
    rw [hchunks]
    exact mem_middle hc
  constructor
  case bounds =>
      intro c hc
      rcases hold c hc with rfl | hc
      · refine ⟨?_, hfits, hbounds.2.2⟩
        show chunk.data ≤ alignedHead chunk.head alignment + size
        omega
      · exact hs.bounds c hc
  case mapped =>
      intro c hc
      rcases hold c hc with rfl | hc
      · exact hs.mapped chunk hmem
      · exact hs.mapped c hc
  case chunksApart =>
      have hapart := hs.chunksApart
      rw [hchunks, pairwise_append, pairwise_cons] at hapart
      rw [pairwise_append, pairwise_cons]
      obtain ⟨hbefore, ⟨hchunk, hafter⟩, hcross⟩ := hapart
      refine ⟨hbefore, ⟨hchunk, hafter⟩, fun c hc d hd => ?_⟩
      rcases mem_cons.1 hd with rfl | hd
      · exact hcross c hc chunk mem_cons_self
      · exact hcross c hc d (mem_cons_of_mem _ hd)
  case aligned =>
      intro a ha
      rcases mem_cons.1 ha with rfl | ha
      · exact alignedHead_dvd _ _
      · exact hs.aligned a ha
  case used =>
      intro a ha
      rcases mem_cons.1 ha with rfl | ha
      · refine ⟨_, mem_append_right _ mem_cons_self, hshared, ?_, Nat.le_refl _, ?_⟩
        · show chunk.data ≤ alignedHead chunk.head alignment
          omega
        · exact fun h => absurd h Bool.false_ne_true
      · obtain ⟨c, hc, hexclusive, hdata, hend, hstart⟩ := hs.used a ha
        rw [hchunks] at hc
        rcases mem_middle hc with rfl | hc
        · refine ⟨_, mem_append_right _ mem_cons_self, hexclusive, hdata, ?_, hstart⟩
          show a.ptr + a.size ≤ alignedHead c.head alignment + size
          omega
        · exact ⟨c, hc, hexclusive, hdata, hend, hstart⟩
  case apart =>
      refine pairwise_cons.2 ⟨fun a ha => ?_, hs.apart⟩
      obtain ⟨c, hc, -, hdata, hend, -⟩ := hs.used a ha
      rw [Apart]
      by_cases hsame : c = chunk
      · subst hsame
        right
        show a.ptr + a.size ≤ alignedHead c.head alignment
        omega
      · have hapart := hs.chunksApart.forall hc hmem hsame
        have hbound := hs.bounds c hc
        obtain ⟨-, hapart⟩ := hapart
        dsimp only
        omega

theorem Inv.allocate_new (hs : Inv s) {mapped : Option ℕ} {pool : HostMemoryPool}
    (hgood : alignment ∣ pageSize)
    (hmem : ∀ raw, mapped = some raw → RawMemory s.pool.rawMemoryChunks raw
      (allocationSize defaultAllocatorSize size exclusive))
    (h : s.pool.allocateNewChunk defaultAllocatorSize size exclusive mapped = .ok (ptr, pool)) :
    Inv ⟨pool, ⟨ptr, size, alignment, exclusive⟩ :: s.live⟩ := by
  obtain ⟨rfl, hnew, rfl⟩ := allocateNewChunk_ok h
  have hraw := hmem ptr rfl
  have hsize : size ≤ allocationSize defaultAllocatorSize size exclusive := by
    rw [allocationSize]
    split
    · exact Nat.le_refl _
    · exact Nat.le_max_left _ _
  have hlt := hraw.lt
  have hhead : wrap (ptr + size) = ptr + size := mod_eq_of_lt (by omega)
  have htail : wrap (ptr + allocationSize defaultAllocatorSize size exclusive) =
      ptr + allocationSize defaultAllocatorSize size exclusive := mod_eq_of_lt hlt
  rw [hhead, htail]
  have hfar : ∀ c ∈ s.pool.chunks, c.data ≠ ptr ∧
      (c.tail ≤ ptr ∨ ptr + allocationSize defaultAllocatorSize size exclusive ≤ c.data) := by
    intro c hc
    have hapart := hraw.apart _ (hs.mapped c hc)
    rw [Apart] at hapart
    exact ⟨hnew _ (hs.mapped c hc), by omega⟩
  constructor
  case bounds =>
      intro c hc
      rcases mem_append.1 hc with hc | hc
      · exact hs.bounds c hc
      · rw [mem_singleton] at hc
        subst hc
        dsimp only
        omega
  case mapped =>
      intro c hc
      rcases mem_append.1 hc with hc | hc
      · exact mem_cons_of_mem _ (hs.mapped c hc)
      · rw [mem_singleton] at hc
        subst hc
        rw [Nat.add_sub_cancel_left]
        exact mem_cons_self
  case chunksApart =>
      refine pairwise_append.2 ⟨hs.chunksApart, pairwise_singleton _ _, ?_⟩
      intro c hc d hd
      rw [mem_singleton] at hd
      subst hd
      exact hfar c hc
  case aligned =>
      intro a ha
      rcases mem_cons.1 ha with rfl | ha
      · exact Nat.dvd_trans hgood hraw.aligned
      · exact hs.aligned a ha
  case used =>
      intro a ha
      rcases mem_cons.1 ha with rfl | ha
      · exact ⟨_, mem_append_right _ (mem_singleton.2 rfl), rfl, Nat.le_refl _,
          Nat.le_refl _, fun _ => rfl⟩
      · obtain ⟨c, hc, hrest⟩ := hs.used a ha
        exact ⟨c, mem_append_left _ hc, hrest⟩
  case apart =>
      refine pairwise_cons.2 ⟨fun a ha => ?_, hs.apart⟩
      obtain ⟨c, hc, -, hdata, hend, -⟩ := hs.used a ha
      have hbound := hs.bounds c hc
      have hapart := (hfar c hc).2
      rw [Apart]
      dsimp only
      omega

end AllocateKeeps

section ReleaseKeeps

theorem perm_swapErase {α : Type} (vec : List α) {idx : ℕ} (h : idx < vec.length) :
    vec.Perm (vec[idx] :: swapErase vec idx) := by
  have hne : vec ≠ [] := ne_nil_of_length_pos (by omega)
  rw [swapErase, List.getElem?_eq_getElem h, List.getLast?_eq_getLast_of_ne_nil hne]
  dsimp only
  split
  · next hlast =>
      subst hlast
      have hback : vec[vec.length - 1] = vec.getLast hne := (getLast_eq_getElem hne).symm
      rw [hback]
      have hperm := perm_append_singleton (vec.getLast hne) vec.dropLast
      rwa [dropLast_append_getLast hne] at hperm
  · next hmid =>
      -- the last element takes the place of the erased one
      have hlt : idx < vec.dropLast.length := by
        rw [length_dropLast]
        omega
      have hset : ((vec.set idx (vec.getLast hne)).set (vec.length - 1) vec[idx]).dropLast =
          vec.dropLast.set idx (vec.getLast hne) := by
        refine ext_getElem ?_ fun i hi _ => ?_
        · rw [length_dropLast, length_set, length_set, length_set, length_dropLast]
        · rw [length_dropLast, length_set, length_set] at hi
          rw [getElem_dropLast, getElem_set_ne (by omega), getElem_set,
            getElem_set, getElem_dropLast]
      have hback := perm_append_singleton (vec.getLast hne) vec.dropLast
      rw [dropLast_append_getLast hne] at hback
      have herased : vec.dropLast.Perm (vec[idx] :: vec.dropLast.eraseIdx idx) := by
        have hperm := getElem_cons_eraseIdx_perm hlt
        rw [getElem_dropLast] at hperm
        exact hperm.symm
      have hput := set_perm_cons_eraseIdx hlt (vec.getLast hne)
      rw [hset]
      exact hback.trans ((herased.cons _).trans ((List.Perm.swap _ _ _).trans (hput.symm.cons _)))

theorem removeIdx_ok {ptr : ℕ} {chunks : List MemoryChunk} {idx : ℕ} {removed found : Option ℕ}
    (h : removeIdx ptr chunks idx removed = .ok found) :
    (found = removed ∧ ∀ c ∈ chunks, c.data ≠ ptr) ∨
      ∃ i, ∃ hi : i < chunks.length, found = some (idx + i) ∧ chunks[i].data = ptr ∧
        chunks[i].isExclusive = true := by
  induction chunks generalizing idx removed with
  | nil =>
    cases h
    exact .inl ⟨rfl, fun c hc => nomatch hc⟩
  | cons chunk rest ih =>
    rw [removeIdx] at h
    split at h
    · next hdata =>
        split at h
        · next hexclusive =>
            right
            rcases ih h with ⟨rfl, -⟩ | ⟨i, hi, rfl, hrest⟩
            · exact ⟨0, zero_lt_succ _, rfl, hdata, hexclusive⟩
            · refine ⟨i + 1, succ_lt_succ hi, ?_, hrest⟩
              rw [Nat.add_right_comm, Nat.add_assoc]
        · cases h
    · next hdata =>
        rcases ih h with ⟨rfl, hnone⟩ | ⟨i, hi, rfl, hrest⟩
        · refine .inl ⟨rfl, fun c hc => ?_⟩
          rcases mem_cons.1 hc with rfl | hc
          · exact hdata
          · exact hnone c hc
        · refine .inr ⟨i + 1, succ_lt_succ hi, ?_, hrest⟩
          rw [Nat.add_right_comm, Nat.add_assoc]

theorem release_ok {pool pool' : HostMemoryPool} {ptr : ℕ} (h : pool.release ptr = .ok pool') :
    (pool' = pool ∧ ∀ c ∈ pool.chunks, c.data ≠ ptr) ∨
      ∃ chunk, chunk.data = ptr ∧ chunk.isExclusive = true ∧
        pool.chunks.Perm (chunk :: pool'.chunks) ∧
        pool'.rawMemoryChunks = pool.rawMemoryChunks.filter fun entry => entry.1 != ptr := by
  obtain ⟨found, hfound, hrest⟩ := bind_eq_ok.1 h
  rcases removeIdx_ok hfound with ⟨rfl, hnone⟩ | ⟨i, hi, rfl, hdata, hexclusive⟩
  · cases hrest
    exact .inl ⟨rfl, hnone⟩
  · obtain ⟨raw, hraw, hok⟩ := bind_eq_ok.1 hrest
    rw [deallocateRawMemory] at hraw
    split at hraw
    · cases hraw
      cases hok
      refine .inr ⟨pool.chunks[i], hdata, hexclusive, ?_, rfl⟩
      rw [Nat.zero_add]
      exact perm_swapErase pool.chunks hi
    · cases hraw

theorem Inv.release {s : System} (hs : Inv s) {ptr : ℕ} {pool : HostMemoryPool}
    (h : s.pool.release ptr = .ok pool) :
    Inv ⟨pool, s.live.filter fun a => !(a.exclusive && a.ptr == ptr)⟩ := by
  have hlive : ∀ a ∈ s.live.filter (fun a => !(a.exclusive && a.ptr == ptr)),
      a ∈ s.live ∧ ¬(a.exclusive = true ∧ a.ptr = ptr) := by
    intro a ha
    rw [mem_filter, not_eq_true', ← not_eq_true, and_eq_true, beq_iff_eq] at ha
    exact ha
  have haligned : ∀ a ∈ s.live.filter (fun a => !(a.exclusive && a.ptr == ptr)),
      a.alignment ∣ a.ptr := fun a ha => hs.aligned a (hlive a ha).1
  have hapart := hs.apart.filter fun a => !(a.exclusive && a.ptr == ptr)
  rcases release_ok h with ⟨rfl, -⟩ | ⟨chunk, hdata, hexclusive, hperm, hraw⟩
  · exact ⟨hs.bounds, hs.mapped, hs.chunksApart, haligned, fun a ha => hs.used a (hlive a ha).1,
      hapart⟩
  · have hchunks := (hperm.pairwise_iff fun h => h.symm).1 hs.chunksApart
    rw [pairwise_cons] at hchunks
    have hold : ∀ c ∈ pool.chunks, c ∈ s.pool.chunks := fun c hc =>
      hperm.mem_iff.2 (mem_cons_of_mem _ hc)
    constructor
    case bounds => exact fun c hc => hs.bounds c (hold c hc)
    case mapped =>
        intro c hc
        have hne := (hchunks.1 c hc).1
        rw [hraw, mem_filter]
        refine ⟨hs.mapped c (hold c hc), ?_⟩
        rw [bne_iff_ne, ← hdata]
        exact hne.symm
    case chunksApart => exact hchunks.2
    case aligned => exact haligned
    case used =>
        intro a ha
        obtain ⟨halive, hnot⟩ := hlive a ha
        obtain ⟨c, hc, hkind, hrest⟩ := hs.used a halive
        rcases mem_cons.1 (hperm.mem_iff.1 hc) with rfl | hc
        · rw [hexclusive] at hkind
          exact absurd ⟨hkind.symm, (hrest.2.2 hkind.symm).trans hdata⟩ hnot
        · exact ⟨c, hc, hkind, hrest⟩
    case apart => exact hapart

theorem removeIdx_of_exclusive {ptr : ℕ} {chunks : List MemoryChunk}
    (h : ∀ c ∈ chunks, c.data = ptr → c.isExclusive = true) (idx : ℕ) (removed : Option ℕ) :
    ∃ found, removeIdx ptr chunks idx removed = .ok found := by
  induction chunks generalizing idx removed with
  | nil => exact ⟨removed, rfl⟩
  | cons chunk rest ih =>
    have hrest := ih fun c hc => h c (mem_cons_of_mem _ hc)
    rw [removeIdx]
    split
    · next hdata =>
        rw [if_pos (h chunk mem_cons_self hdata)]
        exact hrest _ _
    · exact hrest _ _

theorem Inv.release_exclusive {s : System} (hs : Inv s) {chunk : MemoryChunk}
    (hchunk : chunk ∈ s.pool.chunks) (hexclusive : chunk.isExclusive = true) :
    ∃ pool, s.pool.release chunk.data = .ok pool ∧ s.pool.chunks.Perm (chunk :: pool.chunks) ∧
      pool.rawMemoryChunks = s.pool.rawMemoryChunks.filter fun entry => entry.1 != chunk.data := by
  have honly : ∀ c ∈ s.pool.chunks, c.data = chunk.data → c = chunk := by
    intro c hc hdata
    by_contra hne
    exact (hs.chunksApart.forall hc hchunk hne).1 hdata
  obtain ⟨found, hfound⟩ := removeIdx_of_exclusive
    (fun c hc hdata => (honly c hc hdata) ▸ hexclusive) 0 none
  have hmapped : (s.pool.rawMemoryChunks.any fun entry => entry.1 == chunk.data) = true :=
    any_eq_true.2 ⟨_, hs.mapped chunk hchunk, beq_self_eq_true _⟩
  have hrelease : ∃ pool, s.pool.release chunk.data = .ok pool := by
    rw [HostMemoryPool.release, hfound]
    cases found with
    | none => exact ⟨_, rfl⟩
    | some idx =>
      rw [deallocateRawMemory, if_pos hmapped]
      exact ⟨_, rfl⟩
  obtain ⟨pool, hpool⟩ := hrelease
  refine ⟨pool, hpool, ?_⟩
  rcases release_ok hpool with ⟨-, hnone⟩ | ⟨c, hdata, -, hperm, hraw⟩
  · exact absurd rfl (hnone chunk hchunk)
  · have hsame := honly c (hperm.mem_iff.2 mem_cons_self) hdata
    rw [hsame] at hperm
    exact ⟨hperm, hraw⟩

end ReleaseKeeps

section Sound

variable {defaultAllocatorSize : ℕ}

theorem Inv.sound {s : System} (hs : Inv s) : Sound s where
  aligned := hs.aligned
  apart := hs.apart
  inside := by
    intro a ha
    obtain ⟨c, hc, -, hdata, hend, -⟩ := hs.used a ha
    exact ⟨c, hc, hdata, Nat.le_trans hend (hs.bounds c hc).2.1⟩
  release := fun _ hc hexclusive => hs.release_exclusive hc hexclusive

theorem Inv.step {s s' : System} (hs : Inv s) (h : Step defaultAllocatorSize GoodCall s s') :
    Inv s' := by
  cases h with
  | allocate hgood hmem hok =>
    rcases allocate_ok hok with ⟨rfl, chunks, hfound, rfl⟩ | ⟨hnone, hnew⟩
    · exact hs.allocate_shared hgood hfound
    · rw [GoodCall, hnone] at hgood
      exact hs.allocate_new hgood hmem hnew
  | release hok => exact hs.release hok

/-- As long as no call asks a new chunk for more than the alignment of a page, or for a place whose
end does not fit in an address, all promises hold. -/
theorem unifiedAllocator_sound {s : System} (h : Reaches defaultAllocatorSize GoodCall s) :
    Sound s := by
  have hinv : Inv s := by
    induction h with
    | init => exact inv_init
    | step _ hstep ih => exact ih.step hstep
  exact hinv.sound

section Examples

def twoAllocations : System :=
  ⟨⟨[⟨false, 4096, 4216, 5120⟩], [(4096, 1024)]⟩, [⟨4208, 8, 16, false⟩, ⟨4096, 100, 16, false⟩]⟩

theorem rawMemory_first : ∀ raw, some 4096 = some raw → RawMemory [] raw 1024 := by
  rintro raw ⟨⟩
  exact ⟨by decide, by decide, by decide, fun _ h => nomatch h⟩

theorem unifiedAllocator_sound_twoAllocations : Sound twoAllocations := by
  have hfirst : Reaches 1024 GoodCall
      ⟨⟨[⟨false, 4096, 4196, 5120⟩], [(4096, 1024)]⟩, [⟨4096, 100, 16, false⟩]⟩ := by
    refine .step .init (.allocate ?_ rawMemory_first ?_)
    · show 16 ∣ pageSize
      decide
    · decide
  have hnone : ∀ raw, none = some raw → RawMemory [(4096, 1024)] raw 1024 := fun _ h => nomatch h
  refine unifiedAllocator_sound (.step hfirst (.allocate ?_ hnone ?_))
  · show 4196 + 16 - 1 < 2 ^ 64 ∧ alignedHead 4196 16 + 8 < 2 ^ 64
    decide
  · decide

/-- The start of a new chunk is not aligned any further. -/
theorem unaligned_of_newChunk : ∃ s, Reaches 1024 (fun _ _ _ _ => True) s ∧ ¬Sound s := by
  refine ⟨⟨⟨[⟨false, 4096, 4104, 5120⟩], [(4096, 1024)]⟩, [⟨4096, 8, 8192, false⟩]⟩, ?_, ?_⟩
  · exact .step .init (.allocate trivial rawMemory_first (by decide))
  · intro h
    exact absurd (h.aligned _ mem_cons_self) (by decide)

end Examples

end Sound

end HostMemoryPool

end Quadrants.Memory
