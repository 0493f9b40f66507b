import Quadrants.Memory.CacheDisjoint

/-!
The preallocated chunk that `CudaDevice` and the kernels take memory from. `CudaDevice` takes the
size it is asked for and goes on with that size rounded up to pages, and a kernel may be given the
rest of the last page.
-/

namespace Quadrants.Memory

open Library.Cover

structure PreallocatedMemoryChunk where
  preallocatedSize : ℕ
  preallocatedHead : ℕ
  preallocatedTail : ℕ

namespace PreallocatedMemoryChunk

def alignmentBytes (c : PreallocatedMemoryChunk) (alignment : ℕ) : ℕ :=
  alignment - 1 - (c.preallocatedHead + alignment - 1) % 2 ^ 64 % alignment

def allocateAligned (c : PreallocatedMemoryChunk) (size alignment : ℕ) :
    Option (ℕ × PreallocatedMemoryChunk) :=
  let total := (size + c.alignmentBytes alignment) % 2 ^ 64
  if (c.preallocatedHead + total) % 2 ^ 64 ≤ c.preallocatedTail then
    some ((c.preallocatedHead + c.alignmentBytes alignment) % 2 ^ 64,
      { c with preallocatedHead := (c.preallocatedHead + total) % 2 ^ 64 })
  else none

def start (c : PreallocatedMemoryChunk) (alignment : ℕ) : ℕ :=
  c.preallocatedHead + c.alignmentBytes alignment

def region (c : PreallocatedMemoryChunk) : Block :=
  ⟨c.preallocatedTail - c.preallocatedSize, c.preallocatedSize⟩

end PreallocatedMemoryChunk

structure ReservedMemory where
  base : ℕ
  size : ℕ
  base_pos : 0 < base
  size_pos : 0 < size
  lt : base + size < 2 ^ 64

structure DeviceMemory where
  device : CudaDevice
  chunk : PreallocatedMemoryChunk
  /-- What `allocate_aligned` returned to the kernels. -/
  ranges : List Block

inductive Request where
  | allocateMemoryRuntime (size : UInt64)
  | deallocMemory (id : ℕ)
  | allocateAligned (size alignment : UInt64)

namespace DeviceMemory

def init (m : ReservedMemory) : DeviceMemory :=
  ⟨.init, ⟨m.size, m.base, m.base + m.size⟩, []⟩

def allocateMemoryRuntime (s : DeviceMemory) (size : ℕ) : DeviceMemory :=
  if s.device.AsksDevice size then
    match s.chunk.allocateAligned size pageSize with
    | none => s
    | some (ptr, chunk) =>
      match s.device.allocateMemoryRuntime size ptr with
      | .error _ => { s with chunk }
      | .ok device => { s with device, chunk }
  else
    match s.device.allocateMemoryRuntime size 0 with
    | .error _ => s
    | .ok device => { s with device }

def deallocMemory (s : DeviceMemory) (id : ℕ) : DeviceMemory :=
  match s.device.deallocMemory id with
  | .error _ => s
  | .ok device => { s with device }

def allocateAligned (s : DeviceMemory) (size alignment : ℕ) : DeviceMemory :=
  match s.chunk.allocateAligned size alignment with
  | none => s
  | some (ptr, chunk) => { s with chunk, ranges := ⟨ptr, size⟩ :: s.ranges }

def step (s : DeviceMemory) : Request → DeviceMemory
  | .allocateMemoryRuntime size => s.allocateMemoryRuntime size.toNat
  | .deallocMemory id => s.deallocMemory id
  | .allocateAligned size alignment => s.allocateAligned size.toNat alignment.toNat

/-- The allocations in use, the free blocks and the ranges of the kernels have no common address
and lie in the chunk. -/
structure Safe (s : DeviceMemory) : Prop where
  device : s.device.BlocksDisjoint
  ranges : s.ranges.Pairwise Block.Disjoint
  live_ranges : ∀ b ∈ s.device.live, ∀ r ∈ s.ranges, b.Disjoint r
  free_ranges : ∀ blk ∈ s.device.allocator.memBlocks, ∀ r ∈ s.ranges, (freeBlock blk).Disjoint r
  live_inside : ∀ b ∈ s.device.live, b.Within s.chunk.region
  free_inside : ∀ blk ∈ s.device.allocator.memBlocks, (freeBlock blk).Within s.chunk.region
  ranges_inside : ∀ r ∈ s.ranges, r.Within s.chunk.region

def TakesPages (s : DeviceMemory) (size : ℕ) : Prop :=
  s.device.AsksDevice size ∧ (s.chunk.allocateAligned size pageSize).isSome = true

instance (s : DeviceMemory) (size : ℕ) : Decidable (s.TakesPages size) :=
  inferInstanceAs (Decidable (_ ∧ _))

def reservedAfter (s : DeviceMemory) (reserved : ℕ) : Request → ℕ
  | .allocateMemoryRuntime size =>
    if s.TakesPages size.toNat then s.chunk.start pageSize + iroundup size.toNat pageSize
    else reserved
  | _ => reserved

/-- Pages that `CudaDevice` takes from the chunk end before the chunk does. What a kernel takes does
not wrap around and, unless it is empty, starts after the pages that `CudaDevice` took last. -/
def Fits (s : DeviceMemory) (reserved : ℕ) : Request → Prop
  | .allocateMemoryRuntime size =>
    s.TakesPages size.toNat →
      s.chunk.start pageSize + iroundup size.toNat pageSize ≤ s.chunk.preallocatedTail
  | .deallocMemory _ => True
  | .allocateAligned size alignment =>
    (s.chunk.allocateAligned size.toNat alignment.toNat).isSome = true →
      s.chunk.start alignment.toNat + size.toNat < 2 ^ 64 ∧
        (size = 0 ∨ reserved ≤ s.chunk.start alignment.toNat)

instance (s : DeviceMemory) (reserved : ℕ) : (request : Request) →
    Decidable (s.Fits reserved request)
  | .allocateMemoryRuntime _ => inferInstanceAs (Decidable (_ → _))
  | .deallocMemory _ => inferInstanceAs (Decidable True)
  | .allocateAligned _ _ => inferInstanceAs (Decidable (_ → _))

/-- The states after requests that fit, with the end of the pages that `CudaDevice` took last. -/
inductive Reaches (m : ReservedMemory) : DeviceMemory → ℕ → Prop
  | init : Reaches m (init m) m.base
  | step {s : DeviceMemory} {reserved : ℕ} (request : Request) :
      Reaches m s reserved → s.Fits reserved request →
      Reaches m (s.step request) (s.reservedAfter reserved request)

end DeviceMemory

end Quadrants.Memory

/-!
Requests that fit keep the blocks of `CudaDevice` and the ranges of the kernels apart.
-/

namespace Quadrants.Memory

open Library.Cover

namespace PreallocatedMemoryChunk

variable {c : PreallocatedMemoryChunk} {size alignment : ℕ}

theorem head_le_start (c : PreallocatedMemoryChunk) (alignment : ℕ) :
    c.preallocatedHead ≤ c.start alignment :=
  Nat.le_add_right _ _

theorem pageSize_dvd_start (c : PreallocatedMemoryChunk) : pageSize ∣ c.start pageSize := by
  unfold start alignmentBytes pageSize
  omega

theorem allocateAligned_eq (h : c.start alignment + size < 2 ^ 64) :
    c.allocateAligned size alignment =
      if c.start alignment + size ≤ c.preallocatedTail then
        some (c.start alignment, { c with preallocatedHead := c.start alignment + size })
      else none := by
  unfold start at h ⊢
  have htotal : (size + c.alignmentBytes alignment) % 2 ^ 64 = size + c.alignmentBytes alignment :=
    Nat.mod_eq_of_lt (by omega)
  have hhead : c.preallocatedHead + (size + c.alignmentBytes alignment) =
      c.preallocatedHead + c.alignmentBytes alignment + size := by
    omega
  simp only [allocateAligned, htotal, hhead, Nat.mod_eq_of_lt h,
    Nat.mod_eq_of_lt (lt_of_le_of_lt (Nat.le_add_right _ size) h)]

end PreallocatedMemoryChunk

theorem le_iroundup {size : ℕ} (hlt : size < 2 ^ 64) (h : iroundup size pageSize ≠ 0) :
    size ≤ iroundup size pageSize := by
  unfold iroundup pageSize at *
  omega

namespace DeviceMemory

structure Inv (m : ReservedMemory) (s : DeviceMemory) (reserved : ℕ) (served : List Block) :
    Prop where
  device : s.device.Inv served
  size_eq : s.chunk.preallocatedSize = m.size
  tail_eq : s.chunk.preallocatedTail = m.base + m.size
  base_le : m.base ≤ s.chunk.preallocatedHead
  head_le : s.chunk.preallocatedHead ≤ s.chunk.preallocatedTail
  reserved_le : reserved ≤ s.chunk.preallocatedTail
  page_le : ∀ p, pageSize ∣ p → s.chunk.preallocatedHead ≤ p → reserved ≤ p
  served_le : ∀ b ∈ served, m.base ≤ b.ptr ∧ b.ptr + b.size ≤ reserved
  range : ∀ r ∈ s.ranges, r.size = 0 ∨ m.base ≤ r.ptr ∧ r.ptr + r.size ≤ s.chunk.preallocatedHead
  ranges : s.ranges.Pairwise Block.Disjoint
  served_ranges : ∀ b ∈ served, ∀ r ∈ s.ranges, b.Disjoint r
  gap : ∀ x, s.chunk.preallocatedHead ≤ x → x < reserved → ∃ b ∈ served, b.Has x

variable {m : ReservedMemory} {s : DeviceMemory} {reserved : ℕ} {served : List Block}

theorem init_inv (m : ReservedMemory) : Inv m (init m) m.base [] where
  device := CudaDevice.init_inv
  size_eq := rfl
  tail_eq := rfl
  base_le := le_rfl
  head_le := Nat.le_add_right _ _
  reserved_le := Nat.le_add_right _ _
  page_le := fun _ _ h => h
  served_le := fun _ hb => absurd hb List.not_mem_nil
  range := fun _ hr => absurd hr List.not_mem_nil
  ranges := List.Pairwise.nil
  served_ranges := fun _ hb => absurd hb List.not_mem_nil
  gap := fun _ hle hlt => absurd hlt (Nat.not_lt.2 hle)

theorem Inv.device_changed (h : Inv m s reserved served) {device : CudaDevice}
    (hdevice : device.Inv served) : Inv m { s with device } reserved served :=
  { h with device := hdevice }

theorem takesPages_inv (h : Inv m s reserved served) {size : ℕ} (hlt : size < 2 ^ 64)
    (htakes : s.TakesPages size)
    (hfits : s.chunk.start pageSize + iroundup size pageSize ≤ s.chunk.preallocatedTail) :
    Inv m (s.allocateMemoryRuntime size) (s.chunk.start pageSize + iroundup size pageSize)
      (⟨s.chunk.start pageSize, iroundup size pageSize⟩ :: served) := by
  have hsize := le_iroundup hlt htakes.1.1
  have hpos : s.chunk.start pageSize ≠ 0 := by
    have := h.base_le
    have := m.base_pos
    have := s.chunk.head_le_start pageSize
    omega
  have hstart := h.page_le _ s.chunk.pageSize_dvd_start (s.chunk.head_le_start pageSize)
  have hlt' : s.chunk.start pageSize + size < 2 ^ 64 := by
    have := h.tail_eq
    have := m.lt
    omega
  have hfresh : CudaDevice.IsFresh served ⟨s.chunk.start pageSize, iroundup size pageSize⟩ := by
    refine ⟨s.chunk.pageSize_dvd_start, fun b hb x hx hbx => ?_⟩
    have := (h.served_le b hb).2
    have := hx.1
    have := hbx.2
    simp only at *
    omega
  obtain ⟨device, hdevice⟩ : ∃ device,
      s.device.allocateMemoryRuntime size (s.chunk.start pageSize) = .ok device := by
    simp only [CudaDevice.allocateMemoryRuntime, if_neg htakes.1.1, CachingAllocator.allocate,
      htakes.1.2, if_neg hpos]
    exact ⟨_, rfl⟩
  have hinv := CudaDevice.allocate_fresh_inv h.device htakes.1 hfresh hdevice
  have hchunk := PreallocatedMemoryChunk.allocateAligned_eq hlt'
  rw [if_pos (by omega)] at hchunk
  simp only [allocateMemoryRuntime, if_pos htakes.1, hchunk, hdevice]
  have htail := h.tail_eq
  have hbase := h.base_le
  have hhead := s.chunk.head_le_start pageSize
  refine ⟨hinv, h.size_eq, htail, by simp only; omega, by simp only; omega, hfits,
    fun p hp hle => ?_, fun b hb => ?_, fun r hr => ?_, h.ranges, fun b hb r hr => ?_,
    fun x hle hlt => ⟨_, List.mem_cons_self, Nat.le_trans (Nat.le_add_right _ _) hle, hlt⟩⟩
  · -- both ends are page boundaries and the size is less than a page short of the rounded one
    have hstartDvd := s.chunk.pageSize_dvd_start
    simp only at hle
    unfold iroundup pageSize at *
    omega
  · rcases List.mem_cons.1 hb with rfl | hold
    · exact ⟨by simp only; omega, le_rfl⟩
    · have := h.served_le b hold
      omega
  · have := h.range r hr
    simp only
    omega
  · rcases List.mem_cons.1 hb with rfl | hold
    · intro x hx hrx
      have hrange := h.range r hr
      have hlow := hx.1
      have hup := hrx.2
      have := hrx.1
      simp only at hlow
      omega
    · exact h.served_ranges b hold r hr

theorem allocateMemoryRuntime_inv (h : Inv m s reserved served) {size : ℕ}
    (htakes : ¬s.TakesPages size) : Inv m (s.allocateMemoryRuntime size) reserved served := by
  unfold allocateMemoryRuntime
  split
  · next hasks =>
      split
      · exact h
      · next hchunk => exact absurd ⟨hasks, by rw [hchunk]; rfl⟩ htakes
  · next hasks =>
      split
      · exact h
      · next device hdevice =>
          exact h.device_changed (CudaDevice.allocate_inv h.device hasks hdevice)

theorem deallocMemory_inv (h : Inv m s reserved served) (id : ℕ) :
    Inv m (s.deallocMemory id) reserved served := by
  unfold deallocMemory
  split
  · exact h
  · next device hdevice => exact h.device_changed (CudaDevice.dealloc_inv h.device hdevice)

theorem allocateAligned_inv (h : Inv m s reserved served) {size alignment : ℕ}
    (hlt : s.chunk.start alignment + size < 2 ^ 64)
    (hstart : size = 0 ∨ reserved ≤ s.chunk.start alignment) :
    Inv m (s.allocateAligned size alignment) reserved served := by
  have hhead := s.chunk.head_le_start alignment
  have hbase := h.base_le
  rw [allocateAligned, PreallocatedMemoryChunk.allocateAligned_eq hlt]
  by_cases htail : s.chunk.start alignment + size ≤ s.chunk.preallocatedTail
  · rw [if_pos htail]
    refine ⟨h.device, h.size_eq, h.tail_eq, by simp only; omega, htail, h.reserved_le,
      fun p hp hle => h.page_le p hp (by simp only at hle; omega), h.served_le, fun r hr => ?_,
      List.pairwise_cons.2 ⟨fun r hr x hx hrx => ?_, h.ranges⟩, fun b hb r hr x hbx hrx => ?_,
      fun x hle hlt => h.gap x (by simp only at hle; omega) hlt⟩
    · rcases List.mem_cons.1 hr with rfl | hold
      · exact .inr ⟨by simp only; omega, le_rfl⟩
      · have := h.range r hold
        simp only
        omega
    · have hrange := h.range r hr
      have hlow := hx.1
      have hup := hrx.2
      have := hrx.1
      simp only at hlow
      omega
    · rcases List.mem_cons.1 hr with rfl | hold
      · have hserved := (h.served_le b hb).2
        have hlow := hrx.1
        have hup := hrx.2
        have := hbx.2
        simp only at hlow hup
        omega
      · exact h.served_ranges b hb r hold x hbx hrx
  · rw [if_neg htail]
    exact h

theorem step_inv (h : Inv m s reserved served) {request : Request}
    (hfits : s.Fits reserved request) :
    ∃ served', Inv m (s.step request) (s.reservedAfter reserved request) served' := by
  cases request with
  | allocateMemoryRuntime size =>
    by_cases htakes : s.TakesPages size.toNat
    · rw [step, reservedAfter, if_pos htakes]
      exact ⟨_, takesPages_inv h size.toNat_lt htakes (hfits htakes)⟩
    · rw [step, reservedAfter, if_neg htakes]
      exact ⟨served, allocateMemoryRuntime_inv h htakes⟩
  | deallocMemory id => exact ⟨served, deallocMemory_inv h id⟩
  | allocateAligned size alignment =>
    refine ⟨served, ?_⟩
    by_cases hsome : (s.chunk.allocateAligned size.toNat alignment.toNat).isSome = true
    · obtain ⟨hlt, hstart⟩ := hfits hsome
      refine allocateAligned_inv h hlt (hstart.imp_left fun hzero => ?_)
      rw [hzero]
      rfl
    · rw [Bool.not_eq_true, Option.isSome_eq_false_iff, Option.isNone_iff_eq_none] at hsome
      rw [step, allocateAligned, hsome]
      exact h

theorem reaches_inv (h : Reaches m s reserved) : ∃ served, Inv m s reserved served := by
  induction h with
  | init => exact ⟨[], init_inv m⟩
  | step request _ hfits ih =>
    obtain ⟨served, hinv⟩ := ih
    exact step_inv hinv hfits

theorem Inv.within (h : Inv m s reserved served) {b : Block}
    (hb : ∀ x, b.Has x → m.base ≤ x ∧ x < m.base + m.size) : b.Within s.chunk.region := by
  intro x hx
  have := hb x hx
  have := h.size_eq
  have := h.tail_eq
  simp only [PreallocatedMemoryChunk.region, Block.Has]
  omega

theorem Inv.served_bounds (h : Inv m s reserved served) {x : ℕ} (hx : ∃ b ∈ served, b.Has x) :
    m.base ≤ x ∧ x < m.base + m.size := by
  obtain ⟨b, hb, hbx⟩ := hx
  have := h.served_le b hb
  have := h.reserved_le
  have := h.tail_eq
  have := hbx.1
  have := hbx.2
  omega

theorem Inv.safe (h : Inv m s reserved served) : s.Safe := by
  have hlive : ∀ b ∈ s.device.live, ∀ x, b.Has x → ∃ c ∈ served, c.Has x := by
    intro b hb x hx
    rw [← cover_pos_iff, ← h.device.cover x]
    exact Nat.add_pos_left (cover_pos_iff.2 ⟨b, hb, hx⟩) _
  have hfree : ∀ blk ∈ s.device.allocator.memBlocks, ∀ x, (freeBlock blk).Has x →
      ∃ c ∈ served, c.Has x := by
    intro blk hblk x hx
    rw [← cover_pos_iff, ← h.device.cover x]
    exact Nat.add_pos_right _ (coverSet_pos_iff.2 ⟨blk, hblk, hx⟩)
  refine ⟨h.device.blocksDisjoint, h.ranges, fun b hb r hr x hx hrx => ?_,
    fun blk hblk r hr x hx hrx => ?_, fun b hb => h.within fun x hx => ?_,
    fun blk hblk => h.within fun x hx => ?_, fun r hr => h.within fun x hx => ?_⟩
  · obtain ⟨c, hc, hcx⟩ := hlive b hb x hx
    exact h.served_ranges c hc r hr x hcx hrx
  · obtain ⟨c, hc, hcx⟩ := hfree blk hblk x hx
    exact h.served_ranges c hc r hr x hcx hrx
  · exact h.served_bounds (hlive b hb x hx)
  · exact h.served_bounds (hfree blk hblk x hx)
  · have := h.range r hr
    have := h.head_le
    have := h.tail_eq
    have := hx.1
    have := hx.2
    omega

/-- The blocks stay apart and in the chunk as long as the requests fit. -/
theorem reaches_safe (h : Reaches m s reserved) : s.Safe := by
  obtain ⟨served, hinv⟩ := reaches_inv h
  exact hinv.safe

/-- The page of an allocation, pages for a kernel, the page back and in use again. -/
theorem reaches_safe_pages :
    ∃ s reserved, Reaches ⟨4096, 65536, by decide, by decide, by decide⟩ s reserved ∧
      s.device.live = [⟨0, 0⟩, ⟨4096, 4096⟩] ∧ s.ranges = [⟨8192, 8⟩] ∧ s.Safe := by
  have hfirst := (Reaches.init (m := ⟨4096, 65536, by decide, by decide, by decide⟩)).step
    (.allocateMemoryRuntime 100) (by decide)
  have hsecond := hfirst.step (.allocateAligned 8 4096) (by decide)
  have hthird := hsecond.step (.deallocMemory 0) trivial
  have hfourth := hthird.step (.allocateMemoryRuntime 200) (by decide)
  exact ⟨_, _, hfourth, by decide, by decide, reaches_safe hfourth⟩

/-- An allocation of 100 bytes has a page, and `runtime_allocate_ambient` is given a part of it. -/
theorem ambient_not_safe : ¬(((init ⟨4096, 65536, by decide, by decide, by decide⟩).step
      (.allocateMemoryRuntime 100)).step (.allocateAligned 8 128)).Safe := by
  intro h
  exact h.live_ranges ⟨4096, 4096⟩ (by decide) ⟨4224, 8⟩ (by decide) 4224 (by decide) (by decide)

end DeviceMemory

end Quadrants.Memory
