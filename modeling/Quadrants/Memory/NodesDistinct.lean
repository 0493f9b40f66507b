import Quadrants.Memory.NodeManager
import Mathlib.Data.List.Perm.Basic

/-!
Each node that was ever reserved is live, free or recycled, and a free node is clear.
-/

namespace Quadrants.Memory

open List

namespace ListManager

variable {l : ListManager}

theorem get_set (l : ListManager) (i value j : ℕ) :
    (l.set i value).get j = if j = i then value else l.get j := by
  simp only [get, set, Function.update_apply]

theorem numElements_foldl_set {f : ListManager → ℕ → ℕ × ℕ} (order : List ℕ) (l : ListManager) :
    (order.foldl (fun l i => l.set (f l i).1 (f l i).2) l).numElements = l.numElements := by
  induction order generalizing l with
  | nil => rfl
  | cons i order ih => rw [foldl_cons, ih]; rfl

theorem entries_eq_map (l : ListManager) (first : ℕ) :
    l.entries first = (List.range (l.numElements - first)).map fun j => l.get (first + j) := by
  rw [entries, List.range'_eq_map_range, map_map]
  rfl

theorem entries_eq_nil {first : ℕ} (h : l.numElements ≤ first) : l.entries first = [] := by
  rw [entries, Nat.sub_eq_zero_of_le h]
  rfl

theorem entries_eq_cons {first : ℕ} (h : first < l.numElements) :
    l.entries first = l.get first :: l.entries (first + 1) := by
  obtain ⟨n, hn⟩ := Nat.exists_eq_add_of_lt h
  have hsize : l.numElements - first = n + 1 := by omega
  have hsize' : l.numElements - (first + 1) = n := by omega
  rw [entries, entries, hsize, hsize', List.range'_succ, map_cons]

theorem entries_pushBack {first : ℕ} (h : first ≤ l.numElements) (value : ℕ) :
    (l.pushBack value).entries first = l.entries first ++ [value] := by
  have hsize : (l.pushBack value).numElements - first = l.numElements - first + 1 := by
    simp only [pushBack]
    omega
  rw [entries, hsize, List.range'_concat, map_append, Nat.one_mul, Nat.add_sub_cancel' h]
  refine congrArg₂ _ (map_congr_left fun i hi => ?_) ?_
  · rw [List.mem_range'_1] at hi
    exact Function.update_of_ne (by omega) _ _
  · simp [get, pushBack]

theorem get_foldl_shift (l : ListManager) (used n j : ℕ) :
    ((List.range' used n).foldl (fun l i => l.set (i - used) (l.get i)) l).get j =
      if j < n then l.get (used + j) else l.get j := by
  induction n generalizing j with
  | zero => simp
  | succ n ih =>
    have hread : ((List.range' used n).foldl (fun l i => l.set (i - used) (l.get i)) l).get
        (used + n) = l.get (used + n) := by
      rw [ih, if_neg (by omega)]
    rw [List.range'_concat, foldl_append, foldl_cons, foldl_nil, Nat.one_mul,
      get_set, hread, ih, Nat.add_sub_cancel_left]
    rcases Nat.lt_trichotomy j n with hlt | rfl | hlt
    · rw [if_neg (Nat.ne_of_lt hlt), if_pos hlt, if_pos (Nat.lt_succ_of_lt hlt)]
    · rw [if_pos rfl, if_pos (Nat.lt_succ_self j)]
    · rw [if_neg (Nat.ne_of_gt hlt), if_neg (Nat.lt_asymm hlt), if_neg (by omega)]

theorem get_foldl_copy (offset : ℕ) (order : List ℕ) (l : ListManager)
    (h : ∀ i ∈ order, i < offset) (hnodup : order.Nodup) (j : ℕ) :
    (order.foldl (fun l i => l.set i (l.get (offset + i))) l).get j =
      if j ∈ order then l.get (offset + j) else l.get j := by
  induction order generalizing l with
  | nil => simp
  | cons i order ih =>
    obtain ⟨hi, hnodup⟩ := nodup_cons.1 hnodup
    have hlt := h i mem_cons_self
    rw [foldl_cons, ih _ (fun k hk => h k (mem_cons_of_mem _ hk)) hnodup]
    rw [get_set, get_set]
    by_cases hj : j ∈ order
    · have hne : offset + j ≠ i := by omega
      rw [if_pos hj, if_neg hne, if_pos (mem_cons_of_mem _ hj)]
    · rw [if_neg hj]
      by_cases heq : j = i
      · rw [if_pos heq, heq, if_pos mem_cons_self]
      · rw [if_neg heq, if_neg fun hmem => (mem_cons.1 hmem).elim heq hj]

end ListManager

section Addresses

variable (d : DataChunks)

theorem DataChunks.getElementPtr_eq (i : ℕ) :
    d.getElementPtr i = d.chunks (i / 2 ^ d.log2ChunkNumElements) +
      d.elementSize * (i % 2 ^ d.log2ChunkNumElements) := by
  rw [getElementPtr, Nat.shiftRight_eq_div_pow, Nat.one_shiftLeft, Nat.and_two_pow_sub_one_eq_mod]

theorem DataChunks.node_bounds (i : ℕ) {k : ℕ} (hk : k < d.elementSize) :
    d.elementSize * (i % 2 ^ d.log2ChunkNumElements) + k <
      2 ^ d.log2ChunkNumElements * d.elementSize := by
  have hmod := Nat.mod_lt i (Nat.two_pow_pos d.log2ChunkNumElements)
  have hle := Nat.mul_le_mul_left d.elementSize (Nat.succ_le_of_lt hmod)
  rw [Nat.mul_succ, Nat.mul_comm _ (2 ^ _)] at hle
  omega

theorem DataChunks.chunk_unique {i j x : ℕ} (hi : d.chunks i ≤ x)
    (hi' : x < d.chunks i + 2 ^ d.log2ChunkNumElements * d.elementSize) (hj : d.chunks j ≤ x)
    (hj' : x < d.chunks j + 2 ^ d.log2ChunkNumElements * d.elementSize) : i = j := by
  rcases Nat.lt_trichotomy i j with hlt | heq | hlt
  · have := d.disjoint i j hlt
    omega
  · exact heq
  · have := d.disjoint j i hlt
    omega

theorem DataChunks.index_unique {i j k k' : ℕ} (hk : k < d.elementSize) (hk' : k' < d.elementSize)
    (h : d.getElementPtr i + k = d.getElementPtr j + k') : i = j := by
  have hi := d.node_bounds i hk
  have hj := d.node_bounds j hk'
  rw [d.getElementPtr_eq, d.getElementPtr_eq] at h
  have hchunk := @chunk_unique d (i / 2 ^ d.log2ChunkNumElements) (j / 2 ^ d.log2ChunkNumElements)
    (d.chunks (i / 2 ^ d.log2ChunkNumElements) +
      d.elementSize * (i % 2 ^ d.log2ChunkNumElements) + k) (by omega) (by omega) (by omega)
      (by omega)
  rw [hchunk] at h
  have hmod : i % 2 ^ d.log2ChunkNumElements = j % 2 ^ d.log2ChunkNumElements := by
    have hquotient := congrArg (· / d.elementSize)
      (show d.elementSize * (i % 2 ^ d.log2ChunkNumElements) + k =
        d.elementSize * (j % 2 ^ d.log2ChunkNumElements) + k' by omega)
    simpa [Nat.mul_add_div d.elementSize_pos, Nat.div_eq_of_lt hk, Nat.div_eq_of_lt hk'] using
      hquotient
  rw [← Nat.div_add_mod i (2 ^ d.log2ChunkNumElements), hchunk, hmod, Nat.div_add_mod]

theorem DataChunks.ptr2index_getElementPtr {numElements i : ℕ} (hi : i < numElements) :
    d.ptr2index numElements (d.getElementPtr i) = some i := by
  have hbounds := d.node_bounds i d.elementSize_pos
  have htouched : i / 2 ^ d.log2ChunkNumElements < d.touched numElements := by
    rw [touched, if_neg (by omega), Nat.shiftRight_eq_div_pow]
    exact Nat.lt_succ_of_le (Nat.div_le_div_right (by omega))
  obtain ⟨c, hc⟩ : ∃ c, (List.range (d.touched numElements)).find? (fun c =>
      d.chunks c ≤ d.getElementPtr i ∧
        d.getElementPtr i < d.chunks c + 2 ^ d.log2ChunkNumElements * d.elementSize) = some c := by
    rw [← Option.isSome_iff_exists, List.find?_isSome]
    refine ⟨_, mem_range.2 htouched, ?_⟩
    rw [d.getElementPtr_eq]
    simp only [decide_eq_true_eq]
    omega
  have hfound := List.find?_some hc
  simp only [decide_eq_true_eq] at hfound
  have hchunk : c = i / 2 ^ d.log2ChunkNumElements := by
    rw [d.getElementPtr_eq] at hfound
    exact d.chunk_unique hfound.1 hfound.2 (by omega) (by omega)
  rw [ptr2index, hc, Option.map_some, hchunk, d.getElementPtr_eq, Nat.add_sub_cancel_left,
    Nat.mul_div_cancel_left _ d.elementSize_pos, Nat.shiftLeft_eq, Nat.mul_comm, Nat.div_add_mod]

end Addresses

theorem mem_threadMemset {stop stride x : ℕ} (hstride : 4 ≤ stride) (hx : x < stop) (q ptr : ℕ)
    (hle : ptr + q * stride ≤ x) (hlt : x < ptr + q * stride + 4) :
    x ∈ threadMemset ptr stop stride := by
  induction q generalizing ptr with
  | zero =>
    rw [threadMemset]
    split
    · exact mem_append_left _ (List.mem_range'_1.2 (by omega))
    · exact List.mem_range'_1.2 (by omega)
  | succ q ih =>
    rw [Nat.succ_mul] at hle hlt
    rw [threadMemset, if_pos (by omega)]
    exact mem_append_right _ (ih (ptr + stride) (by omega) (by omega))

theorem mem_blockMemset {blockDim ptr elementSize k : ℕ} (hdim : 0 < blockDim)
    (hk : k < elementSize) : ptr + k ∈ blockMemset blockDim ptr elementSize := by
  generalize hnew : (if ptr % 4 ≠ 0 then ptr + 4 - ptr % 4 else ptr) = newPtr
  by_cases hhead : ptr + k < newPtr
  · exact mem_append_left _ (List.mem_range'_1.2 (by omega))
  · refine mem_append_right _ (mem_flatMap.2 ?_)
    -- the number of the word from the first aligned address on
    generalize hword : (ptr + k - newPtr) / 4 = word
    have hdivmod := Nat.div_add_mod word blockDim
    refine ⟨word % blockDim, mem_range.2 (Nat.mod_lt _ hdim), ?_⟩
    have hproduct : word / blockDim * (4 * blockDim) = 4 * (blockDim * (word / blockDim)) := by
      rw [Nat.mul_comm, Nat.mul_assoc]
    exact mem_threadMemset (by omega) (by omega) (word / blockDim) _ (by omega) (by omega)

namespace NodeManager

variable {d : DataChunks} {m m' : NodeManager} {live : List ℕ} {index : ℕ}

structure Inv (d : DataChunks) (m : NodeManager) (live : List ℕ) : Prop where
  perm : (live ++ (m.unused ++ m.recycled)).Perm (List.range m.dataSize)
  cleared : ∀ index ∈ m.unused, m.Cleared d index

theorem init_inv : Inv d init [] where
  perm := List.Perm.refl _
  cleared := fun _ h => absurd h not_mem_nil

theorem allocate_cases (h : m.allocate d = some (index, m')) :
    m.freeList.numElements ≤ m.freeListUsed ∧ index = m.dataSize ∧
        m' = { m with freeListUsed := m.freeListUsed + 1, dataSize := m.dataSize + 1 } ∨
      m.freeListUsed < m.freeList.numElements ∧ index = m.freeList.get m.freeListUsed ∧
        m' = { m with freeListUsed := m.freeListUsed + 1 } := by
  simp only [allocate] at h
  split at h
  · next hempty =>
      split at h
      · cases h
        exact .inl ⟨hempty, rfl, rfl⟩
      · cases h
  · next hused =>
      cases h
      exact .inr ⟨Nat.lt_of_not_le hused, rfl, rfl⟩

theorem allocate_inv (hinv : Inv d m live) (h : m.allocate d = some (index, m')) :
    Inv d m' (index :: live) := by
  rcases allocate_cases h with ⟨hempty, rfl, rfl⟩ | ⟨hused, rfl, rfl⟩
  · have hunused : m.unused = [] := ListManager.entries_eq_nil hempty
    have hperm := hinv.perm
    rw [hunused] at hperm
    refine ⟨?_, fun index hindex => ?_⟩
    · rw [unused, ListManager.entries_eq_nil (by simp only; omega), range_succ]
      exact (List.Perm.cons m.dataSize hperm).trans (perm_append_singleton _ _).symm
    · rw [unused, ListManager.entries_eq_nil (by simp only; omega)] at hindex
      exact absurd hindex not_mem_nil
  · have hunused : m.unused = m.freeList.get m.freeListUsed ::
        m.freeList.entries (m.freeListUsed + 1) := ListManager.entries_eq_cons hused
    have hperm := hinv.perm
    rw [hunused] at hperm
    refine ⟨?_, fun index hindex => ?_⟩
    · exact perm_middle.symm.trans hperm
    · refine hinv.cleared index ?_
      rw [hunused]
      exact mem_cons_of_mem _ hindex

theorem Inv.lt_dataSize (hinv : Inv d m live) (h : index ∈ live) : index < m.dataSize :=
  mem_range.1 (hinv.perm.subset (mem_append_left _ h))

theorem recycle_inv (hinv : Inv d m live) (hlive : index ∈ live)
    (h : m.recycle d (d.getElementPtr index) = some m') : Inv d m' (live.erase index) := by
  rw [recycle, d.ptr2index_getElementPtr (hinv.lt_dataSize hlive)] at h
  cases h
  refine ⟨List.Perm.trans ?_ hinv.perm, hinv.cleared⟩
  have hrecycled : (m.recycledList.pushBack index).entries 0 = m.recycled ++ [index] :=
    ListManager.entries_pushBack (Nat.zero_le _) index
  simp only [unused, recycled] at *
  rw [hrecycled, ← append_assoc, ← append_assoc]
  refine (perm_append_singleton _ _).trans ?_
  rw [append_assoc]
  exact (perm_cons_erase hlive).symm.append_right _

theorem write_inv (hinv : Inv d m live) (hlive : index ∈ live) {k : ℕ} (hk : k < d.elementSize)
    (value : ℕ) :
    Inv d { m with memory := Function.update m.memory (d.getElementPtr index + k) value } live := by
  refine ⟨hinv.perm, fun free hfree k' hk' => ?_⟩
  have hne : d.getElementPtr free + k' ≠ d.getElementPtr index + k := by
    intro heq
    have hsame := d.index_unique hk' hk heq
    have hnodup := hinv.perm.nodup_iff.2 nodup_range
    rw [nodup_append] at hnodup
    exact hnodup.2.2 index hlive free (mem_append_left _ hfree) hsame.symm
  exact (Function.update_of_ne hne _ _).trans (hinv.cleared free hfree k' hk')

section Refilling

/-- The body of a loop that moves the entries of `recycled_list` to `free_list`. -/
structure Refills (d : DataChunks) (f : NodeManager → ℕ → NodeManager) : Prop where
  freeList : ∀ m i, (f m i).freeList = m.freeList.pushBack (m.recycledList.get i)
  recycledList : ∀ m i, (f m i).recycledList = m.recycledList
  freeListUsed : ∀ m i, (f m i).freeListUsed = m.freeListUsed
  dataSize : ∀ m i, (f m i).dataSize = m.dataSize
  memory : ∀ m i x, (f m i).memory x = 0 ∨ (f m i).memory x = m.memory x
  cleared : ∀ m i, (f m i).Cleared d (m.recycledList.get i)

theorem zeroAt_eq (addresses : List ℕ) (memory : ℕ → ℕ) (x : ℕ) :
    zeroAt addresses memory x = 0 ∨ zeroAt addresses memory x = memory x := by
  unfold zeroAt
  split
  · exact .inl rfl
  · exact .inr rfl

theorem gcSerialBody_refills : Refills d (gcSerialBody d) where
  freeList := fun _ _ => rfl
  recycledList := fun _ _ => rfl
  freeListUsed := fun _ _ => rfl
  dataSize := fun _ _ => rfl
  memory := fun _ _ x => zeroAt_eq _ _ x
  cleared := fun _ _ _ hk => if_pos (List.mem_range'_1.2 (by omega))

theorem gcParallelBody_refills {blockDim : ℕ} (hdim : 0 < blockDim) :
    Refills d (gcParallelBody d blockDim) where
  freeList := fun _ _ => rfl
  recycledList := fun _ _ => rfl
  freeListUsed := fun _ _ => rfl
  dataSize := fun _ _ => rfl
  memory := fun _ _ x => zeroAt_eq _ _ x
  cleared := fun _ _ _ hk => if_pos (mem_blockMemset hdim hk)

variable {f : NodeManager → ℕ → NodeManager}

theorem Refills.cleared_mono (hf : Refills d f) (m : NodeManager) (i : ℕ)
    (h : m.Cleared d index) : (f m i).Cleared d index := by
  intro k hk
  rcases hf.memory m i (d.getElementPtr index + k) with hzero | hsame
  · exact hzero
  · rw [hsame]
    exact h k hk

structure Refilled (d : DataChunks) (order : List ℕ) (m m' : NodeManager) : Prop where
  entries : m'.freeList.entries 0 = m.freeList.entries 0 ++ order.map m.recycledList.get
  recycledList : m'.recycledList = m.recycledList
  freeListUsed : m'.freeListUsed = m.freeListUsed
  dataSize : m'.dataSize = m.dataSize
  cleared_mono : ∀ index, m.Cleared d index → m'.Cleared d index
  cleared : ∀ i ∈ order, m'.Cleared d (m.recycledList.get i)

theorem Refills.foldl (hf : Refills d f) (order : List ℕ) (m : NodeManager) :
    Refilled d order m (order.foldl f m) := by
  induction order generalizing m with
  | nil => exact ⟨by simp, rfl, rfl, rfl, fun _ h => h, fun _ h => absurd h not_mem_nil⟩
  | cons i order ih =>
    have hrest := ih (f m i)
    rw [foldl_cons]
    refine ⟨?_, hrest.recycledList.trans (hf.recycledList m i),
      hrest.freeListUsed.trans (hf.freeListUsed m i), hrest.dataSize.trans (hf.dataSize m i),
      fun index h => hrest.cleared_mono index (hf.cleared_mono m i h), fun j hj => ?_⟩
    · rw [hrest.entries, hf.freeList, hf.recycledList,
        ListManager.entries_pushBack (Nat.zero_le _), append_assoc]
      rfl
    · rcases mem_cons.1 hj with rfl | hj
      · exact hrest.cleared_mono _ (hf.cleared m j)
      · have hcleared := hrest.cleared j hj
        rwa [hf.recycledList] at hcleared

theorem Inv.refilled (hinv : Inv d m live) {m₁ m₂ : NodeManager} {order : List ℕ}
    {recycledList : ListManager} (h : Refilled d order m₁ m₂)
    (hunused : (m₁.freeList.entries 0).Perm m.unused)
    (horder : (order.map m₁.recycledList.get).Perm m.recycled) (hused : m₁.freeListUsed = 0)
    (hsize : m₁.dataSize = m.dataSize) (hmemory : m₁.memory = m.memory)
    (hempty : recycledList.numElements = 0) : Inv d { m₂ with recycledList } live := by
  have hfree : m₂.unused = m₁.freeList.entries 0 ++ order.map m₁.recycledList.get := by
    rw [unused, h.freeListUsed, hused, h.entries]
  have hrecycled : NodeManager.recycled { m₂ with recycledList } = [] :=
    ListManager.entries_eq_nil (Nat.le_zero.2 hempty)
  refine ⟨?_, fun index hindex => ?_⟩
  · rw [hrecycled, append_nil]
    change (live ++ m₂.unused).Perm (List.range m₂.dataSize)
    rw [hfree, h.dataSize, hsize]
    exact ((hunused.append horder).append_left live).trans hinv.perm
  · change index ∈ m₂.unused at hindex
    rw [hfree, mem_append, mem_map] at hindex
    rcases hindex with hold | ⟨i, hi, rfl⟩
    · refine h.cleared_mono index fun k hk => ?_
      rw [hmemory]
      exact hinv.cleared index (hunused.subset hold) k hk
    · exact h.cleared i hi

end Refilling

theorem entries_compact (l : ListManager) (used : ℕ) :
    ((compact l used).resize (l.numElements - used)).entries 0 = l.entries used := by
  rw [ListManager.entries_eq_map, ListManager.entries_eq_map]
  refine map_congr_left fun j hj => ?_
  rw [Nat.zero_add]
  exact (l.get_foldl_shift used _ j).trans (if_pos (mem_range.1 hj))

theorem recycled_eq (m : NodeManager) :
    m.recycled = (List.range m.recycledList.numElements).map m.recycledList.get := by
  rw [recycled, ListManager.entries, Nat.sub_zero, range_eq_range']

theorem gcSerial_inv (hinv : Inv d m live) : Inv d (m.gcSerial d) live :=
  hinv.refilled (gcSerialBody_refills.foldl _ _) (.of_eq (entries_compact _ _))
    (.of_eq m.recycled_eq.symm) rfl rfl rfl rfl

theorem entries_copied {l : ListManager} {offset n : ℕ} {order : List ℕ}
    (horder : order.Perm (List.range n)) (hn : n ≤ offset) (size : ℕ) :
    ((order.foldl (fun l i => l.set i (l.get (offset + i))) l).resize size).entries 0 =
      (List.range size).map fun j => if j < n then l.get (offset + j) else l.get j := by
  have hmem : ∀ i, i ∈ order ↔ i < n := fun i => by rw [horder.mem_iff, mem_range]
  rw [ListManager.entries_eq_map]
  refine map_congr_left fun j _ => ?_
  rw [Nat.zero_add]
  refine (l.get_foldl_copy offset order (fun i hi => ?_) (horder.nodup_iff.2 nodup_range)
    j).trans ?_
  · have := (hmem i).1 hi
    omega
  · simp only [hmem]

theorem numElements_copied (order : List ℕ) (l : ListManager) (offset : ℕ) :
    (order.foldl (fun l i => l.set i (l.get (offset + i))) l).numElements = l.numElements :=
  @ListManager.numElements_foldl_set (fun l i => (i, l.get (offset + i))) order l

theorem entries_gcParallelImpl {order : List ℕ} (horder : order.Perm (List.range m.itemsToCopy)) :
    ((m.gcParallelImpl0 order).gcParallelImpl1.freeList.entries 0).Perm m.unused := by
  rw [unused, ListManager.entries_eq_map m.freeList]
  unfold itemsToCopy at horder
  by_cases hhalf : m.freeListUsed * 2 > m.freeList.numElements
  · rw [if_pos hhalf] at horder
    rw [gcParallelImpl0, if_pos hhalf, gcParallelImpl1]
    rw [numElements_copied, entries_copied horder (by omega)]
    refine .of_eq (map_congr_left fun j hj => if_pos (mem_range.1 hj))
  · have hitems : m.itemsToCopy = m.freeListUsed := if_neg hhalf
    rw [if_neg hhalf] at horder
    rw [gcParallelImpl0, if_neg hhalf, gcParallelImpl1]
    simp only [hitems]
    rw [numElements_copied, entries_copied horder (by omega)]
    -- the last entries come first, then those that stay where they are
    obtain ⟨rest, hrest⟩ := Nat.exists_eq_add_of_le
      (show m.freeListUsed ≤ m.freeList.numElements - m.freeListUsed by omega)
    have hnew : (List.range (m.freeList.numElements - m.freeListUsed)).map (fun j =>
        if j < m.freeListUsed then
          m.freeList.get (m.freeList.numElements - m.freeListUsed + j) else m.freeList.get j) =
        ((List.range m.freeListUsed).map fun j =>
          m.freeList.get (m.freeListUsed + (rest + j))) ++
        (List.range rest).map fun j => m.freeList.get (m.freeListUsed + j) := by
      rw [hrest, range_add, map_append, map_map]
      refine congrArg₂ _ (map_congr_left fun j hj => ?_) (map_congr_left fun j _ => ?_)
      · rw [if_pos (mem_range.1 hj), Nat.add_assoc]
      · exact if_neg (by simp)
    rw [hnew, hrest, Nat.add_comm m.freeListUsed rest, range_add, map_append, map_map]
    exact perm_append_comm

theorem gcParallel_inv (hinv : Inv d m live) {blockDim : ℕ} (hdim : 0 < blockDim)
    {order0 order2 : List ℕ} (horder0 : order0.Perm (List.range m.itemsToCopy))
    (horder2 : order2.Perm (List.range m.recycledList.numElements)) :
    Inv d (m.gcParallel d blockDim order0 order2) live := by
  have hrefilled := (gcParallelBody_refills hdim).foldl (d := d) order2
    (m.gcParallelImpl0 order0).gcParallelImpl1
  have hkept : (m.gcParallelImpl0 order0).recycledList = m.recycledList ∧
      (m.gcParallelImpl0 order0).dataSize = m.dataSize ∧
      (m.gcParallelImpl0 order0).memory = m.memory := by
    unfold gcParallelImpl0
    split
    · exact ⟨rfl, rfl, rfl⟩
    · exact ⟨rfl, rfl, rfl⟩
  refine @Inv.refilled d m live hinv _ _ order2 (m.gcParallel d blockDim order0 order2).recycledList
    hrefilled (entries_gcParallelImpl horder0) ?_ rfl hkept.2.1 hkept.2.2 ?_
  · rw [recycled_eq]
    have hget : (m.gcParallelImpl0 order0).gcParallelImpl1.recycledList.get =
        m.recycledList.get := by
      rw [gcParallelImpl1, hkept.1]
      rfl
    rw [hget]
    exact horder2.map _
  · rw [gcParallel, gcParallelImpl2, hrefilled.recycledList]
    rfl

theorem reaches_classes (h : Reaches d m live) : Inv d m live := by
  induction h with
  | init => exact init_inv
  | allocate _ h ih => exact allocate_inv ih h
  | recycle _ hlive h ih => exact recycle_inv ih hlive h
  | write _ hlive hk ih => exact write_inv ih hlive hk _
  | gcSerial _ ih => exact gcSerial_inv ih
  | gcParallel _ hdim horder0 horder2 ih => exact gcParallel_inv ih hdim horder0 horder2

def smallChunks : DataChunks where
  elementSize := 8
  log2ChunkNumElements := 2
  chunks := fun i => 4096 * i
  elementSize_pos := by decide
  disjoint := fun i j hij => .inl (by omega)

end NodeManager

end Quadrants.Memory
