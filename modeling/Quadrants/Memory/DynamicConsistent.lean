import Quadrants.Memory.DynamicChains

/-!
Every call keeps the chains: an index below `n` has its chunk, and an element stays where it is
until its node is deactivated.
-/

namespace Quadrants.Memory.Dynamic

open List Nat Option Function

section Elements

variable {m : DynamicMeta} {memory : ℕ → ℕ}

def elementPtr (m : DynamicMeta) (index i : ℕ) : ℕ :=
  m.data.getElementPtr index + sizeofPtr + i % m.chunkSize * m.elementSize

theorem elementPtr_le (index i : ℕ) : elementPtr m index i + m.elementSize ≤
    m.data.getElementPtr index + m.data.elementSize := by
  have hmod := mod_lt i m.chunkSize_pos
  have hle := Nat.mul_le_mul_left m.elementSize (succ_le_of_lt hmod)
  rw [mul_succ, Nat.mul_comm] at hle
  rw [elementPtr, m.nodeSize]
  omega

theorem sub_mul_div (m : DynamicMeta) (i : ℕ) :
    i - m.chunkSize * (i / m.chunkSize) = i % m.chunkSize := by
  have := div_add_mod i m.chunkSize
  omega

theorem lookupChunks_eq {chain : List ℕ} {ptr i : ℕ} (k : ℕ)
    (hchain : IsChain memory ptr (addresses m chain))
    (hfits : m.chunkSize * (k + chain.length) < 2 ^ 31) (hle : m.chunkSize * k ≤ i)
    (hlt : i < m.chunkSize * (k + chain.length)) :
    ∃ index, chain[i / m.chunkSize - k]? = some index ∧
      lookupChunks m memory i ptr (m.chunkSize * k) = some (elementPtr m index i) := by
  induction chain generalizing k ptr with
  | nil => exact absurd hlt (Nat.not_lt.2 hle)
  | cons index chain ih =>
    obtain ⟨rfl, hne, hrest⟩ := hchain
    have hnext : k + (index :: chain).length = k + 1 + chain.length := by
      rw [length_cons]
      omega
    rw [hnext] at hfits hlt
    have hchunk : m.chunkSize * k + m.chunkSize < 2 ^ 31 := by
      rw [← mul_succ]
      exact Nat.lt_of_le_of_lt (Nat.mul_le_mul_left _ (Nat.le_add_right _ _)) hfits
    rw [lookupChunks, if_pos hchunk]
    split
    · next hin =>
        have hdiv : i / m.chunkSize = k :=
          Nat.div_eq_of_lt_le (by rwa [Nat.mul_comm]) (by rwa [Nat.mul_comm, mul_succ])
        refine ⟨index, by rw [hdiv, Nat.sub_self, List.getElem?_cons_zero], ?_⟩
        rw [elementPtr, ← sub_mul_div, hdiv]
    · next hout =>
        have hle' : m.chunkSize * (k + 1) ≤ i := by
          rw [mul_succ]
          omega
        have hdiv : k + 1 ≤ i / m.chunkSize := by
          rwa [Nat.le_div_iff_mul_le m.chunkSize_pos, Nat.mul_comm]
        obtain ⟨index', hindex', hlookup⟩ := ih (k + 1) hrest hfits hle' hlt
        refine ⟨index', ?_, ?_⟩
        · rw [show i / m.chunkSize - k = i / m.chunkSize - (k + 1) + 1 by omega]
          exact hindex'
        · exact hlookup

end Elements

section Recycling

variable {m : DynamicMeta}

theorem recycleChunks_zero (fuel : ℕ) (alloc : NodeManager) :
    recycleChunks m fuel alloc 0 = some alloc := by
  cases fuel <;> rfl

theorem recycleChunks_succ {ptr : ℕ} (hne : ptr ≠ 0) (fuel : ℕ) (alloc : NodeManager) :
    recycleChunks m (fuel + 1) alloc ptr = (alloc.recycle m.data ptr).bind fun alloc =>
      recycleChunks m fuel alloc (readPtr alloc.memory ptr) := by
  obtain ⟨n, rfl⟩ := exists_eq_succ_of_ne_zero hne
  rfl

theorem recycleChunks_spec {fuel ptr : ℕ} {alloc : NodeManager} {live chain : List ℕ}
    (hinv : NodeManager.Inv m.data alloc live)
    (hchain : IsChain alloc.memory ptr (addresses m chain)) (hnodup : chain.Nodup)
    (hlive : ∀ index ∈ chain, index ∈ live) (hfuel : chain.length ≤ fuel) :
    ∃ alloc' live', recycleChunks m fuel alloc ptr = some alloc' ∧
      NodeManager.Inv m.data alloc' live' ∧ alloc'.memory = alloc.memory ∧
      alloc'.dataSize = alloc.dataSize ∧
      ∀ index, index ∈ live' ↔ index ∈ live ∧ index ∉ chain := by
  induction chain generalizing fuel ptr alloc live with
  | nil =>
    have hnull : ptr = 0 := hchain
    refine ⟨alloc, live, ?_, hinv, rfl, rfl, fun index => (and_iff_left not_mem_nil).symm⟩
    rw [hnull, recycleChunks_zero]
  | cons index chain ih =>
    obtain ⟨rfl, hne, hrest⟩ := hchain
    obtain ⟨hout, hnodup⟩ := nodup_cons.1 hnodup
    obtain ⟨hindex, htail⟩ := forall_mem_cons.1 hlive
    obtain ⟨fuel, rfl⟩ := Nat.exists_eq_add_of_le' (Nat.le_trans (Nat.le_add_left 1 _) hfuel)
    have hnodupLive : live.Nodup :=
      (nodup_append.1 (hinv.perm.nodup_iff.2 nodup_range)).1
    have hrecycle : alloc.recycle m.data (m.data.getElementPtr index) =
        some { alloc with recycledList := alloc.recycledList.pushBack index } := by
      rw [NodeManager.recycle, m.data.ptr2index_getElementPtr (hinv.lt_dataSize hindex), map_some]
    have hrest' : ∀ other ∈ chain, other ∈ live.erase index := by
      intro other hother
      refine (mem_erase_of_ne ?_).2 (htail other hother)
      rintro rfl
      exact hout hother
    obtain ⟨alloc', live', hrun, hinv', hmemory, hsize, hmem⟩ :=
      ih (NodeManager.recycle_inv hinv hindex hrecycle) hrest hnodup hrest'
        (le_of_succ_le_succ hfuel)
    refine ⟨alloc', live', ?_, hinv', hmemory, hsize, fun other => ?_⟩
    · rw [recycleChunks_succ hne, hrecycle, bind_some]
      exact hrun
    · rw [hmem, hnodupLive.mem_erase_iff, mem_cons, not_or]
      constructor
      · rintro ⟨⟨hne, hin⟩, hout⟩
        exact ⟨hin, hne, hout⟩
      · rintro ⟨hin, hne, hout⟩
        exact ⟨⟨hne, hin⟩, hout⟩

end Recycling

section Collecting

variable {ι : Type} {m : DynamicMeta} {s : State ι} {live : List ℕ} {chains : ι → List ℕ}
  {alloc alloc' : NodeManager}

structure Collected (m : DynamicMeta) (alloc alloc' : NodeManager) (live : List ℕ) : Prop where
  inv : NodeManager.Inv m.data alloc' live
  dataSize : alloc'.dataSize = alloc.dataSize
  memory : ∀ x, alloc'.memory x = 0 ∨ alloc'.memory x = alloc.memory x
  frame : ∀ index ∈ live, ∀ k < m.data.elementSize,
    alloc'.memory (m.data.getElementPtr index + k) = alloc.memory (m.data.getElementPtr index + k)

theorem not_mem_recycledBytes (h : NodeManager.Inv m.data alloc live) {index k : ℕ}
    (hindex : index ∈ live) (hk : k < m.data.elementSize) :
    m.data.getElementPtr index + k ∉ alloc.recycledBytes m.data := by
  rintro ⟨other, hother, hle, hlt⟩
  obtain ⟨k', hk'⟩ := Nat.exists_eq_add_of_le hle
  have hsame := m.data.index_unique hk (show k' < _ by omega) hk'
  have hnodup := h.perm.nodup_iff.2 nodup_range
  exact (nodup_append.1 hnodup).2.2 index hindex other (mem_append_right _ hother) hsame

theorem collected_gcSerial (h : NodeManager.Inv m.data alloc live) :
    Collected m alloc (alloc.gcSerial m.data) live where
  inv := NodeManager.gcSerial_inv h
  dataSize := NodeManager.dataSize_gcSerial
  memory x := by
    rw [NodeManager.memory_gcSerial]
    exact NodeManager.zeroAt_eq _ _ x
  frame _ hindex _ hk := NodeManager.gcSerial_frame (not_mem_recycledBytes h hindex hk)

theorem clearedBytes_subset {x : ℕ} (h : x ∈ alloc.clearedBytes m.data) :
    x ∈ alloc.recycledBytes m.data := by
  obtain ⟨index, hindex, hle, hlt | hhead⟩ := h
  · exact ⟨index, hindex, hle, hlt⟩
  · have hlt := sizeofPtr_lt m
    refine ⟨index, hindex, hle, ?_⟩
    simp only [NodeManager.wordEnd, sizeofPtr] at hhead hlt
    omega

theorem collected_gcParallel (h : NodeManager.Inv m.data alloc live) {blockDim : ℕ}
    (hdim : 0 < blockDim) {order0 order2 : List ℕ} (horder0 : order0.Perm (range alloc.itemsToCopy))
    (horder2 : order2.Perm (range alloc.recycledList.numElements)) :
    Collected m alloc (alloc.gcParallel m.data blockDim order0 order2) live := by
  obtain ⟨-, -, -, hcleared, hframe⟩ :=
    NodeManager.gcParallel_spec (d := m.data) hdim horder0 horder2
  refine ⟨NodeManager.gcParallel_inv h hdim horder0 horder2,
    NodeManager.dataSize_gcParallel hdim order0 order2,
    fun x => ?_, fun index hindex k hk => hframe _ fun hmem => ?_⟩
  · by_cases hx : x ∈ alloc.clearedBytes m.data
    · exact Or.inl (hcleared x hx)
    · exact Or.inr (hframe x hx)
  · exact not_mem_recycledBytes h hindex hk (clearedBytes_subset hmem)

theorem Core.collect (h : Core m s live chains) (hcollect : Collected m s.alloc alloc' live) :
    Core m { s with alloc := alloc' } live chains where
  alloc := hcollect.inv
  partition := h.partition
  linked node := (h.linked node).congr fun index hindex => readPtr_congr fun k hk =>
    hcollect.frame index ((h.partition.mem_live index).2 ⟨node, hindex⟩) k
      (Nat.lt_trans hk (sizeofPtr_lt m))
  fits := h.fits
  fresh index hle k hk := by
    rcases hcollect.memory (m.data.getElementPtr index + k) with hzero | hsame
    · exact hzero
    · refine hsame.trans (h.fresh index ?_ k hk)
      rw [← hcollect.dataSize]
      exact hle
  room index hlt := h.room index (by rwa [← hcollect.dataSize])

end Collecting

section Invariant

variable {ι : Type} [DecidableEq ι] {m : DynamicMeta} {ambient : ℕ} {s s' : State ι}
  {log : List (Allocated ι)} {live : List ℕ} {chains : ι → List ℕ} {node : ι} {i : ℕ}

structure Inv (m : DynamicMeta) (s : State ι) (log : List (Allocated ι)) (live : List ℕ)
    (chains : ι → List ℕ) : Prop where
  core : Core m s live chains
  covered : ∀ node, (s.nodes node).n ≤ m.chunkSize * (chains node).length
  logged : ∀ entry ∈ log, entry.index < (s.nodes entry.node).n ∧
    ∃ index, (chains entry.node)[entry.index / m.chunkSize]? = some index ∧
      entry.address = elementPtr m index entry.index

theorem getElem?_of_isPrefix {chain chain' : List ℕ} (h : chain <+: chain') {k index : ℕ}
    (hindex : chain[k]? = some index) : chain'[k]? = some index := by
  obtain ⟨rest, rfl⟩ := h
  obtain ⟨hlt, -⟩ := List.getElem?_eq_some_iff.1 hindex
  rw [List.getElem?_append_left hlt, hindex]

theorem Inv.count (h : Inv m s log live chains) {n chunk chunkStart : ℕ}
    (hn : (s.nodes node).n ≤ n) (hi : n ≤ max (s.nodes node).n (i + 1))
    (hwalk : walkChunks m node i (s.setNode node { s.nodes node with n }) none 0 =
      some (s', chunk, chunkStart)) :
    ∃ live' chains', Inv m s' log live' chains' ∧ (s'.nodes node).n = n ∧
      ∃ index, (chains' node)[i / m.chunkSize]? = some index ∧
        chunk + sizeofPtr + (i - chunkStart) * m.elementSize = elementPtr m index i := by
  have hsteps : i < m.chunkSize * (([] : List ℕ).length + (i + 1)) := by
    rw [length_nil, Nat.zero_add]
    exact Nat.lt_of_lt_of_le (lt_succ_self i) (Nat.le_mul_of_pos_left _ m.chunkSize_pos)
  obtain ⟨live', chains', index, hgrown, hindex, rfl, rfl⟩ :=
    (h.core.setNode_n node n).walk (show chains node = [] ++ chains node from rfl) (Nat.zero_le i)
      hsteps hwalk
  have hcount : ∀ node', (s'.nodes node').n = if node' = node then n else (s.nodes node').n := by
    intro node'
    rw [hgrown.n]
    split
    · next heq => simp [heq, State.setNode]
    · next hne => simp [hne, State.setNode]
  have hle : ∀ node', (s.nodes node').n ≤ (s'.nodes node').n := by
    intro node'
    rw [hcount]
    split
    · next heq => rwa [heq]
    · exact Nat.le_refl _
  refine ⟨live', chains', ⟨hgrown.core, fun node' => ?_, fun entry hentry => ?_⟩, ?_, index,
    hindex, ?_⟩
  · have hgrow : m.chunkSize * (chains node').length ≤ m.chunkSize * (chains' node').length :=
      Nat.mul_le_mul_left _ (hgrown.isPrefix node').length_le
    have hold := Nat.le_trans (h.covered node') hgrow
    rw [hcount]
    split
    · next heq =>
        rw [heq] at hold ⊢
        have hlt : i < m.chunkSize * (chains' node).length := by
          obtain ⟨hlt, -⟩ := List.getElem?_eq_some_iff.1 hindex
          rwa [Nat.div_lt_iff_lt_mul m.chunkSize_pos, Nat.mul_comm] at hlt
        omega
    · exact hold
  · obtain ⟨hlt, index', hindex', haddress⟩ := h.logged entry hentry
    exact ⟨Nat.lt_of_lt_of_le hlt (hle entry.node), index',
      getElem?_of_isPrefix (hgrown.isPrefix _) hindex', haddress⟩
  · rw [hcount, if_pos rfl]
  · rw [elementPtr, sub_mul_div]

theorem Inv.activate (h : Inv m s log live chains) (hrun : dynamicActivate m s node i = some s') :
    ∃ live' chains', Inv m s' log live' chains' := by
  obtain ⟨⟨s', chunk, chunkStart⟩, hwalk, rfl⟩ := map_eq_some_iff.1 hrun
  obtain ⟨live', chains', hinv, -⟩ := h.count (Nat.le_max_left _ _) (Nat.le_refl _) hwalk
  exact ⟨live', chains', hinv⟩

theorem Inv.allocate (h : Inv m s log live chains) {address : ℕ}
    (hrun : dynamicAllocate m s node = some (s', i, address)) :
    ∃ live' chains', Inv m s' (⟨node, i, address⟩ :: log) live' chains' := by
  obtain ⟨⟨s₁, chunk, chunkStart⟩, hwalk, hresult⟩ := map_eq_some_iff.1 hrun
  obtain ⟨rfl, rfl, rfl⟩ : s₁ = s' ∧ (s.nodes node).n = i ∧
      chunk + sizeofPtr + ((s.nodes node).n - chunkStart) * m.elementSize = address := by
    simpa using hresult
  obtain ⟨live', chains', hinv, hn, index, hindex, haddress⟩ :=
    h.count (le_succ _) (Nat.le_max_right _ _) hwalk
  refine ⟨live', chains', hinv.core, hinv.covered, forall_mem_cons.2 ⟨?_, hinv.logged⟩⟩
  refine ⟨?_, index, hindex, haddress⟩
  rw [hn]
  exact lt_succ_self _

theorem Core.recycle (h : Core m s live chains) (node : ι) :
    ∃ alloc' live', recycleChunks m s.alloc.dataSize s.alloc (s.nodes node).ptr = some alloc' ∧
      Core m ({ s with alloc := alloc' }.setNode node ⟨0, 0⟩) live'
        (update chains node []) := by
  have hlive : ∀ index ∈ chains node, index ∈ live := fun index hindex =>
    (h.partition.mem_live index).2 ⟨node, hindex⟩
  have hfuel : (chains node).length ≤ s.alloc.dataSize := by
    have hsubset : chains node ⊆ range s.alloc.dataSize := fun index hindex =>
      mem_range.2 (h.alloc.lt_dataSize (hlive index hindex))
    simpa using (subperm_of_subset (h.partition.nodup node) hsubset).length_le
  obtain ⟨alloc', live', hrun, hinv, hmemory, hsize, hmem⟩ :=
    recycleChunks_spec h.alloc (h.linked node) (h.partition.nodup node) hlive hfuel
  refine ⟨alloc', live', hrun, hinv, h.partition.clear node hmem, fun node' => ?_,
    h.fits_update node (by simp), fun index hle k hk => ?_, fun index hlt => ?_⟩
  · rcases eq_or_ne node' node with rfl | hne
    · simp [State.setNode, IsChain, addresses]
    · simp only [State.setNode, update_of_ne hne, hmemory]
      exact h.linked node'
  · change alloc'.memory _ = 0
    rw [hmemory]
    exact h.fresh index (by rw [← hsize]; exact hle) k hk
  · exact h.room index (by rw [← hsize]; exact hlt)

theorem Inv.deactivate (h : Inv m s log live chains) (hrun : dynamicDeactivate m s node = some s') :
    ∃ live' chains', Inv m s' (log.filter fun entry => entry.node ≠ node) live' chains' := by
  rw [dynamicDeactivate] at hrun
  split at hrun
  · obtain ⟨alloc', live', hrecycle, hcore⟩ := h.core.recycle node
    rw [hrecycle, map_some, some_inj] at hrun
    subst hrun
    refine ⟨live', _, hcore, fun node' => ?_, fun entry hentry => ?_⟩
    · rcases eq_or_ne node' node with rfl | hne
      · simp [State.setNode]
      · simp only [State.setNode, update_of_ne hne]
        exact h.covered node'
    · obtain ⟨hmem, hne⟩ := mem_filter.1 hentry
      have hne : entry.node ≠ node := of_decide_eq_true hne
      simp only [State.setNode, update_of_ne hne]
      exact h.logged entry hmem
  · obtain rfl := Option.some.inj hrun
    exact ⟨live, chains, h.core, h.covered, fun entry hentry =>
      h.logged entry (mem_filter.1 hentry).1⟩

omit [DecidableEq ι] in
theorem Inv.lookup (h : Inv m s log live chains) (ambient : ℕ) (hi : i < (s.nodes node).n) :
    ∃ index, (chains node)[i / m.chunkSize]? = some index ∧
      dynamicLookupElement m ambient s node i = some (elementPtr m index i) := by
  have hfits := h.core.fits node
  have hlt := Nat.lt_of_lt_of_le hi (h.covered node)
  rw [← Nat.zero_add (chains node).length] at hfits hlt
  obtain ⟨index, hindex, hlookup⟩ :=
    lookupChunks_eq 0 (h.core.linked node) hfits (Nat.zero_le i) hlt
  exact ⟨index, hindex, (if_pos hi).trans hlookup⟩

omit [DecidableEq ι] in
theorem Inv.write (h : Inv m s log live chains) {address k : ℕ} (hi : i < (s.nodes node).n)
    (hlookup : dynamicLookupElement m ambient s node i = some address) (hk : k < m.elementSize)
    (value : ℕ) : Inv m { s with alloc := { s.alloc with
      memory := update s.alloc.memory (address + k) value } } log live chains := by
  obtain ⟨index, hindex, hlookup'⟩ := h.lookup ambient hi
  obtain rfl := Option.some.inj (hlookup.symm.trans hlookup')
  have hlive : index ∈ live :=
    (h.core.partition.mem_live index).2 ⟨node, mem_of_getElem? hindex⟩
  have hle := elementPtr_le (m := m) index i
  obtain ⟨offset, hoffset⟩ : ∃ offset, elementPtr m index i + k =
      m.data.getElementPtr index + offset ∧ sizeofPtr ≤ offset ∧
        offset < m.data.elementSize := by
    refine ⟨sizeofPtr + i % m.chunkSize * m.elementSize + k, ?_, ?_, ?_⟩
    all_goals
      rw [elementPtr] at *
      omega
  obtain ⟨heq, hfront, hend⟩ := hoffset
  rw [heq]
  have hother : ∀ other k, k < sizeofPtr ∨ other ≠ index → k < m.data.elementSize →
      m.data.getElementPtr other + k ≠ m.data.getElementPtr index + offset := by
    intro other k hor hk heq
    have hsame := m.data.index_unique hk hend heq
    subst hsame
    rcases hor with hlt | hne
    · omega
    · exact hne rfl
  refine ⟨⟨NodeManager.write_inv h.core.alloc hlive hend value, h.core.partition, fun node' => ?_,
    h.core.fits, fun other hle k hk => ?_, h.core.room⟩, h.covered, h.logged⟩
  · refine (h.core.linked node').congr fun other _ => readPtr_congr fun k hk => ?_
    exact update_of_ne (hother other k (Or.inl hk) (Nat.lt_trans hk (sizeofPtr_lt m))) _ _
  · refine (update_of_ne (hother other k (Or.inr ?_) hk) _ _).trans
      (h.core.fresh other hle k hk)
    rintro rfl
    exact absurd (h.core.alloc.lt_dataSize hlive) (Nat.not_lt.2 hle)

theorem reaches_inv (h : Reaches m ambient s log) : ∃ live chains, Inv m s log live chains := by
  induction h with
  | init =>
    exact ⟨[], fun _ => [], core_init, fun _ => Nat.zero_le _, fun _ h =>
      absurd h not_mem_nil⟩
  | activate _ hrun ih =>
    obtain ⟨live, chains, hinv⟩ := ih
    exact hinv.activate hrun
  | allocate _ hrun ih =>
    obtain ⟨live, chains, hinv⟩ := ih
    exact hinv.allocate hrun
  | deactivate _ hrun ih =>
    obtain ⟨live, chains, hinv⟩ := ih
    exact hinv.deactivate hrun
  | write _ hi hlookup hk ih =>
    obtain ⟨live, chains, hinv⟩ := ih
    exact ⟨live, chains, hinv.write hi hlookup hk _⟩
  | gcSerial _ ih =>
    obtain ⟨live, chains, hinv⟩ := ih
    exact ⟨live, chains, hinv.core.collect (collected_gcSerial hinv.core.alloc), hinv.covered,
      hinv.logged⟩
  | gcParallel _ hdim horder0 horder2 ih =>
    obtain ⟨live, chains, hinv⟩ := ih
    exact ⟨live, chains,
      hinv.core.collect (collected_gcParallel hinv.core.alloc hdim horder0 horder2),
      hinv.covered, hinv.logged⟩

end Invariant

section Result

variable {ι : Type} {m : DynamicMeta} {ambient : ℕ} {s : State ι} {log : List (Allocated ι)}
  {live : List ℕ} {chains : ι → List ℕ}

/-- The indices of each node have their chunks, the elements are where they were allocated, and no
two of them overlap. -/
structure Consistent (m : DynamicMeta) (ambient : ℕ) (s : State ι) (log : List (Allocated ι)) :
    Prop where
  covered : ∀ node, ∃ chunks, IsChain s.alloc.memory (s.nodes node).ptr chunks ∧
    ∀ i < (s.nodes node).n, i / m.chunkSize < chunks.length
  lookup : ∀ entry ∈ log,
    dynamicLookupElement m ambient s entry.node entry.index = some entry.address
  disjoint : ∀ node node' i i', (node, i) ≠ (node', i') → i < (s.nodes node).n →
    i' < (s.nodes node').n → ∃ address address',
      dynamicLookupElement m ambient s node i = some address ∧
      dynamicLookupElement m ambient s node' i' = some address' ∧
      (address + m.elementSize ≤ address' ∨ address' + m.elementSize ≤ address)

theorem elements_apart {i i' : ℕ} (index : ℕ) (hne : i % m.chunkSize ≠ i' % m.chunkSize) :
    elementPtr m index i + m.elementSize ≤ elementPtr m index i' ∨
      elementPtr m index i' + m.elementSize ≤ elementPtr m index i := by
  have hle : ∀ a b, a < b → a * m.elementSize + m.elementSize ≤ b * m.elementSize := by
    intro a b hlt
    rw [← succ_mul]
    exact Nat.mul_le_mul_right _ hlt
  simp only [elementPtr]
  rcases Nat.lt_or_gt_of_ne hne with hlt | hlt
  · have := hle _ _ hlt
    exact Or.inl (by omega)
  · have := hle _ _ hlt
    exact Or.inr (by omega)

theorem Partition.position_unique (h : Partition live chains) {node node' : ι} {k k' index : ℕ}
    (hindex : (chains node)[k]? = some index) (hindex' : (chains node')[k']? = some index) :
    node = node' ∧ k = k' := by
  have hnode : node = node' := by
    by_contra hne
    exact h.apart node node' hne index (mem_of_getElem? hindex) (mem_of_getElem? hindex')
  subst hnode
  obtain ⟨hlt, heq⟩ := List.getElem?_eq_some_iff.1 hindex
  obtain ⟨hlt', heq'⟩ := List.getElem?_eq_some_iff.1 hindex'
  exact ⟨rfl, (h.nodup node).getElem_inj_iff.1 (heq.trans heq'.symm)⟩

theorem Inv.disjoint (h : Inv m s log live chains) {node node' : ι} {i i' index index' : ℕ}
    (hne : (node, i) ≠ (node', i')) (hindex : (chains node)[i / m.chunkSize]? = some index)
    (hindex' : (chains node')[i' / m.chunkSize]? = some index') :
    elementPtr m index i + m.elementSize ≤ elementPtr m index' i' ∨
      elementPtr m index' i' + m.elementSize ≤ elementPtr m index i := by
  rcases eq_or_ne index index' with rfl | hchunk
  · obtain ⟨rfl, hdiv⟩ := h.core.partition.position_unique hindex hindex'
    refine elements_apart index fun hmod => hne ?_
    rw [← div_add_mod i m.chunkSize, hdiv, hmod, div_add_mod]
  · have hend := elementPtr_le (m := m) index i
    have hend' := elementPtr_le (m := m) index' i'
    have hstart : ∀ index i, m.data.getElementPtr index ≤ elementPtr m index i := fun index i =>
      Nat.le_trans (Nat.le_add_right _ _) (Nat.le_add_right _ _)
    have := hstart index i
    have := hstart index' i'
    rcases chunks_apart (m := m) hchunk with hle | hle
    · exact Or.inl (by omega)
    · exact Or.inr (by omega)

def smallMeta : DynamicMeta where
  chunkSize := 2
  elementSize := 4
  data :=
    { elementSize := 16
      log2ChunkNumElements := 2
      chunks := fun i => 4096 * (i + 1)
      elementSize_pos := by decide
      disjoint := fun i j hij => Or.inl (by omega) }
  chunkSize_pos := by decide
  elementSize_pos := by decide
  nodeSize := rfl
  chunks_pos i := Nat.mul_pos (by decide) (succ_pos i)
  chunks_le i hi := by
    simp only [DataChunks.maxNumChunks, sizeofPtr] at *
    omega

end Result

end Quadrants.Memory.Dynamic
