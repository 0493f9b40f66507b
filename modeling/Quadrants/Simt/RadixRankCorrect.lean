import Quadrants.Library.StableSort
import Quadrants.Simt.RadixRankSteps

namespace Quadrants.Simt

open Library.AtomicRounds Library.BarrierRuns Library.SegmentFold Library.StableSort List BitVec

variable {b : RadixBlock} {key : ℕ → BitVec 32} {w : ℕ}

def rowCount (b : RadixBlock) (key : ℕ → BitVec 32) (g d : ℕ) : ℕ :=
  Nat.count (fun l => b.digit (key (g * b.subgroupThreads + l)) = d) b.subgroupThreads

def countBefore (b : RadixBlock) (key : ℕ → BitVec 32) (g d : ℕ) : ℕ :=
  Nat.count (fun t => b.digit (key t) = d) (g * b.subgroupThreads)

theorem countBefore_zero (d : ℕ) : countBefore b key 0 d = 0 := by
  rw [countBefore, Nat.zero_mul, Nat.count_zero]

theorem countBefore_succ (g d : ℕ) :
    countBefore b key (g + 1) d = countBefore b key g d + rowCount b key g d := by
  rw [countBefore, Nat.succ_mul, Nat.count_add]
  rfl

theorem countBefore_all (d : ℕ) : countBefore b key b.blockSubgroups d =
      Nat.count (fun t => b.digit (key t) = d) b.radixDigits := by
  rw [countBefore, RadixBlock.blockSubgroups_mul]

section Cells

theorem matchIdx_thread {g l : ℕ} (hl : l < b.subgroupThreads) :
    matchIdx b key (g * b.subgroupThreads + l) =
      g * b.radixDigits + b.digit (key (g * b.subgroupThreads + l)) := by
  rw [matchIdx, RadixBlock.subgroupIdx_thread hl]

theorem matchIdx_eq_iff (t t' : ℕ) : matchIdx b key t = matchIdx b key t' ↔
    b.subgroupIdx t = b.subgroupIdx t' ∧ b.digit (key t) = b.digit (key t') := by
  constructor
  · intro h
    have hrow : b.subgroupIdx t = b.subgroupIdx t' := by
      rw [← matchIdx_div key t, h, matchIdx_div]
    rw [matchIdx, hrow] at h
    exact ⟨hrow, Nat.add_left_cancel h⟩
  · rintro ⟨hrow, hdigit⟩
    rw [matchIdx, matchIdx, hrow, hdigit]

theorem cell_eq_iff {j j' c : ℕ} : j * b.radixDigits + c = j' * b.radixDigits + c ↔ j = j' := by
  rw [Nat.add_right_cancel_iff]
  exact Nat.mul_left_inj (Nat.ne_of_gt b.radixDigits_pos)

variable {g d : ℕ} {order : List ℕ}

theorem mem_order_iff (hg : g < b.blockSubgroups)
    (h : order.Perm ((List.range b.radixDigits).filter fun i => b.subgroupIdx i = g)) (t : ℕ) :
    t ∈ order ↔ b.subgroupIdx t = g := by
  rw [h.mem_iff, mem_filter, mem_range, decide_eq_true_eq]
  refine ⟨And.right, fun ht => ⟨?_, ht⟩⟩
  rw [← b.subgroupIdx_mul_add_lane t, ht]
  exact RadixBlock.thread_lt hg (b.lane_lt t)

theorem countP_order (hg : g < b.blockSubgroups)
    (h : order.Perm ((List.range b.radixDigits).filter fun i => b.subgroupIdx i = g)) :
    (order.countP fun t => matchIdx b key t = g * b.radixDigits + d) = rowCount b key g d := by
  rw [(h.trans (RadixBlock.perm_threads hg)).countP_eq, countP_map, rowCount]
  apply countP_congr
  intro l hl
  rw [mem_range] at hl
  simp [matchIdx_thread hl]

end Cells

section Histogram

theorem zeroBins_smemOffsets (tid : ℕ) (s : RankState w) :
    (zeroBins b tid s).smemOffsets = clear (zeroedCells b tid) s.smemOffsets := by
  rw [zeroBins_eq]
  exact (foldl_hom RankState.smemOffsets fun _ _ => rfl).symm

theorem zeroBins_smemMatch (tid : ℕ) (s : RankState w) :
    (zeroBins b tid s).smemMatch = clear (zeroedCells b tid) s.smemMatch := by
  rw [zeroBins_eq]
  exact (foldl_hom RankState.smemMatch fun _ _ => rfl).symm

theorem foldl_zeroBins (order : List ℕ) (s : RankState w) :
    (order.foldl (fun s t => zeroBins b t s) s).smemOffsets =
        clear (order.flatMap (zeroedCells b)) s.smemOffsets ∧
      (order.foldl (fun s t => zeroBins b t s) s).smemMatch =
        clear (order.flatMap (zeroedCells b)) s.smemMatch := by
  rw [clear, clear, foldl_flatMap, foldl_flatMap]
  constructor
  · exact (foldl_hom RankState.smemOffsets fun s t => (zeroBins_smemOffsets t s).symm).symm
  · exact (foldl_hom RankState.smemMatch fun s t => (zeroBins_smemMatch t s).symm).symm

variable (b key) in
theorem foldl_countDigit (order : List ℕ) (s : RankState w) :
    (order.foldl (fun s t => countDigit b key t s) s).smemOffsets =
        atomics (· + ·) (matchIdx b key) (fun _ => 1) order s.smemOffsets ∧
      (order.foldl (fun s t => countDigit b key t s) s).smemMatch = s.smemMatch := by
  constructor
  · exact (foldl_hom RankState.smemOffsets fun _ _ => rfl).symm
  · induction order generalizing s with
    | nil => rfl
    | cons t order ih => exact ih _

variable (key) in
theorem histogram_eq (S : Schedule 2 (List.range b.radixDigits) b.subgroupIdx) (s : RankState w)
    {g d : ℕ} (hg : g < b.blockSubgroups) (hd : d < b.radixDigits) :
    (S.run (histogramPhase b key) s).smemOffsets (g * b.radixDigits + d) =
        BitVec.ofNat 32 (rowCount b key g d) ∧
      (S.run (histogramPhase b key) s).smemMatch (g * b.radixDigits + d) = 0 := by
  obtain ⟨order, hperm, hagree⟩ :=
    S.agree_run rowAgree_equivalence (histogramPhase_grouped key) g s
  have hmem : g * b.radixDigits + d ∈ (order 0).flatMap (zeroedCells b) := by
    have hlane : d % b.subgroupThreads < b.subgroupThreads := Nat.mod_lt _ b.subgroupThreads_pos
    refine mem_flatMap.2 ⟨g * b.subgroupThreads + d % b.subgroupThreads, ?_, ?_⟩
    · exact (mem_order_iff hg (hperm 0 (by decide)) _).2 (RadixBlock.subgroupIdx_thread hlane)
    · refine mem_map.2 ⟨d / b.subgroupThreads, mem_range.2 (b.subgroupIdx_lt hd), ?_⟩
      rw [RadixBlock.subgroupIdx_thread hlane, RadixBlock.lane_thread hlane, Nat.mod_add_div']
  obtain ⟨hzero, hzeroMatch⟩ := foldl_zeroBins (b := b) (order 0) s
  obtain ⟨hcount, hcountMatch⟩ := foldl_countDigit b key (order 1)
    ((order 0).foldl (fun s t => zeroBins b t s) s)
  rw [hagree.smemOffsets _ (row_eq hd), hagree.smemMatch _ (row_eq hd)]
  constructor
  · refine (congrFun hcount _).trans ?_
    rw [atomics_add_one, hzero, clear_of_mem _ hmem, countP_order hg (hperm 1 (by decide))]
    exact BitVec.zero_add _
  · refine (congrFun hcountMatch _).trans ?_
    rw [hzeroMatch, clear_of_mem _ hmem]

end Histogram

section Sweeps

theorem sweep_agree (S : Schedule 1 (List.range b.radixDigits) id)
    {step : ℕ → RankState w → RankState w}
    (hstep : Grouped id (ColumnAgree b) (List.range b.radixDigits) step) {tid : ℕ}
    (htid : tid < b.radixDigits) (s : RankState w) :
    ColumnAgree b tid (S.run (fun _ => step) s) (step tid s) := by
  obtain ⟨order, hperm, hagree⟩ :=
    S.agree_run columnAgree_equivalence (fun _ => hstep) tid s
  have hone : (List.range b.radixDigits).filter (fun i => id i = tid) = [tid] := by
    refine (filter_eq tid).trans ?_
    rw [count_eq_one_of_mem nodup_range (mem_range.2 htid)]
    rfl
  have horder : order 0 = [tid] := by
    have := hperm 0 Nat.one_pos
    rwa [hone, perm_singleton] at this
  refine (columnAgree_equivalence tid).trans hagree ?_
  rw [show List.range 1 = [0] from rfl, foldl_cons, horder]
  exact (columnAgree_equivalence tid).refl _

variable {tid : ℕ} {s : RankState w}

theorem upsweep_loop (n : ℕ) (hrow : ∀ j < n, s.smemOffsets (j * b.radixDigits + tid) =
      BitVec.ofNat 32 (rowCount b key j tid)) :
    let s' := (List.range n).foldl (fun s j =>
      let cell := j * b.radixDigits + tid
      let subgroupCount := s.smemOffsets cell
      (s.setOffset cell (s.binCount tid)).setBinCount tid (s.binCount tid + subgroupCount))
      (s.setBinCount tid 0)
    s'.binCount tid = BitVec.ofNat 32 (countBefore b key n tid) ∧
      ∀ j, s'.smemOffsets (j * b.radixDigits + tid) =
        if j < n then BitVec.ofNat 32 (countBefore b key j tid)
        else s.smemOffsets (j * b.radixDigits + tid) := by
  induction n with
  | zero =>
    refine ⟨?_, fun j => rfl⟩
    rw [countBefore_zero]
    exact Function.update_self _ _ _
  | succ n ih =>
    obtain ⟨hbin, hcells⟩ := ih fun j hj => hrow j (Nat.lt_succ_of_lt hj)
    simp only [range_succ, foldl_append, foldl_cons, foldl_nil]
    constructor
    · refine (Function.update_self _ _ _).trans ?_
      rw [hbin, hcells n, if_neg (Nat.lt_irrefl n), hrow n (Nat.lt_succ_self n),
        ← ofNat_add, ← countBefore_succ]
    · intro j
      rcases eq_or_ne j n with rfl | hne
      · rw [if_pos (Nat.lt_succ_self j)]
        exact (Function.update_self _ _ _).trans hbin
      · have hcell : j * b.radixDigits + tid ≠ n * b.radixDigits + tid :=
          fun h => hne (cell_eq_iff.1 h)
        refine (Function.update_of_ne hcell _ _).trans ((hcells j).trans ?_)
        exact if_congr (by omega) rfl rfl

theorem upsweep_eq (hrow : ∀ j < b.blockSubgroups, s.smemOffsets (j * b.radixDigits + tid) =
      BitVec.ofNat 32 (rowCount b key j tid)) :
    (upsweep b tid s).binCount tid =
        BitVec.ofNat 32 (Nat.count (fun t => b.digit (key t) = tid) b.radixDigits) ∧
      ∀ j < b.blockSubgroups, (upsweep b tid s).smemOffsets (j * b.radixDigits + tid) =
        BitVec.ofNat 32 (countBefore b key j tid) := by
  obtain ⟨hbin, hcells⟩ := upsweep_loop b.blockSubgroups hrow
  rw [← countBefore_all]
  exact ⟨hbin, fun j hj => (hcells j).trans (if_pos hj)⟩

theorem downsweep_loop (v : BitVec 32) (n j : ℕ) : ((List.range n).foldl (fun s j =>
      let cell := j * b.radixDigits + tid
      s.setOffset cell (s.smemOffsets cell + v)) s).smemOffsets (j * b.radixDigits + tid) =
      if j < n then s.smemOffsets (j * b.radixDigits + tid) + v
      else s.smemOffsets (j * b.radixDigits + tid) := by
  induction n with
  | zero => rfl
  | succ n ih =>
    simp only [range_succ, foldl_append, foldl_cons, foldl_nil]
    rcases eq_or_ne j n with rfl | hne
    · refine (Function.update_self _ _ _).trans ?_
      rw [ih, if_neg (Nat.lt_irrefl j), if_pos (Nat.lt_succ_self j)]
    · have hcell : j * b.radixDigits + tid ≠ n * b.radixDigits + tid :=
        fun h => hne (cell_eq_iff.1 h)
      refine (Function.update_of_ne hcell _ _).trans (ih.trans ?_)
      exact if_congr (by omega) rfl rfl

theorem upsweep_smemMatch (tid : ℕ) (s : RankState w) : (upsweep b tid s).smemMatch = s.smemMatch :=
  List.foldlRecOn (motive := fun s' : RankState w => s'.smemMatch = s.smemMatch)
    _ _ rfl fun _ h _ _ => h

theorem downsweep_smemMatch (e : ℕ → BitVec 32) (tid : ℕ) (s : RankState w) :
    (downsweep b e tid s).smemMatch = s.smemMatch :=
  List.foldlRecOn (motive := fun s' : RankState w => s'.smemMatch = s.smemMatch)
    _ _ rfl fun _ h _ _ => h

end Sweeps

def addI32 : BinOp (BitVec 32) where
  op := (· + ·)
  ident := 0
  assoc := BitVec.add_assoc
  ident_op _ := BitVec.zero_add _
  op_ident _ := BitVec.add_zero _

theorem exclusiveAdd_eq (outside : ℕ → ℕ → BitVec 32) {binCount : ℕ → BitVec 32}
    (hbin : ∀ d < b.radixDigits, binCount d =
      BitVec.ofNat 32 (Nat.count (fun t => b.digit (key t) = d) b.radixDigits)) {d : ℕ}
    (hd : d < b.radixDigits) :
    exclusiveAdd b.log2 outside b.blockSubgroups binCount d =
      BitVec.ofNat 32 (Nat.count (fun t => b.digit (key t) < d) b.radixDigits) := by
  have hlt : d < b.blockSubgroups * subgroupSize b.log2 := by
    rw [show subgroupSize b.log2 = b.subgroupThreads from rfl, b.blockSubgroups_mul]
    exact hd
  have hscan : exclusiveScan b.log2 outside addI32.op b.blockSubgroups addI32.ident binCount d =
      addI32.fold binCount 0 d := exclusiveScan_eq hlt
  rw [exclusiveAdd, BitVec.sub_self]
  refine hscan.trans ?_
  clear hscan hlt
  induction d with
  | zero => simp [addI32]
  | succ d ih =>
    rw [fold_succ, ih (by omega), Nat.zero_add, hbin d (by omega)]
    refine (ofNat_add _ _).symm.trans ?_
    rw [count_lt_add_count_eq (fun t => b.digit (key t)) d]

section Masks

def IsMask (b : RadixBlock) (key : ℕ → BitVec 32) (g d : ℕ) (mask : BitVec w) : Prop :=
  ∀ i, mask.getLsbD i = true ↔
    i < b.subgroupThreads ∧ b.digit (key (g * b.subgroupThreads + i)) = d

theorem foldl_orLaneMask (order : List ℕ) (s : RankState w) :
    (order.foldl (fun s t => orLaneMask b key t s) s).smemMatch =
        atomics (· ||| ·) (matchIdx b key) (fun t => 1#w <<< b.lane t) order s.smemMatch ∧
      (order.foldl (fun s t => orLaneMask b key t s) s).smemOffsets = s.smemOffsets := by
  constructor
  · exact (foldl_hom RankState.smemMatch fun _ _ => rfl).symm
  · exact List.foldlRecOn (motive := fun s' : RankState w => s'.smemOffsets = s.smemOffsets)
      _ _ rfl fun _ h _ _ => h

variable {g d : ℕ} {order : List ℕ}

theorem isMask_orLaneMask (hw : b.subgroupThreads = w) (hg : g < b.blockSubgroups)
    (h : order.Perm ((List.range b.radixDigits).filter fun i => b.subgroupIdx i = g))
    {s : RankState w} (hzero : s.smemMatch (g * b.radixDigits + d) = 0) :
    IsMask b key g d ((order.foldl (fun s t => orLaneMask b key t s) s).smemMatch
      (g * b.radixDigits + d)) := by
  intro i
  have hbit : ∀ t, (1#w <<< b.lane t).getLsbD i = true ↔ b.lane t = i := by
    intro t
    have hlane := b.lane_lt t
    rw [← twoPow_eq, getLsbD_twoPow, Bool.and_eq_true, decide_eq_true_eq, decide_eq_true_eq, ← hw]
    exact and_iff_right hlane
  rw [(foldl_orLaneMask order s).1, atomics_or, hzero]
  simp only [hbit, ofNat_eq_ofNat, getLsbD_zero, Bool.false_eq_true, false_or]
  constructor
  · rintro ⟨t, ht, hcell, rfl⟩
    have hrow := (mem_order_iff hg h t).1 ht
    have ht' := b.subgroupIdx_mul_add_lane t
    rw [hrow] at ht'
    rw [matchIdx, hrow] at hcell
    refine ⟨b.lane_lt t, ?_⟩
    rw [ht']
    exact Nat.add_left_cancel hcell
  · rintro ⟨hi, hdigit⟩
    refine ⟨g * b.subgroupThreads + i, ?_, ?_, RadixBlock.lane_thread hi⟩
    · exact (mem_order_iff hg h _).2 (RadixBlock.subgroupIdx_thread hi)
    · rw [matchIdx_thread hi, hdigit]

variable {mask : BitVec w}

variable {l : ℕ}

theorem exists_leader (hw : b.subgroupThreads = w) (hmask : IsMask b key g d mask)
    (hl : l < b.subgroupThreads) (hdigit : b.digit (key (g * b.subgroupThreads + l)) = d) :
    ∃ top < b.subgroupThreads, b.digit (key (g * b.subgroupThreads + top)) = d ∧
      leader mask = BitVec.ofNat 32 top := by
  let p : ℕ → Prop := fun i =>
    i < b.subgroupThreads ∧ b.digit (key (g * b.subgroupThreads + i)) = d
  have hbound : ∀ i, p i → i ≤ b.subgroupThreads := fun i hi => Nat.le_of_lt hi.1
  have htop : p (Nat.findGreatest p b.subgroupThreads) :=
    Nat.findGreatest_spec (Nat.le_of_lt hl) ⟨hl, hdigit⟩
  refine ⟨Nat.findGreatest p b.subgroupThreads, htop.1, htop.2, ?_⟩
  have hclz := toNat_clz ((hmask _).2 htop) fun i hi => by
    rw [← Bool.not_eq_true]
    intro hbit
    have hpi := (hmask i).1 hbit
    exact Nat.findGreatest_is_greatest hi (hbound i hpi) hpi
  apply eq_of_toNat_eq
  rw [leader, toNat_sub, toNat_setWidth, toNat_ofNat, toNat_ofNat]
  omega

theorem lanemaskLe_popc (hw : b.subgroupThreads = w) (hmask : IsMask b key g d mask)
    (hl : l < b.subgroupThreads) :
    popc b (lanemaskLe w) mask (g * b.subgroupThreads + l) = BitVec.ofNat 32
      (Nat.count (fun i => b.digit (key (g * b.subgroupThreads + i)) = d) (l + 1)) := by
  have hcount : (mask &&& lanemaskLe w l).cpop.toNat =
      Nat.count (fun i => b.digit (key (g * b.subgroupThreads + i)) = d) (l + 1) := by
    obtain ⟨rest, hrest⟩ := Nat.exists_eq_add_of_lt hl
    have hwidth : w = l + 1 + rest := by omega
    have hbit : ∀ i, (mask &&& lanemaskLe w l).getLsbD i = true ↔
        (i < b.subgroupThreads ∧ b.digit (key (g * b.subgroupThreads + i)) = d) ∧ i ≤ l := by
      intro i
      rw [getLsbD_and, Bool.and_eq_true, hmask i]
      exact and_congr_right fun _ => getLsbD_lanemask_le (hw ▸ hl) i
    have hnone : Nat.count (fun i => (mask &&& lanemaskLe w l).getLsbD (l + 1 + i) = true) rest =
        0 := by
      refine Nat.count_iff_forall_not.2 fun i _ h => ?_
      have hle := ((hbit _).1 h).2
      omega
    calc (mask &&& lanemaskLe w l).cpop.toNat
        = Nat.count (fun i => (mask &&& lanemaskLe w l).getLsbD i = true) w := toNat_cpop _
      _ = Nat.count (fun i => (mask &&& lanemaskLe w l).getLsbD i = true) (l + 1 + rest) :=
          congrArg _ hwidth
      _ = Nat.count (fun i => (mask &&& lanemaskLe w l).getLsbD i = true) (l + 1) := by
          rw [Nat.count_add, hnone, Nat.add_zero]
      _ = _ := by
          refine count_congr fun i hi => (hbit i).trans ?_
          constructor
          · exact fun h => h.1.2
          · exact fun h => ⟨⟨by omega, h⟩, by omega⟩
  rw [popc, RadixBlock.lane_thread hl]
  apply eq_of_toNat_eq
  rw [toNat_setWidth, hcount, toNat_ofNat]

end Masks

section Claims

variable {laneMaskLe : ℕ → BitVec w}

theorem claimSlots_smemMatch (t : ℕ) (s : RankState w) :
    (claimSlots b key laneMaskLe t s).smemMatch = s.smemMatch := by
  simp only [claimSlots]
  split_ifs <;> rfl

theorem claimSlots_binMask (t : ℕ) (s : RankState w) : (claimSlots b key laneMaskLe t s).binMask =
      Function.update s.binMask t (s.smemMatch (matchIdx b key t)) := by
  simp only [claimSlots]
  split_ifs <;> rfl

theorem claimSlots_subgroupOffset (t : ℕ) (s : RankState w) :
    (claimSlots b key laneMaskLe t s).subgroupOffset =
      Function.update s.subgroupOffset t
        (if isLeader b (s.smemMatch (matchIdx b key t)) t then s.smemOffsets (matchIdx b key t)
        else 0) := by
  simp only [claimSlots]
  split_ifs <;> rfl

variable {order : List ℕ} {s : RankState w} {t : ℕ}

theorem claimSlots_smemOffsets {x : ℕ}
    (h : isLeader b (s.smemMatch (matchIdx b key t)) t → x ≠ matchIdx b key t) :
    (claimSlots b key laneMaskLe t s).smemOffsets x = s.smemOffsets x := by
  simp only [claimSlots]
  split_ifs with hleader
  · exact Function.update_of_ne (h hleader) _ _
  · rfl

theorem eq_of_isLeader {t' : ℕ} {mask : BitVec w}
    (hcell : matchIdx b key t = matchIdx b key t') (h : isLeader b mask t)
    (h' : isLeader b mask t') : t = t' := by
  have hsmall : ∀ t, b.lane t < 2 ^ 32 := by
    intro t
    refine (b.lane_lt t).trans ?_
    rw [b.subgroupThreads_eq]
    rcases b.log2_eq with h | h <;> rw [h] <;> decide
  have hlane := congrArg BitVec.toNat (h.trans h'.symm)
  rw [toNat_ofNat, toNat_ofNat, Nat.mod_eq_of_lt (hsmall t), Nat.mod_eq_of_lt (hsmall t')] at hlane
  rw [← b.subgroupIdx_mul_add_lane t, ← b.subgroupIdx_mul_add_lane t', hlane,
    ((matchIdx_eq_iff t t').1 hcell).1]

variable (laneMaskLe) in
theorem foldl_claimSlots_of_not_mem (ht : t ∉ order) (s : RankState w) :
    (order.foldl (fun s t => claimSlots b key laneMaskLe t s) s).binMask t = s.binMask t ∧
      (order.foldl (fun s t => claimSlots b key laneMaskLe t s) s).subgroupOffset t =
        s.subgroupOffset t := by
  induction order generalizing s with
  | nil => exact ⟨rfl, rfl⟩
  | cons i order ih =>
    obtain ⟨hne, htail⟩ := ne_and_not_mem_of_not_mem_cons ht
    obtain ⟨hmask, hoffset⟩ := ih htail (claimSlots b key laneMaskLe i s)
    rw [foldl_cons, hmask, hoffset, claimSlots_binMask, claimSlots_subgroupOffset]
    exact ⟨Function.update_of_ne hne _ _, Function.update_of_ne hne _ _⟩

variable (key laneMaskLe) in
theorem foldl_claimSlots (hnodup : order.Nodup) (ht : t ∈ order)
    (s : RankState w) : (order.foldl (fun s t => claimSlots b key laneMaskLe t s) s).binMask t =
        s.smemMatch (matchIdx b key t) ∧
      (order.foldl (fun s t => claimSlots b key laneMaskLe t s) s).subgroupOffset t =
        if isLeader b (s.smemMatch (matchIdx b key t)) t then s.smemOffsets (matchIdx b key t)
        else 0 := by
  induction order generalizing s with
  | nil => exact absurd ht not_mem_nil
  | cons i order ih =>
    obtain ⟨hi, htail⟩ := nodup_cons.1 hnodup
    rw [foldl_cons]
    rcases mem_cons.1 ht with rfl | hmem
    · obtain ⟨hmask, hoffset⟩ :=
        foldl_claimSlots_of_not_mem laneMaskLe hi (claimSlots b key laneMaskLe t s)
      rw [hmask, hoffset, claimSlots_binMask, claimSlots_subgroupOffset, Function.update_self,
        Function.update_self]
      exact ⟨rfl, rfl⟩
    · obtain ⟨hmask, hoffset⟩ := ih htail hmem (claimSlots b key laneMaskLe i s)
      rw [hmask, hoffset, claimSlots_smemMatch]
      refine ⟨rfl, ?_⟩
      split_ifs with hleader
      · apply claimSlots_smemOffsets
        intro hother hcell
        have heq : t = i := by
          rw [← hcell] at hother
          exact eq_of_isLeader hcell hleader hother
        exact hi (heq ▸ hmem)
      · rfl

variable (b key) in
theorem foldl_resetMask (order : List ℕ) (s : RankState w) :
    (order.foldl (fun s t => resetMask b key t s) s).binMask = s.binMask ∧
      (order.foldl (fun s t => resetMask b key t s) s).subgroupOffset = s.subgroupOffset := by
  refine List.foldlRecOn (motive := fun s' : RankState w =>
    s'.binMask = s.binMask ∧ s'.subgroupOffset = s.subgroupOffset) _ _ ⟨rfl, rfl⟩ ?_
  rintro s' h t _
  rw [resetMask]
  split_ifs <;> exact h

variable (S : Schedule 3 (List.range b.radixDigits) b.subgroupIdx)

variable (key laneMaskLe) in
theorem ranks_run (hw : b.subgroupThreads = w) {g : ℕ} (hg : g < b.blockSubgroups)
    (s : RankState w) : ∃ mask : ℕ → BitVec w,
      (∀ d, s.smemMatch (g * b.radixDigits + d) = 0 →
        IsMask b key g d (mask (g * b.radixDigits + d))) ∧
      ∀ t, b.subgroupIdx t = g →
        (S.run (rankPhase b key laneMaskLe) s).binMask t = mask (matchIdx b key t) ∧
        (S.run (rankPhase b key laneMaskLe) s).subgroupOffset t =
          if isLeader b (mask (matchIdx b key t)) t then s.smemOffsets (matchIdx b key t)
          else 0 := by
  obtain ⟨order, hperm, hagree⟩ :=
    S.agree_run rowAgree_equivalence (rankPhase_grouped key laneMaskLe) g s
  have hnodup : (order 1).Nodup :=
    (hperm 1 (by decide)).nodup_iff.2 (nodup_range.filter _)
  refine ⟨((order 0).foldl (fun s t => orLaneMask b key t s) s).smemMatch, ?_, ?_⟩
  · intro d hzero
    exact isMask_orLaneMask hw hg (hperm 0 (by decide)) hzero
  · intro t ht
    have hmem := (mem_order_iff hg (hperm 1 (by decide)) t).2 ht
    obtain ⟨hmask, hoffset⟩ := foldl_claimSlots key laneMaskLe hnodup hmem
      ((order 0).foldl (fun s t => orLaneMask b key t s) s)
    rw [(foldl_orLaneMask (order 0) s).2] at hoffset
    rw [hagree.binMask t ht, hagree.subgroupOffset t ht]
    obtain ⟨hreset, hreset'⟩ := foldl_resetMask b key (order 2)
      ((order 1).foldl (fun s t => claimSlots b key laneMaskLe t s)
        ((order 0).foldl (fun s t => orLaneMask b key t s) s))
    exact ⟨(congrFun hreset t).trans hmask, (congrFun hreset' t).trans hoffset⟩

theorem rank_eq (hw : b.subgroupThreads = w) (outside : ℕ → ℕ → BitVec 32)
    (ht : t < b.radixDigits) (hoffset : s.smemOffsets (matchIdx b key t) =
      BitVec.ofNat 32 (countBefore b key (b.subgroupIdx t) (b.digit (key t))) +
        BitVec.ofNat 32 (Nat.count (fun i => b.digit (key i) < b.digit (key t)) b.radixDigits))
    (hzero : s.smemMatch (matchIdx b key t) = 0) :
    let s' := S.run (rankPhase b key (lanemaskLe w)) s
    (shuffle b outside s'.subgroupOffset (leader (s'.binMask t)) t +
      popc b (lanemaskLe w) (s'.binMask t) t - 1).toNat =
      place (fun i => b.digit (key i)) b.radixDigits t := by
  have hlane := b.lane_lt t
  have hthread := b.subgroupIdx_mul_add_lane t
  obtain ⟨mask, hIs, hrun⟩ := ranks_run key (lanemaskLe w) S hw
    (b.subgroupIdx_lt ht) s
  have hmask : IsMask b key (b.subgroupIdx t) (b.digit (key t)) (mask (matchIdx b key t)) :=
    hIs _ hzero
  obtain ⟨top, htop, hdigit, hleader⟩ := exists_leader hw hmask hlane (by rw [hthread])
  -- the thread that claims the slots, with the same cell
  obtain ⟨p, hp⟩ : ∃ p, b.subgroupIdx t * b.subgroupThreads + top = p := ⟨_, rfl⟩
  have hprow : b.subgroupIdx p = b.subgroupIdx t := hp ▸ RadixBlock.subgroupIdx_thread htop
  have hplane : b.lane p = top := hp ▸ RadixBlock.lane_thread htop
  rw [hp] at hdigit
  have hpcell : matchIdx b key p = matchIdx b key t := (matchIdx_eq_iff p t).2 ⟨hprow, hdigit⟩
  have hpleader : isLeader b (mask (matchIdx b key p)) p := by
    rw [isLeader, hpcell, hleader, hplane]
  have htoplt : top < 2 ^ 32 := by
    refine htop.trans ?_
    rw [b.subgroupThreads_eq]
    rcases b.log2_eq with h | h <;> rw [h] <;> decide
  have hclaimed : shuffle b outside (S.run (rankPhase b key (lanemaskLe w)) s).subgroupOffset
      (leader (mask (matchIdx b key t))) t = s.smemOffsets (matchIdx b key t) := by
    rw [hleader, shuffle, toNat_ofNat, Nat.mod_eq_of_lt htoplt, if_pos htop, hp,
      (hrun p hprow).2, if_pos hpleader, hpcell]
  have hpopc := lanemaskLe_popc hw hmask hlane
  rw [hthread] at hpopc
  have hplace : place (fun i => b.digit (key i)) b.radixDigits t =
      countBefore b key (b.subgroupIdx t) (b.digit (key t)) +
        Nat.count (fun i => b.digit (key i) < b.digit (key t)) b.radixDigits +
        Nat.count (fun i => b.digit (key (b.subgroupIdx t * b.subgroupThreads + i)) =
          b.digit (key t)) (b.lane t) := by
    have hsplit := Nat.count_add (fun i => b.digit (key i) = b.digit (key t))
      (b.subgroupIdx t * b.subgroupThreads) (b.lane t)
    rw [hthread] at hsplit
    rw [place, countBefore]
    omega
  have hself : Nat.count (fun i => b.digit (key (b.subgroupIdx t * b.subgroupThreads + i)) =
      b.digit (key t)) (b.lane t + 1) =
      Nat.count (fun i => b.digit (key (b.subgroupIdx t * b.subgroupThreads + i)) =
        b.digit (key t)) (b.lane t) + 1 := by
    rw [Nat.count_succ, if_pos (by rw [hthread])]
  have hlt : place (fun i => b.digit (key i)) b.radixDigits t < b.radixDigits := place_lt ht
  have hsmall := b.radixDigits_lt
  simp only [(hrun t rfl).1, hclaimed, hoffset, hpopc, hself, ← ofNat_add, hplace]
  rw [toNat_sub, toNat_ofNat]
  change (2 ^ 32 - 1 + _) % 2 ^ 32 = _
  omega

end Claims

section Ranks

structure RanksStably (b : RadixBlock) (key : ℕ → BitVec 32) (r : RadixRanks) : Prop where
  -- the threads with a smaller digit, and those before with the same digit
  rank : ∀ t < b.radixDigits, (r.rank t).toNat =
    Nat.count (fun i => b.digit (key i) < b.digit (key t)) b.radixDigits +
      Nat.count (fun i => b.digit (key i) = b.digit (key t)) t
  permutes : ((List.range b.radixDigits).map fun t => (r.rank t).toNat).Perm
    (List.range b.radixDigits)
  bins : ∀ d < b.radixDigits, (r.bins d).toNat =
    Nat.count (fun i => b.digit (key i) = d) b.radixDigits
  exclPrefix : ∀ d < b.radixDigits, (r.exclPrefix d).toNat =
    Nat.count (fun i => b.digit (key i) < d) b.radixDigits

variable (b) (key)

theorem wave_ranksStably (hw : b.subgroupThreads = w) (orders : RankOrders b)
    (outside : ℕ → ℕ → BitVec 32) (smem : RankState w) :
    RanksStably b key (radixRankMatchAtomicOrWave b orders outside key (lanemaskLe w) smem) := by
  let s₁ := orders.histogram.run (histogramPhase b key) smem
  let s₂ := orders.upsweep.run (fun _ => upsweep b) s₁
  let prefixes := exclusiveAdd b.log2 outside b.blockSubgroups s₂.binCount
  let s₃ := orders.downsweep.run (fun _ => downsweep b prefixes) s₂
  have hsmall := b.radixDigits_lt
  have hup : ∀ d < b.radixDigits, s₂.binCount d =
        BitVec.ofNat 32 (Nat.count (fun t => b.digit (key t) = d) b.radixDigits) ∧
      ∀ g < b.blockSubgroups, s₂.smemOffsets (g * b.radixDigits + d) =
        BitVec.ofNat 32 (countBefore b key g d) := by
    intro d hd
    have hagree := sweep_agree orders.upsweep upsweep_grouped hd s₁
    have hrow : ∀ g < b.blockSubgroups, s₁.smemOffsets (g * b.radixDigits + d) =
        BitVec.ofNat 32 (rowCount b key g d) := fun g hg =>
      (histogram_eq key orders.histogram smem hg hd).1
    obtain ⟨hbin, hcells⟩ := upsweep_eq hrow
    refine ⟨(hagree.binCount d rfl).trans hbin, fun g hg => ?_⟩
    exact (hagree.smemOffsets _ (column_eq hd)).trans (hcells g hg)
  have hexcl : ∀ d < b.radixDigits, prefixes d =
      BitVec.ofNat 32 (Nat.count (fun t => b.digit (key t) < d) b.radixDigits) := fun d hd =>
    exclusiveAdd_eq outside (fun d hd => (hup d hd).1) hd
  have hdown : ∀ d < b.radixDigits, ∀ g < b.blockSubgroups,
      s₃.smemOffsets (g * b.radixDigits + d) = BitVec.ofNat 32 (countBefore b key g d) +
        BitVec.ofNat 32 (Nat.count (fun t => b.digit (key t) < d) b.radixDigits) := by
    intro d hd g hg
    have hagree := sweep_agree orders.downsweep (downsweep_grouped prefixes) hd s₂
    refine (hagree.smemOffsets _ (column_eq hd)).trans ?_
    refine (downsweep_loop (prefixes d) b.blockSubgroups g).trans ?_
    rw [if_pos hg, (hup d hd).2 g hg, hexcl d hd]
  have hmatch : s₃.smemMatch = s₁.smemMatch :=
    (orders.downsweep.run_eq RankState.smemMatch (fun _ => downsweep_smemMatch prefixes) s₂).trans
      (orders.upsweep.run_eq RankState.smemMatch (fun _ => upsweep_smemMatch) s₁)
  have hrank : ∀ t < b.radixDigits,
      ((radixRankMatchAtomicOrWave b orders outside key (lanemaskLe w) smem).rank t).toNat =
        place (fun i => b.digit (key i)) b.radixDigits t := by
    intro t ht
    have hg := b.subgroupIdx_lt ht
    have hd : b.digit (key t) < b.radixDigits := RadixBlock.digit_lt (key t)
    have hzero := (histogram_eq key orders.histogram smem hg hd).2
    exact rank_eq orders.ranks hw outside ht (hdown _ hd _ hg)
      ((congrFun hmatch _).trans hzero)
  have hcount : ∀ (p : ℕ → Prop) [DecidablePred p],
      (BitVec.ofNat 32 (Nat.count p b.radixDigits)).toNat = Nat.count p b.radixDigits := by
    intro p _
    have hle := Nat.count_le (p := p) (n := b.radixDigits)
    rw [toNat_ofNat, Nat.mod_eq_of_lt (by omega)]
  constructor
  · exact hrank
  · have hranks : ((List.range b.radixDigits).map fun t =>
        ((radixRankMatchAtomicOrWave b orders outside key (lanemaskLe w) smem).rank t).toNat) =
        (List.range b.radixDigits).map (place (fun i => b.digit (key i)) b.radixDigits) := by
      apply map_congr_left
      intro t ht
      exact hrank t (mem_range.1 ht)
    rw [hranks]
    exact place_perm _ _
  · intro d hd
    exact (congrArg BitVec.toNat (hup d hd).1).trans (hcount _)
  · intro d hd
    exact (congrArg BitVec.toNat (hexcl d hd)).trans (hcount _)

/-- The block radix rank is stable, whatever the order in which the threads of a subgroup come. -/
theorem radixRankMatchAtomicOr_ranksStably (orders : RankOrders b) (outside : ℕ → ℕ → BitVec 32)
    (smem : (w : ℕ) → RankState w) :
    RanksStably b key (radixRankMatchAtomicOr b orders outside key smem) := by
  rw [radixRankMatchAtomicOr]
  split_ifs with h
  · exact wave_ranksStably b key h orders outside (smem 32)
  · have h64 : b.subgroupThreads = 64 := by
      rw [b.subgroupThreads_eq] at h ⊢
      rcases b.log2_eq with h5 | h6
      · exact absurd (by rw [h5]; rfl) h
      · rw [h6]
        rfl
    exact wave_ranksStably b key h64 orders outside (smem 64)

end Ranks

end Quadrants.Simt
