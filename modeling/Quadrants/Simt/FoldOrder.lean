import Quadrants.Simt.BlockOps
import Mathlib.Data.Matrix.Mul
import Mathlib.LinearAlgebra.Matrix.Notation

/-!
The scans fold in the order of the threads. The reductions fold each subgroup in another order, so
they need a commutative operation.
-/

namespace Quadrants.Simt

open Library.SegmentFold List

variable {α : Type} {log2 : ℕ} {outside : ℕ → ℕ → α}

theorem subgroupSize_eq (log2 : ℕ) : subgroupSize log2 = 2 ^ log2 :=
  Nat.one_shiftLeft log2

theorem subgroupSize_pos (log2 : ℕ) : 0 < subgroupSize log2 := by
  rw [subgroupSize_eq]
  exact Nat.two_pow_pos log2

theorem laneId_eq {g l : ℕ} (hl : l < subgroupSize log2) :
    laneId log2 (g * subgroupSize log2 + l) = l := by
  rw [subgroupSize_eq] at hl
  rw [laneId, subgroupSize_eq, Nat.and_two_pow_sub_one_eq_mod, Nat.mul_comm, Nat.mul_add_mod,
    Nat.mod_eq_of_lt hl]

theorem shuffleDown_eq {g l offset : ℕ} (h : l + offset < subgroupSize log2) (value : ℕ → α) :
    shuffleDown log2 outside value offset (g * subgroupSize log2 + l) =
      value (g * subgroupSize log2 + (l + offset)) := by
  rw [shuffleDown, laneId_eq (by omega), if_pos h, Nat.add_assoc]

theorem shuffleUp_eq {g l offset : ℕ} (h : offset ≤ l) (hl : l < subgroupSize log2)
    (value : ℕ → α) : shuffleUp log2 outside value offset (g * subgroupSize log2 + l) =
      value (g * subgroupSize log2 + (l - offset)) := by
  rw [shuffleUp, laneId_eq hl, if_pos h, Nat.add_sub_assoc h]

section Trees

variable (op : α → α → α)

/-- What lane 0 has after the rounds: halves are combined lane by lane, the farthest lanes first. -/
def tree : ℕ → (ℕ → α) → α
  | 0, value => value 0
  | steps + 1, value => tree steps fun l => op (value l) (value (l + 2 ^ steps))

variable {op}

theorem tree_congr {steps : ℕ} {value value' : ℕ → α} (h : ∀ l < 2 ^ steps, value l = value' l) :
    tree op steps value = tree op steps value' := by
  induction steps generalizing value value' with
  | zero => exact h 0 Nat.one_pos
  | succ steps ih =>
    refine ih fun l hl => ?_
    rw [h l (by omega), h (l + 2 ^ steps) (by omega)]

theorem reduceRounds_succ (steps : ℕ) (value : ℕ → α) :
    reduceRounds log2 outside op (steps + 1) value =
      reduceRounds log2 outside op steps fun tid =>
        op (value tid) (shuffleDown log2 outside value (1 <<< steps) tid) := by
  rw [reduceRounds, range_succ_eq_map, foldl_cons, foldl_map]
  refine congrFun (congrArg₂ _ (funext fun value => funext fun i => funext fun tid => ?_) rfl) _
  rw [Nat.add_sub_cancel, Nat.sub_sub, Nat.add_comm 1 i]

theorem reduceRounds_eq_tree {steps : ℕ} (h : steps ≤ log2) (g : ℕ) (value : ℕ → α) :
    reduceRounds log2 outside op steps value (g * subgroupSize log2) =
      tree op steps fun l => value (g * subgroupSize log2 + l) := by
  induction steps generalizing value with
  | zero => rfl
  | succ steps ih =>
    rw [reduceRounds_succ, ih (by omega)]
    refine tree_congr fun l hl => ?_
    have hpow : 2 ^ (steps + 1) ≤ 2 ^ log2 := Nat.pow_le_pow_right (by decide) h
    rw [Nat.one_shiftLeft, shuffleDown_eq]
    rw [subgroupSize_eq]
    omega

theorem reduceTiled_eq_tree (g : ℕ) (value : ℕ → α) :
    reduceTiled log2 outside op value (g * subgroupSize log2) =
      tree op log2 fun l => value (g * subgroupSize log2 + l) :=
  reduceRounds_eq_tree le_rfl g value

end Trees

section Commuting

variable {o : BinOp α}

theorem two_le_pow (steps : ℕ) : 2 ≤ 2 ^ (steps + 1) := by
  have := Nat.two_pow_pos steps
  omega

theorem fold_op (hcomm : ∀ x y, o.op x y = o.op y x) (f f' : ℕ → α) (a n : ℕ) :
    o.fold (fun i => o.op (f i) (f' i)) a n = o.op (o.fold f a n) (o.fold f' a n) := by
  induction n with
  | zero => exact (o.ident_op _).symm
  | succ n ih =>
    rw [fold_succ, fold_succ, fold_succ, ih, o.assoc, o.assoc,
      ← o.assoc (o.fold f' a n) (f (a + n)), hcomm (o.fold f' a n) (f (a + n)), o.assoc]

theorem tree_eq_fold (hcomm : ∀ x y, o.op x y = o.op y x) (steps : ℕ) (value : ℕ → α) :
    tree o.op steps value = o.fold value 0 (2 ^ steps) := by
  induction steps generalizing value with
  | zero => exact (fold_one o value 0).symm
  | succ steps ih =>
    rw [tree, ih, fold_op hcomm, Nat.pow_succ, Nat.mul_two, fold_add]
    congr 1
    exact fold_congr o fun i _ => by rw [Nat.zero_add, Nat.zero_add, Nat.add_comm]

theorem tree_eq_fold_of_le_one {steps : ℕ} (h : steps ≤ 1) (value : ℕ → α) :
    tree o.op steps value = o.fold value 0 (2 ^ steps) := by
  rcases Nat.le_one_iff_eq_zero_or_eq_one.1 h with rfl | rfl
  · exact (fold_one o value 0).symm
  · change o.op (value 0) (value 1) = o.fold value 0 2
    rw [fold_succ, fold_one]

theorem tree_two_lanes {steps : ℕ} {value : ℕ → α}
    (h : ∀ l, 2 ≤ l → l < 2 ^ (steps + 1) → value l = o.ident) :
    tree o.op (steps + 1) value = o.op (value 0) (value 1) := by
  induction steps generalizing value with
  | zero => rfl
  | succ steps ih =>
    have hpow : 2 ≤ 2 ^ (steps + 1) := two_le_pow steps
    rw [tree, ih]
    · rw [h (0 + 2 ^ (steps + 1)) (by omega) (by omega),
        h (1 + 2 ^ (steps + 1)) (by omega) (by omega), o.op_ident, o.op_ident]
    · intro l hl hlt
      rw [h l hl (by omega), h (l + 2 ^ (steps + 1)) (by omega) (by omega), o.op_ident]

theorem fold_eq_ident {f : ℕ → α} {a n : ℕ} (h : ∀ j < n, f (a + j) = o.ident) :
    o.fold f a n = o.ident := by
  induction n with
  | zero => rfl
  | succ n ih =>
    rw [fold_succ, ih fun j hj => h j (by omega), h n (Nat.lt_succ_self n), o.op_ident]

theorem fold_eq_single {f : ℕ → α} {a n i : ℕ} (hi : i < n)
    (h : ∀ j < n, j ≠ i → f (a + j) = o.ident) : o.fold f a n = f (a + i) := by
  obtain ⟨rest, rfl⟩ := Nat.exists_eq_add_of_lt hi
  rw [Nat.add_right_comm, fold_add, fold_succ, fold_eq_ident fun j hj => h j (by omega) (by omega),
    o.ident_op, fold_eq_ident, o.op_ident]
  intro j hj
  rw [Nat.add_assoc]
  exact h (i + 1 + j) (by omega) (by omega)

end Commuting

section Scans

variable {o : BinOp α}

theorem scanRounds_succ (op : α → α → α) (steps : ℕ) (value : ℕ → α) (tid : ℕ) :
    scanRounds log2 outside op (steps + 1) value tid =
      if laneId log2 tid ≥ 2 ^ steps then
        op (shuffleUp log2 outside (scanRounds log2 outside op steps value) (2 ^ steps) tid)
          (scanRounds log2 outside op steps value tid)
      else scanRounds log2 outside op steps value tid := by
  simp [scanRounds, range_succ, Nat.one_shiftLeft]

theorem scanRounds_eq (steps g : ℕ) {l : ℕ} (hl : l < subgroupSize log2) (value : ℕ → α) :
    scanRounds log2 outside o.op steps value (g * subgroupSize log2 + l) =
      o.fold value (g * subgroupSize log2 + (l + 1 - 2 ^ steps)) (min (2 ^ steps) (l + 1)) := by
  induction steps generalizing l with
  | zero =>
    have hone : min (2 ^ 0) (l + 1) = 1 := by omega
    rw [hone, fold_one]
    rfl
  | succ steps ih =>
    rw [scanRounds_succ, laneId_eq hl, ih hl, Nat.pow_succ]
    split
    · next hlane =>
        rw [shuffleUp_eq hlane hl, ih (lt_of_le_of_lt (Nat.sub_le _ _) hl)]
        have hmin : min (2 ^ steps * 2) (l + 1) =
            min (2 ^ steps) (l - 2 ^ steps + 1) + 2 ^ steps := by
          omega
        have hmin' : min (2 ^ steps) (l + 1) = 2 ^ steps := by omega
        have hstart : g * subgroupSize log2 + (l + 1 - 2 ^ steps * 2) =
            g * subgroupSize log2 + (l - 2 ^ steps + 1 - 2 ^ steps) := by
          omega
        have hnext : g * subgroupSize log2 + (l + 1 - 2 ^ steps) =
            g * subgroupSize log2 + (l - 2 ^ steps + 1 - 2 ^ steps) +
              min (2 ^ steps) (l - 2 ^ steps + 1) := by
          omega
        rw [hmin, hmin', hstart, hnext, fold_add]
    · next hlane =>
        have hmin : min (2 ^ steps * 2) (l + 1) = min (2 ^ steps) (l + 1) := by omega
        have hstart : l + 1 - 2 ^ steps * 2 = l + 1 - 2 ^ steps := by omega
        rw [hmin, hstart]

theorem inclusiveScanTiled_eq (g : ℕ) {l : ℕ} (hl : l < subgroupSize log2) (value : ℕ → α) :
    inclusiveScanTiled log2 outside o.op value (g * subgroupSize log2 + l) =
      o.fold value (g * subgroupSize log2) (l + 1) := by
  have hpow := subgroupSize_eq log2
  have hmin : min (2 ^ log2) (l + 1) = l + 1 := by omega
  have hstart : l + 1 - 2 ^ log2 = 0 := by omega
  rw [inclusiveScanTiled, scanRounds_eq log2 g hl, hmin, hstart, Nat.add_zero]

theorem exclusiveScanTiled_eq (g : ℕ) {l : ℕ} (hl : l < subgroupSize log2) (value : ℕ → α) :
    exclusiveScanTiled log2 outside o.op o.ident value (g * subgroupSize log2 + l) =
      o.fold value (g * subgroupSize log2) l := by
  have hfirst : laneId log2 (g * subgroupSize log2) = 0 :=
    laneId_eq (g := g) (l := 0) (subgroupSize_pos log2)
  rw [exclusiveScanTiled, inclusiveScanTiled_eq g hl, Nat.add_comm l 1, fold_add, fold_one,
    if_pos hfirst, o.ident_op]
  refine fold_congr o fun i hi => ?_
  rw [Nat.add_assoc, laneId_eq (by omega), if_neg (by omega), shuffleUp_eq (by omega) (by omega),
    Nat.add_sub_cancel_left]

end Scans

section Aggregates

variable {o : BinOp α} {shared : ℕ → α}

theorem foldShared_eq {numSubgroups : ℕ} (h : 0 < numSubgroups) :
    foldShared o.op numSubgroups shared = o.fold shared 0 numSubgroups := by
  obtain ⟨n, rfl⟩ := Nat.exists_eq_succ_of_ne_zero (Nat.ne_of_gt h)
  rw [foldShared, Nat.succ_sub_one]
  induction n with
  | zero => exact (fold_one o shared 0).symm
  | succ n ih =>
    rw [List.range'_concat, foldl_append, ih (Nat.succ_pos n), foldl_cons,
      foldl_nil, Nat.one_mul, fold_succ o shared 0 (n + 1), Nat.zero_add, Nat.add_comm 1 n]

theorem prefixLoop_eq (subgroupId n : ℕ) (subgroupPrefix : α) :
    prefixLoop o.op (n + 1) subgroupId shared subgroupPrefix =
      (o.fold shared 0 (n + 1), if 1 ≤ subgroupId ∧ subgroupId ≤ n then o.fold shared 0 subgroupId
        else subgroupPrefix) := by
  rw [prefixLoop, Nat.add_sub_cancel]
  induction n with
  | zero => rw [List.range'_zero, foldl_nil, fold_one, if_neg (by omega)]
  | succ n ih =>
    rw [List.range'_concat, foldl_append, ih, foldl_cons, foldl_nil, Nat.one_mul,
      Nat.add_comm 1 n, fold_succ o shared 0 (n + 1), Nat.zero_add]
    refine congrArg _ ?_
    by_cases heq : subgroupId = n + 1
    · subst heq
      rw [if_pos rfl]
      exact (if_pos ⟨Nat.succ_pos n, le_rfl⟩).symm
    · rw [if_neg heq]
      by_cases hle : 1 ≤ subgroupId ∧ subgroupId ≤ n
      · rw [if_pos hle, if_pos (by omega)]
      · rw [if_neg hle, if_neg (by omega)]

theorem prefixLoop_prefix {numSubgroups subgroupId : ℕ} (h : subgroupId < numSubgroups)
    (hne : subgroupId ≠ 0) (subgroupPrefix : α) :
    (prefixLoop o.op numSubgroups subgroupId shared subgroupPrefix).2 =
      o.fold shared 0 subgroupId := by
  obtain ⟨n, rfl⟩ := Nat.exists_eq_succ_of_ne_zero (Nat.ne_of_gt (Nat.zero_lt_of_lt h))
  rw [prefixLoop_eq]
  exact if_pos (by omega)

end Aggregates

section Blocks

variable {o : BinOp α} {numSubgroups : ℕ} {value : ℕ → α}

theorem last_lt (log2 : ℕ) : subgroupSize log2 - 1 < subgroupSize log2 :=
  Nat.sub_lt (subgroupSize_pos log2) Nat.one_pos

theorem fold_prefix {shared : ℕ → α}
    (hshared : ∀ w, shared w = o.fold value (w * subgroupSize log2) (subgroupSize log2)) (g n : ℕ) :
    o.op (o.fold shared 0 g) (o.fold value (g * subgroupSize log2) n) =
      o.fold value 0 (g * subgroupSize log2 + n) := by
  have htiles := fold_tiles o value (subgroupSize log2) 0 g
  simp only [Nat.zero_add] at htiles
  rw [funext hshared, htiles, fold_add, Nat.zero_add]

theorem scan_eq {tiled shared : ℕ → α} {count : ℕ → ℕ} {subgroupPrefix : α}
    (htiled : ∀ g l, l < subgroupSize log2 →
      tiled (g * subgroupSize log2 + l) = o.fold value (g * subgroupSize log2) (count l))
    (hshared : ∀ w, shared w = o.fold value (w * subgroupSize log2) (subgroupSize log2)) {tid : ℕ}
    (htid : tid < numSubgroups * subgroupSize log2) :
    (if numSubgroups = 1 then tiled tid else if tid / subgroupSize log2 ≠ 0 then
        o.op (prefixLoop o.op numSubgroups (tid / subgroupSize log2) shared subgroupPrefix).2
          (tiled tid)
      else tiled tid) =
      o.fold value 0
        (tid / subgroupSize log2 * subgroupSize log2 + count (tid % subgroupSize log2)) := by
  have hsubgroup : tid / subgroupSize log2 < numSubgroups :=
    (Nat.div_lt_iff_lt_mul (subgroupSize_pos log2)).2 htid
  have hlane := htiled (tid / subgroupSize log2) _ (Nat.mod_lt tid (subgroupSize_pos log2))
  rw [Nat.mul_comm, Nat.div_add_mod, Nat.mul_comm] at hlane
  by_cases hfirst : tid / subgroupSize log2 = 0
  · rw [if_neg (not_not.2 hfirst), ite_self, hlane, hfirst, Nat.zero_mul, Nat.zero_add]
  · have hmany : numSubgroups ≠ 1 := fun hone => hfirst (Nat.lt_one_iff.1 (hone ▸ hsubgroup))
    rw [if_neg hmany, if_pos hfirst, prefixLoop_prefix hsubgroup hfirst, hlane, fold_prefix hshared]

theorem inclusiveScan_eq {tid : ℕ} (htid : tid < numSubgroups * subgroupSize log2) :
    inclusiveScan log2 outside o.op numSubgroups value tid = o.fold value 0 (tid + 1) := by
  have hshared : ∀ w, inclusiveScanTiled log2 outside o.op value
      (w * subgroupSize log2 + (subgroupSize log2 - 1)) =
      o.fold value (w * subgroupSize log2) (subgroupSize log2) := by
    intro w
    rw [inclusiveScanTiled_eq w (last_lt log2), Nat.sub_add_cancel (subgroupSize_pos log2)]
  simp only [inclusiveScan, ite_apply]
  refine (@scan_eq _ _ _ _ _ _ _ (fun l => l + 1) _
    (fun g l hl => inclusiveScanTiled_eq g hl value) hshared _ htid).trans ?_
  rw [← Nat.add_assoc, Nat.mul_comm, Nat.div_add_mod]

theorem exclusiveScan_eq {tid : ℕ} (htid : tid < numSubgroups * subgroupSize log2) :
    exclusiveScan log2 outside o.op numSubgroups o.ident value tid = o.fold value 0 tid := by
  have hshared : ∀ w, o.op (exclusiveScanTiled log2 outside o.op o.ident value
      (w * subgroupSize log2 + (subgroupSize log2 - 1)))
      (value (w * subgroupSize log2 + (subgroupSize log2 - 1))) =
      o.fold value (w * subgroupSize log2) (subgroupSize log2) := by
    intro w
    rw [exclusiveScanTiled_eq w (last_lt log2), ← fold_succ,
      Nat.sub_add_cancel (subgroupSize_pos log2)]
  simp only [exclusiveScan, ite_apply]
  refine (@scan_eq _ _ _ _ _ _ _ (fun l => l) _
    (fun g l hl => exclusiveScanTiled_eq g hl value) hshared _ htid).trans ?_
  rw [Nat.mul_comm, Nat.div_add_mod]

theorem reduce_eq (h : 0 < numSubgroups) : reduce log2 outside o.op numSubgroups value 0 =
      o.fold (fun g => tree o.op log2 fun l => value (g * subgroupSize log2 + l)) 0
        numSubgroups := by
  have hagg := fun g => @reduceTiled_eq_tree _ log2 outside o.op g value
  unfold reduce
  simp only
  split
  · next hone =>
      have hfirst := hagg 0
      rw [Nat.zero_mul] at hfirst
      rw [hone, fold_one, hfirst, Nat.zero_mul]
  · beta_reduce
    rw [foldShared_eq h]
    exact fold_congr o fun i _ => hagg _

theorem reduce_eq_fold (h : 0 < numSubgroups)
    (htree : ∀ value : ℕ → α, tree o.op log2 value = o.fold value 0 (2 ^ log2)) :
    reduce log2 outside o.op numSubgroups value 0 =
      o.fold value 0 (numSubgroups * subgroupSize log2) := by
  have htiles := fold_tiles o value (subgroupSize log2) 0 numSubgroups
  rw [reduce_eq h, ← htiles]
  refine fold_congr o fun g _ => ?_
  rw [htree, ← subgroupSize_eq]
  exact fold_congr o fun l _ => by simp only [Nat.zero_add]

def twoValues (o : BinOp α) (steps : ℕ) (x y : α) (tid : ℕ) : α :=
  if tid = 1 then x else if tid = 2 ^ (steps + 1) then y else o.ident

theorem twoValues_half (steps : ℕ) (x y : α) : twoValues o steps x y (2 ^ (steps + 1)) = y := by
  rw [twoValues, if_neg (by omega), if_pos rfl]

theorem twoValues_of_ne {steps tid : ℕ} (x y : α) (hone : tid ≠ 1) (hhalf : tid ≠ 2 ^ (steps + 1)) :
    twoValues o steps x y tid = o.ident := by
  rw [twoValues, if_neg hone, if_neg hhalf]

theorem tree_twoValues (steps : ℕ) (x y : α) :
    tree o.op (steps + 2) (twoValues o steps x y) = o.op y x := by
  have hpow := two_le_pow steps
  rw [tree, tree_two_lanes]
  · rw [Nat.zero_add, twoValues_half, twoValues_of_ne x y (by omega) (by omega), o.ident_op,
      @twoValues_of_ne _ o steps (1 + 2 ^ (steps + 1)) x y (by omega) (by omega), o.op_ident]
    rfl
  · intro l hl hlt
    rw [twoValues_of_ne x y (by omega) (by omega),
      @twoValues_of_ne _ o steps (l + 2 ^ (steps + 1)) x y (by omega) (by omega), o.op_ident]

theorem fold_twoValues (steps : ℕ) (x y : α) :
    o.fold (twoValues o steps x y) 0 (2 ^ (steps + 2)) = o.op x y := by
  have hpow := two_le_pow steps
  rw [Nat.pow_succ, Nat.mul_two, fold_add, fold_eq_single (i := 1), fold_eq_single (i := 0),
    Nat.zero_add, Nat.add_zero, Nat.zero_add, twoValues_half]
  · rfl
  · omega
  · intro j hj hne
    exact twoValues_of_ne x y (by omega) (by omega)
  · omega
  · intro j hj hne
    exact twoValues_of_ne x y (by omega) (by omega)

theorem commute_of_foldsInOrder {steps : ℕ} {outside : ℕ → ℕ → α} {x y : α}
    (h : FoldsInOrder (steps + 2) outside o 1 (twoValues o steps x y)) : o.op x y = o.op y x := by
  have hreduce := h.reduce
  rw [reduce_eq Nat.one_pos, fold_one, Nat.one_mul, subgroupSize_eq, fold_twoValues] at hreduce
  simp only [Nat.zero_mul, Nat.zero_add] at hreduce
  exact hreduce.symm.trans (tree_twoValues steps x y)

end Blocks

def matrixProduct : BinOp (Matrix (Fin 2) (Fin 2) ℤ) where
  op := (· * ·)
  ident := 1
  assoc := Matrix.mul_assoc
  ident_op := Matrix.one_mul
  op_ident := Matrix.mul_one

end Quadrants.Simt
