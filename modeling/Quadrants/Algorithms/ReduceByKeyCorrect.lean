import Mathlib.Algebra.BigOperators.Group.List.Basic
import Mathlib.Data.BitVec
import Quadrants.Library.ConsecutiveRuns
import Quadrants.Algorithms.SelectCorrect

namespace Quadrants.Algorithms

open Quadrants.Library.Grid List
open Quadrants.Library.SegmentFold
open Quadrants.Library.ConsecutiveRuns

variable {K V : Type} [DecidableEq K] [AddCommMonoid V]

def exactOps : KeyOps K V := ⟨fun x y => decide (x ≠ y), (· + ·), 0⟩

section flags

variable {key : ℕ → K} {n : ℕ}

def sameKey (key : ℕ → K) (i j : ℕ) : Bool := decide (key i = key j)

variable {i : ℕ} {m m' : Memory (KeyTensor.Cell K V)}

theorem isHead_succ : IsHead (sameKey key) (i + 1) ↔ key (i + 1) ≠ key i := by
  rw [IsHead, sameKey, decide_eq_false_iff_not, eq_comm]

def HasKeys (key : ℕ → K) (n : ℕ) (m : Memory (KeyTensor.Cell K V)) : Prop :=
  ∀ i < n, keysInView.get m i = key i

theorem headFlag_eq (h : HasKeys key n m) (h31 : n < 2 ^ 31) (hi : i < n) :
    (headFlag exactOps i m).1 = if IsHead (sameKey key) i then 1#32 else 0#32 := by
  cases i with
  | zero => rfl
  | succ i =>
    have hprevious : i32 (((i + 1 : ℕ) : ℤ) - 1) = i := by
      rw [i32_of_lt (by omega) (by omega)]
      omega
    simp only [headFlag, Nat.succ_ne_zero, if_false, Fetch.bind_apply, View.load_apply,
      Fetch.pure_apply, hprevious, h (i + 1) hi, h i (by omega), exactOps, isHead_succ,
      decide_eq_true_eq]

theorem lastHeadFlag_eq (h : HasKeys key (n + 1) m)
    (h31 : n + 1 < 2 ^ 31) : (lastHeadFlag exactOps (n + 1 : ℕ) m).1 =
      if IsHead (sameKey key) n then 1#32 else 0#32 := by
  cases n with
  | zero => rfl
  | succ i =>
    have hlast : i32 (((i + 1 + 1 : ℕ) : ℤ) - 1) = (i + 1 : ℕ) := by
      rw [i32_of_lt (by omega) (by omega)]
      omega
    have hprevious : i32 (((i + 1 + 1 : ℕ) : ℤ) - 2) = i := by
      rw [i32_of_lt (by omega) (by omega)]
      omega
    have hone : ((i + 1 + 1 : ℕ) : ℤ) ≠ 1 := by omega
    simp only [lastHeadFlag, hone, if_false, Fetch.bind_apply, View.load_apply,
      Fetch.pure_apply, hlast, hprevious, h (i + 1) (by omega), h i (by omega), exactOps,
      isHead_succ, decide_eq_true_eq]

theorem rbkHeadFlagsPhase_spec {ls} (h : HasKeys key n m) (h31 : n < 2 ^ 31)
    (hruns : RunsInSomeOrder (rbkHeadFlagsPhase exactOps 0 n :: ls) m m') :
    ∃ middle : Memory (KeyTensor.Cell K V), RunsInSomeOrder ls middle m' ∧
      (∀ i < n, keyScratch.get middle i = if IsHead (sameKey key) i then 1#32 else 0#32) ∧
        ∀ b ≠ .scratch, middle b = m b := by
  obtain ⟨us, hus, hrest⟩ := hruns
  have hunits : (rbkHeadFlagsPhase exactOps 0 n : Launch (KeyTensor.Cell K V)).units = n :=
    Int.toNat_natCast n
  have hmem (u : ℕ) : u ∈ us ↔ u < n := hus.mem_iff.trans mem_range
  have hbody : ∀ m' : Memory (KeyTensor.Cell K V), (∀ b ≠ .scratch, m' b = m b) →
      ∀ u < (rbkHeadFlagsPhase exactOps 0 n : Launch (KeyTensor.Cell K V)).units,
        ((rbkHeadFlagsPhase exactOps 0 n : Launch (KeyTensor.Cell K V)).body u m').1 =
          [keyScratch.store (u : ℕ) (if IsHead (sameKey key) u then 1#32 else 0#32)] := by
    intro m' hm' u hu
    have hkeys : HasKeys key n m' := fun i hi =>
      (View.get_congr (v := keysInView) (hm' .keysIn nofun) i).trans (h i hi)
    simp only [rbkHeadFlagsPhase, Fetch.bind_apply, Fetch.pure_apply, headFlag_eq hkeys h31 hu,
      Int.zero_add]
    rw [i32_natCast (by omega)]
  have hall : ∀ u ∈ us,
      u < (rbkHeadFlagsPhase exactOps 0 n : Launch (KeyTensor.Cell K V)).units :=
    fun u hu => hunits.symm ▸ (hmem u).1 hu
  obtain ⟨hstored, hframe⟩ := Launch.stores keyScratch (fun u : ℕ => u)
    (fun u => if IsHead (sameKey key) u then 1#32 else 0#32) hbody
    (fun u _ u' _ heq => Int.ofNat_inj.1 heq) hall
  exact ⟨_, hrest, fun i hi => hstored i ((hmem i).2 hi), hframe⟩

theorem rbkZeroValuesOutPhase_spec {ls}
    (hruns : RunsInSomeOrder (rbkZeroValuesOutPhase exactOps n :: ls) m m') :
    ∃ middle : Memory (KeyTensor.Cell K V), RunsInSomeOrder ls middle m' ∧
      (∀ i < n, valuesOutView.get middle (i : ℕ) = 0) ∧ ∀ b ≠ .valuesOut, middle b = m b := by
  obtain ⟨us, hus, hrest⟩ := hruns
  have hunits : (rbkZeroValuesOutPhase exactOps n : Launch (KeyTensor.Cell K V)).units = n :=
    Int.toNat_natCast n
  have hmem (u : ℕ) : u ∈ us ↔ u < n := hus.mem_iff.trans mem_range
  have hall : ∀ u ∈ us,
      u < (rbkZeroValuesOutPhase exactOps n : Launch (KeyTensor.Cell K V)).units :=
    fun u hu => hunits.symm ▸ (hmem u).1 hu
  obtain ⟨hstored, hframe⟩ := Launch.stores (m := m) valuesOutView (fun u : ℕ => u) (fun _ => 0)
    (fun _ _ _ _ => rfl) (fun u _ u' _ heq => Int.ofNat_inj.1 heq) hall
  exact ⟨_, hrest, fun i hi => hstored i ((hmem i).2 hi), hframe⟩

end flags

section scatter

variable {key : ℕ → K} {value : ℕ → V} {n : ℕ}

/-- What the scatter and the count find: keys, values and the number of heads before each
element. -/
structure Positioned (key : ℕ → K) (value : ℕ → V) (n : ℕ) (m : Memory (KeyTensor.Cell K V)) :
    Prop where
  keys : HasKeys key n m
  values : ∀ i < n, valuesInView.get m i = value i
  positions : ∀ i < n, keyScratch.get m i = BitVec.ofNat 32 (Nat.count (IsHead (sameKey key)) i)

variable {m m' : Memory (KeyTensor.Cell K V)}

omit [AddCommMonoid V] in
theorem Positioned.congr (h : Positioned key value n m)
    (hkeys : m' .keysIn = m .keysIn) (hvalues : m' .valuesIn = m .valuesIn)
    (hscratch : m' .scratch = m .scratch) : Positioned key value n m' where
  keys i hi := (View.get_congr (v := keysInView) hkeys i).trans (h.keys i hi)
  values i hi := (View.get_congr (v := valuesInView) hvalues i).trans (h.values i hi)
  positions i hi := (View.get_congr (v := keyScratch) hscratch i).trans (h.positions i hi)

theorem position_eq {i : ℕ} (h31 : i + 1 < 2 ^ 31) :
    (BitVec.ofNat 32 (Nat.count (IsHead (sameKey key)) i) +
      (if IsHead (sameKey key) i then 1#32 else 0#32) - 1#32).toInt =
        runOf (sameKey key) i := by
  have hpos := count_succ_pos (sameKey key) i
  have hle := Nat.count_le (p := IsHead (sameKey key)) (n := i + 1)
  have hsum : BitVec.ofNat 32 (Nat.count (IsHead (sameKey key)) i) +
      (if IsHead (sameKey key) i then 1#32 else 0#32) =
        BitVec.ofNat 32 (runOf (sameKey key) i) + 1#32 := by
    have hnext : BitVec.ofNat 32 (runOf (sameKey key) i) + 1#32 =
        BitVec.ofNat 32 (runOf (sameKey key) i + 1) := (BitVec.ofNat_add _ 1).symm
    rw [hnext, runOf, Nat.sub_add_cancel hpos, Nat.count_succ]
    split_ifs
    · exact (BitVec.ofNat_add _ 1).symm
    · exact (BitVec.ofNat_add _ 0).symm
  rw [hsum, BitVec.add_sub_cancel, toInt_ofNat_of_lt]
  rw [runOf]
  omega

theorem rbkScatterPhase_writes (h : Positioned key value n m)
    (h31 : n < 2 ^ 31) {u : ℕ} (hu : u < n) :
    ((rbkScatterPhase exactOps 0 n : Launch (KeyTensor.Cell K V)).body u m).1 =
      [keysOutView.store (runOf (sameKey key) u) (key u),
        valuesOutView.store (runOf (sameKey key) u)
          (valuesOutView.get m (runOf (sameKey key) u) + value u)] := by
  have hindex : i32 (0 + (u : ℤ)) = u := by
    rw [Int.zero_add, i32_natCast (by omega)]
  simp only [rbkScatterPhase, Fetch.bind_apply, View.load_apply, Fetch.pure_apply,
    headFlag_eq h.keys h31 hu, hindex, h.positions u hu, h.keys u hu, h.values u hu,
    position_eq (show u + 1 < 2 ^ 31 by omega)]
  rfl

theorem rbkScatterPhase_foldl (h : Positioned key value n m)
    (h31 : n < 2 ^ 31) {us : List ℕ} (hus : ∀ u ∈ us, u < n) :
    let m' := us.foldl (rbkScatterPhase exactOps 0 n : Launch (KeyTensor.Cell K V)).stepMem m
    (∀ b, b ≠ .keysOut → b ≠ .valuesOut → m' b = m b) ∧
      (∀ u ∈ us, keysOutView.get m' (runOf (sameKey key) u) = key u) ∧
      ∀ j : ℕ, valuesOutView.get m' j = valuesOutView.get m j +
        ((us.filter fun u => runOf (sameKey key) u = j).map value).sum := by
  intro m'
  induction us using List.reverseRecOn with
  | nil =>
    refine ⟨fun b _ _ => rfl, fun u hu => absurd hu not_mem_nil, fun j => ?_⟩
    exact (add_zero _).symm
  | append_singleton us k ih =>
    rw [forall_mem_append, forall_mem_singleton] at hus
    obtain ⟨hus, hk⟩ := hus
    obtain ⟨hframe, hkeys, hvalues⟩ := ih hus
    generalize hbefore : us.foldl (rbkScatterPhase exactOps 0 n :
      Launch (KeyTensor.Cell K V)).stepMem m = before at hframe hkeys hvalues
    have hready := h.congr (hframe .keysIn (by decide) (by decide)) (hframe .valuesIn (by decide) (by decide))
      (hframe .scratch (by decide) (by decide))
    have hstep : m' = (before.write (keysOutView.store (runOf (sameKey key) k) (key k))).write
        (valuesOutView.store (runOf (sameKey key) k)
          (valuesOutView.get before (runOf (sameKey key) k) + value k)) := by
      change (us ++ [k]).foldl _ m = _
      rw [foldl_append, foldl_cons, hbefore, Launch.stepMem, rbkScatterPhase_writes hready h31 hk]
      rfl
    have hkeysOut (j : ℤ) : keysOutView.get m' j =
        keysOutView.get (before.write (keysOutView.store (runOf (sameKey key) k) (key k))) j := by
      rw [hstep]
      exact View.get_write_other _ fun hat =>
        absurd hat.1 (show KeyTensor.valuesOut ≠ .keysOut by decide)
    have hvaluesOut (j : ℤ) : valuesOutView.get
        (before.write (keysOutView.store (runOf (sameKey key) k) (key k))) j =
          valuesOutView.get before j :=
      View.get_write_other _ fun hat =>
        absurd hat.1 (show KeyTensor.keysOut ≠ .valuesOut by decide)
    refine ⟨fun b hb hb' => ?_, fun u hu => ?_, fun j => ?_⟩
    · rw [← hframe b hb hb', hstep]
      funext i
      rw [Memory.write_other _ fun hat => hb' hat.1.symm,
        Memory.write_other _ fun hat => hb hat.1.symm]
    · rw [hkeysOut]
      rcases eq_or_ne (runOf (sameKey key) u) (runOf (sameKey key) k) with heq | hne
      · rw [heq, View.get_write_self]
        have hsame : ∀ i, sameKey key i (i + 1) = true → key i = key (i + 1) :=
          fun i hi => of_decide_eq_true hi
        rcases le_total u k with hle | hle
        · exact (eq_of_runOf_eq hsame hle heq).symm
        · exact eq_of_runOf_eq hsame hle heq.symm
      · have hmem : u ∈ us := by
          refine (mem_append.1 hu).resolve_right fun hu => hne ?_
          rw [mem_singleton.1 hu]
        rw [View.get_write_other _ fun hat => hne (Int.ofNat_inj.1 hat.2.symm)]
        exact hkeys u hmem
    · rw [filter_append, map_append, sum_append, ← add_assoc, ← hvalues]
      rcases eq_or_ne (runOf (sameKey key) k) j with rfl | hne
      · rw [hstep, View.get_write_self]
        simp
      · rw [hstep, View.get_write_other _ fun hat => hne (Int.ofNat_inj.1 hat.2), hvaluesOut]
        simp [hne]

theorem rbkCountPhase_spec (h : Positioned key value n m)
    (h31 : n < 2 ^ 31) (h0 : 0 < n) (hruns : RunsInSomeOrder [rbkCountPhase exactOps 0 n] m m') :
    numRunsView.get m' 0 = BitVec.ofNat 32 (Nat.count (IsHead (sameKey key)) n) ∧
      ∀ b ≠ .numRuns, m' b = m b := by
  obtain ⟨k, rfl⟩ : ∃ k, n = k + 1 := ⟨n - 1, by omega⟩
  have hlast : i32 (((k + 1 : ℕ) : ℤ) - 1) = k := by
    rw [i32_of_lt (by omega) (by omega)]
    omega
  have hruns' := runsInSomeOrder_cons_of_units_eq_one rfl hruns
  have hwrites : ((rbkCountPhase exactOps 0 (k + 1 : ℕ) : Launch (KeyTensor.Cell K V)).body 0 m).1 =
      [numRunsView.store 0 (BitVec.ofNat 32 (Nat.count (IsHead (sameKey key)) (k + 1)))] := by
    simp only [rbkCountPhase, Fetch.bind_apply, View.load_apply, Fetch.pure_apply, Int.zero_add,
      i32_natCast h31, hlast, h.positions k k.lt_succ_self, lastHeadFlag_eq h.keys h31,
      Nat.count_succ]
    rcases em (IsHead (sameKey key) k) with hhead | hhead
    · rw [if_pos hhead, if_pos hhead, BitVec.ofNat_add]
    · rw [if_neg hhead, if_neg hhead, BitVec.ofNat_add]
  have hmem : m' = m.write (numRunsView.store 0
      (BitVec.ofNat 32 (Nat.count (IsHead (sameKey key)) (k + 1)))) := by
    rw [hruns']
    change Launch.stepMem _ _ 0 = _
    rw [Launch.stepMem, hwrites]
    rfl
  constructor
  · rw [hmem]
    exact View.get_write_self numRunsView m 0 _
  · intro b hb
    funext i
    rw [hmem]
    exact Memory.write_other m fun hat => hb hat.1.symm

end scatter

section reduceByKey

variable {n : ℕ}

def keyRuns (n : ℕ) (m : Memory (KeyTensor.Cell K V)) : List (List ℕ) :=
  (List.range n).splitBy (sameKey fun i => keysInView.get m i)

/-- What `reduce_by_key_add` leaves in `keys_out`, `values_out` and `num_runs`: the key of each run,
the sum of its values, and the number of runs. -/
def KeyReduced (n : ℕ) (m m' : Memory (KeyTensor.Cell K V)) : Prop :=
  (List.range (keyRuns n m).length).map (fun j : ℕ => some (keysOutView.get m' j)) =
      (keyRuns n m).map (fun run => run.head?.map fun i : ℕ => keysInView.get m i) ∧
    (List.range (keyRuns n m).length).map (fun j : ℕ => valuesOutView.get m' j) =
      (keyRuns n m).map (fun run => (run.map fun i : ℕ => valuesInView.get m i).sum) ∧
    numRunsView.get m' 0 = BitVec.ofNat 32 (keyRuns n m).length

omit [AddCommMonoid V] in
theorem length_keyRuns (m : Memory (KeyTensor.Cell K V)) : (keyRuns n m).length =
      Nat.count (IsHead (sameKey fun i => keysInView.get m i)) n := by
  rw [keyRuns, splitBy_range, length_map, length_range]

theorem keyReduced_of_scan {m middle m' : Memory (KeyTensor.Cell K V)} (h0 : 0 < n)
    (h31 : n < 2 ^ 31) (hscan : ∀ i < n, keyScratch.get middle i =
      BitVec.ofNat 32 (Nat.count (IsHead (sameKey fun i => keysInView.get m i)) i))
    (hframe : ∀ b, b ≠ .scratch → middle b = m b)
    (hruns : RunsInSomeOrder [rbkZeroValuesOutPhase exactOps n, rbkScatterPhase exactOps 0 n,
      rbkCountPhase exactOps 0 n] middle m') :
    KeyReduced n m m' := by
  generalize hkey : (fun i : ℕ => keysInView.get m i) = key at hscan
  generalize hvalue : (fun i : ℕ => valuesInView.get m i) = value
  have hready : Positioned key value n middle := by
    refine ⟨fun i _ => ?_, fun i _ => ?_, hscan⟩
    · rw [← hkey]
      exact View.get_congr (v := keysInView) (hframe .keysIn (by decide)) i
    · rw [← hvalue]
      exact View.get_congr (v := valuesInView) (hframe .valuesIn (by decide)) i
  obtain ⟨zeroed, hruns, hzero, hzeroFrame⟩ := rbkZeroValuesOutPhase_spec hruns
  have hready := hready.congr (hzeroFrame .keysIn (by decide)) (hzeroFrame .valuesIn (by decide))
    (hzeroFrame .scratch (by decide))
  obtain ⟨us, hus, hruns⟩ := hruns
  have hunits : (rbkScatterPhase exactOps 0 n : Launch (KeyTensor.Cell K V)).units = n :=
    Int.toNat_natCast n
  have hmem (u : ℕ) : u ∈ us ↔ u < n := hus.mem_iff.trans mem_range
  obtain ⟨hscatterFrame, hkeys, hvalues⟩ :=
    rbkScatterPhase_foldl hready h31 fun u hu => (hmem u).1 hu
  have hready := hready.congr (hscatterFrame .keysIn (by decide) (by decide))
    (hscatterFrame .valuesIn (by decide) (by decide)) (hscatterFrame .scratch (by decide) (by decide))
  obtain ⟨hcount, hcountFrame⟩ := rbkCountPhase_spec hready h31 h0 hruns
  have hrunsAre : keyRuns n m =
      (List.range (Nat.count (IsHead (sameKey key)) n)).map (runAt (sameKey key) n) := by
    rw [keyRuns, hkey, splitBy_range]
  have hlength : (keyRuns n m).length = Nat.count (IsHead (sameKey key)) n := by
    rw [length_keyRuns, hkey]
  refine ⟨?_, ?_, by rw [hcount, hlength]⟩
  · rw [hlength, hrunsAre, map_map]
    refine map_congr_left fun j hj => ?_
    have hne : runAt (sameKey key) n j ≠ [] := by
      have hmemRun : runAt (sameKey key) n j ∈ (List.range n).splitBy (sameKey key) := by
        rw [splitBy_range]
        exact mem_map_of_mem hj
      exact ne_nil_of_mem_splitBy hmemRun
    obtain ⟨i, run, hrun⟩ := exists_cons_of_ne_nil hne
    have hi : i ∈ runAt (sameKey key) n j := hrun ▸ mem_cons_self
    rw [runAt, mem_filter, mem_range, decide_eq_true_eq] at hi
    have hcell := hkeys i ((hmem i).2 hi.1)
    rw [hi.2] at hcell
    rw [View.get_congr (v := keysOutView) (hcountFrame .keysOut (by decide)), hcell, Function.comp_apply,
      hrun, List.head?_cons, Option.map_some, ← hkey]
  · rw [hlength, hrunsAre, map_map]
    refine map_congr_left fun j hj => ?_
    have hj' : j < n := lt_of_lt_of_le (mem_range.1 hj) (Nat.count_le _)
    rw [View.get_congr (v := valuesOutView) (hcountFrame .valuesOut (by decide)), hvalues, hzero j hj',
      zero_add, Function.comp_apply, hvalue]
    exact ((hus.filter _).map value).sum_eq

theorem reduceByKeyAdd_spec {D : ℕ} (h0 : 0 < n) (hD : 1 ≤ D) (hmax : D ≤ MAX_LOG256_MAX_N)
    (hn : n ≤ BLOCK_DIM ^ D) (h31 : n + partials n (D - 1) < 2 ^ 31) :
    ∃ ls, reduceByKeyAdd exactOps n D = .ok ls ∧ ∀ m m' : Memory (KeyTensor.Cell K V),
      RunsInSomeOrder ls m m' → KeyReduced n m m' := by
  obtain ⟨levels, rfl⟩ : ∃ levels, D = levels + 1 := ⟨D - 1, by omega⟩
  refine ⟨_, reduceByKeyAdd_add_one exactOps hmax n, fun m m' hruns => ?_⟩
  have hkeys : HasKeys (fun i => keysInView.get m i) n m := fun i _ => rfl
  obtain ⟨flagged, hruns, hflags, hflagFrame⟩ := rbkHeadFlagsPhase_spec hkeys (by omega) hruns
  obtain ⟨middle, hscan, hrest⟩ := runsInSomeOrder_append.1 hruns
  have hbound : 0 + n + partials n levels < 2 ^ 31 := by
    rw [Nat.zero_add]
    exact h31
  have hsame := emitScanInplace_inSomeOrder addI32 keyScratch levels hbound hscan
  obtain ⟨hcells, hframe⟩ := emitScanInplace_spec addI32 keyScratch levels ⟨flagged, []⟩ hn hbound
  subst hsame
  refine keyReduced_of_scan h0 (by omega) (fun i hi => ?_) (fun b hb => ?_) hrest
  · have hcell := hcells i hi
    rw [Nat.zero_add] at hcell
    rw [hcell, ← fold_flags fun j hj => hflags j (by omega)]
    simp only [Nat.zero_add]
  · rw [← hflagFrame b hb]
    funext i
    exact hframe b i fun hbuf => absurd hbuf hb

end reduceByKey

/-- With a scratch of `S` slots, and whatever the order of the groups of each launch. -/
theorem select_reduceByKeyAdd_correct {E K : Type} [DecidableEq K] {w : ℕ} (n D S : ℕ) (h0 : 1 ≤ n)
    (hD : 1 ≤ D) (hmax : D ≤ MAX_LOG256_MAX_N) (hn : n ≤ BLOCK_DIM ^ D)
    (hS : n + partials n (D - 1) ≤ S) (h31 : S < 2 ^ 31) :
    (∃ ls, select n D = .ok ls ∧ ∀ m m' : Memory (SelectTensor.Cell E),
      (∀ i < n, flagsView.get m i = 0#32 ∨ flagsView.get m i = 1#32) →
        RunsInSomeOrder ls m m' → Compacted n m m') ∧
    ∃ ls, reduceByKeyAdd exactOps n D = .ok ls ∧ ∀ m m' : Memory (KeyTensor.Cell K (BitVec w)),
      RunsInSomeOrder ls m m' → KeyReduced n m m' :=
  ⟨select_spec h0 hD hmax hn (by omega), reduceByKeyAdd_spec h0 hD hmax hn (by omega)⟩

theorem select_reduceByKeyAdd_correct_three :
    (∃ ls, select (3 : ℕ) 2 = .ok ls ∧ ∀ m m' : Memory (SelectTensor.Cell ℕ),
      (∀ i : ℕ, i < 3 → flagsView.get m i = 0#32 ∨ flagsView.get m i = 1#32) →
        RunsInSomeOrder ls m m' → Compacted 3 m m') ∧
    ∃ ls, reduceByKeyAdd exactOps (3 : ℕ) 2 = .ok ls ∧
      ∀ m m' : Memory (KeyTensor.Cell ℕ (BitVec 32)),
        RunsInSomeOrder ls m m' → KeyReduced 3 m m' :=
  select_reduceByKeyAdd_correct 3 2 4 (by decide) (by decide) (by decide) (by decide) (by decide)
    (by decide)

/-- A depth of five, or of zero for a single element, is refused. -/
theorem select_reduceByKeyAdd_refused : 1 ≤ BLOCK_DIM ^ 5 ∧ 1 ≤ BLOCK_DIM ^ 0 ∧
      (∃ e, (select 1 5 : Except EmitError (List (Launch (SelectTensor.Cell ℕ)))) = .error e) ∧
      (∃ e, (reduceByKeyAdd (exactOps : KeyOps ℕ (BitVec 32)) 1 5 :
        Except EmitError (List (Launch (KeyTensor.Cell ℕ (BitVec 32))))) = .error e) ∧
      (select 1 0 : Except EmitError (List (Launch (SelectTensor.Cell ℕ)))) =
        .error .recursionError :=
  ⟨by decide, by decide, ⟨_, rfl⟩, ⟨_, rfl⟩, rfl⟩

end Quadrants.Algorithms
