import Mathlib.Data.Nat.Count
import Quadrants.Algorithms.ScratchBounds

namespace Quadrants.Algorithms

open Quadrants.Library.Grid List
open Quadrants.Library.SegmentFold

section orders

variable {β : Type} [DecidableEq β] {τ : β → Type} {α : Type} (o : BinOp α)

variable {m m' : Memory τ} {n : ℕ}

theorem emitScanInplace_inSomeOrder (buf : View τ α) (levels : ℕ) {off : ℕ}
    (h : off + n + partials n levels < 2 ^ 31)
    (hruns : RunsInSomeOrder (emitScanInplace o buf off n levels) m m') :
    m' = (runAll (emitScanInplace o buf off n levels) ⟨m, []⟩).mem := by
  induction levels generalizing off n m m' with
  | zero => exact runsInSomeOrder_cons_of_units_eq_one rfl hruns
  | succ levels ih =>
    rw [emitScanInplace_succ o buf levels h] at hruns ⊢
    rw [partials] at h
    have hreduce := Launch.Independent.runsInSomeOrder_cons
      (reducePhase_independent o m (by omega) (by omega) fun _ => Or.inl le_rfl) hruns
    obtain ⟨middle, hinner, hdown⟩ := runsInSomeOrder_append.1 hreduce
    have hinner' := ih (by omega) hinner
    have hlast := Launch.Independent.runsInSomeOrder_cons
      (scanDownsweepPhase_independent o middle (by omega) (by omega) (by omega) (fun _ => rfl)
        fun _ => Or.inr le_rfl) hdown
    simp only [runAll_cons, runAll_append, runAll_nil]
    refine hlast.trans ?_
    rw [hinner']
    exact runAll_mem_congr [scanDownsweepPhase o buf buf buf off (off + n : ℕ) off n
      (hostBlockCount n * BLOCK_DIM : ℕ)] (runAll_mem_congr _ rfl)

theorem stackedScan_spec {src buf : View τ α} (hne : src.buffer ≠ buf.buffer) {levels : ℕ}
    (hn : n ≤ BLOCK_DIM ^ (levels + 2)) (h : n + partials n (levels + 1) < 2 ^ 31)
    (hruns : RunsInSomeOrder
      (reducePhase o src buf (0 : ℕ) n n (hostBlockCount n * BLOCK_DIM : ℕ) ::
        (emitScanInplace o buf n (hostBlockCount n : ℕ) levels ++
          [scanDownsweepPhase o src buf buf (0 : ℕ) n (0 : ℕ) n
            (hostBlockCount n * BLOCK_DIM : ℕ)])) m m') :
    (∀ i < n, buf.get m' i = o.fold (fun j => src.get m j) 0 i) ∧
      ∀ b, b ≠ buf.buffer → m' b = m b := by
  rw [partials] at h
  have hpart : Apart src buf 0 n n (hostBlockCount n) := fun hbuf => absurd hbuf hne
  have hreduceRun := Launch.Independent.runsInSomeOrder_cons
    (reducePhase_independent o m (by omega) (by omega) hpart) hruns
  generalize hd1 : (reducePhase o src buf (0 : ℕ) n n (hostBlockCount n * BLOCK_DIM : ℕ)).run
    ⟨m, []⟩ = d1 at hreduceRun
  have hreduce : ∀ b < hostBlockCount n, buf.get d1.mem (n + b : ℕ) =
      o.fold (segment o src m 0 n) (b * BLOCK_DIM) BLOCK_DIM := by
    intro b hb
    rw [← hd1]
    exact reducePhase_get o ⟨m, []⟩ (by omega) (by omega) hpart hb
  have hframe1 : Frame buf n (hostBlockCount n) ⟨m, []⟩ d1 := by
    rw [← hd1]
    exact reducePhase_frame o ⟨m, []⟩ (by omega) (by omega) hpart
  obtain ⟨middle, hinner, hdown⟩ := runsInSomeOrder_append.1 hreduceRun
  have hinner' := emitScanInplace_inSomeOrder o buf levels (by omega) hinner
  obtain ⟨hscan, hframe2⟩ := emitScanInplace_spec o buf levels ⟨d1.mem, []⟩
    (hostBlockCount_le_pow hn) (show n + hostBlockCount n + _ < 2 ^ 31 by omega)
  generalize hd2 : runAll (emitScanInplace o buf n (hostBlockCount n : ℕ) levels) ⟨d1.mem, []⟩ = d2
    at hscan hframe2 hinner'
  subst hinner'
  have hsegment : segment o src d2.mem 0 n = segment o src m 0 n := by
    rw [segment_eq_of_frame o hframe2 fun hbuf => absurd hbuf hne]
    exact segment_eq_of_frame o hframe1 hpart
  have hscanned : ∀ b < hostBlockCount n, buf.get d2.mem (n + b : ℕ) =
      o.fold (segment o src d2.mem 0 n) 0 (b * BLOCK_DIM) := by
    intro b hb
    rw [hscan b hb, fold_aggregates o hreduce hb.le, hsegment]
  have hapart : Apart buf buf n (hostBlockCount n) 0 n := fun _ => Or.inr (by omega)
  have hlast := Launch.Independent.runsInSomeOrder_cons
    (scanDownsweepPhase_independent o d2.mem (by omega) (by omega) (by omega)
      (fun hbuf => absurd hbuf hne) hapart) hdown
  constructor
  · intro i hi
    have hcell := scanDownsweepPhase_scan o ⟨d2.mem, []⟩ (by omega) (by omega) (by omega)
      (fun hbuf => absurd hbuf hne) hapart (le_hostBlockCount_mul n) hscanned hi
    rw [← hlast, Nat.zero_add] at hcell
    refine hcell.trans ?_
    have hlive : ∀ e : Memory τ, o.fold (fun j => src.get e (0 + j : ℕ)) 0 i =
        o.fold (segment o src e 0 n) 0 i :=
      fun e => (fold_pad_of_le o _ (by omega)).symm
    rw [hlive d2.mem, hsegment, ← hlive m]
    simp
  · intro b hb
    have hframe3 : Frame buf 0 n ⟨d2.mem, []⟩ ((scanDownsweepPhase o src buf buf (0 : ℕ) n (0 : ℕ) n
        (hostBlockCount n * BLOCK_DIM : ℕ)).run ⟨d2.mem, []⟩) :=
      scanDownsweepPhase_frame o ⟨d2.mem, []⟩ (by omega) (by omega) (by omega)
        (fun hbuf => absurd hbuf hne) hapart
    funext i
    rw [hlast, hframe3 b i fun hbuf => absurd hbuf hb, hframe2 b i fun hbuf => absurd hbuf hb,
      hframe1 b i fun hbuf => absurd hbuf hb]

theorem tileScan_spec {src buf : View τ α} (hn : n ≤ BLOCK_DIM)
    (hruns : RunsInSomeOrder [scanTilePhase o src buf (0 : ℕ) (0 : ℕ) n] m m') :
    (∀ i < n, buf.get m' i = o.fold (fun j => src.get m j) 0 i) ∧
      ∀ b, b ≠ buf.buffer → m' b = m b := by
  have hbound : BLOCK_DIM = 256 := rfl
  have hlast := runsInSomeOrder_cons_of_units_eq_one rfl hruns
  constructor
  · intro i hi
    have hcell : buf.get ((scanTilePhase o src buf (0 : ℕ) (0 : ℕ) n).run ⟨m, []⟩).mem (0 + i : ℕ) =
        o.fold (segment o src m 0 n) 0 i :=
      scanTilePhase_get o ⟨m, []⟩ hn (by omega) (by omega) hi
    rw [← hlast, Nat.zero_add] at hcell
    refine hcell.trans ((fold_pad_of_le o _ (by omega)).trans ?_)
    simp
  · have hframe : Frame buf 0 n ⟨m, []⟩ ((scanTilePhase o src buf (0 : ℕ) (0 : ℕ) n).run ⟨m, []⟩) :=
      scanTilePhase_frame o ⟨m, []⟩ (by omega)
    intro b hb
    funext i
    rw [hlast]
    exact hframe b i fun hbuf => absurd hbuf hb

end orders

theorem fold_flags {f : ℕ → BitVec 32} {p : ℕ → Prop} [DecidablePred p] {n : ℕ}
    (h : ∀ i < n, f i = if p i then 1#32 else 0#32) :
    addI32.fold f 0 n = BitVec.ofNat 32 (Nat.count p n) := by
  induction n with
  | zero => rfl
  | succ n ih =>
    have hstep : addI32.fold f 0 (n + 1) = addI32.fold f 0 n + f n := by
      rw [fold_succ, Nat.zero_add]
      rfl
    rw [hstep, ih fun i hi => h i (by omega), h n (by omega), Nat.count_succ]
    split_ifs
    · exact (BitVec.ofNat_add _ 1).symm
    · exact (BitVec.ofNat_add _ 0).symm

theorem length_filter_range (p : ℕ → Prop) [DecidablePred p] (n : ℕ) :
    ((List.range n).filter fun i => p i).length = Nat.count p n := by
  induction n with
  | zero => rfl
  | succ n ih =>
    rw [range_succ, filter_append, length_append, ih, Nat.count_succ]
    split_ifs with h <;> simp [h]

theorem getElem?_filter_range {p : ℕ → Prop} [DecidablePred p] {n i : ℕ} (hi : i < n) (hp : p i) :
    ((List.range n).filter fun i => p i)[Nat.count p i]? = some i := by
  induction n with
  | zero => exact absurd hi (Nat.not_lt_zero i)
  | succ n ih =>
    rw [range_succ, filter_append]
    rcases Nat.lt_succ_iff_lt_or_eq.1 hi with hlt | rfl
    · rw [List.getElem?_append_left, ih hlt]
      rw [length_filter_range]
      exact Nat.count_strict_mono hp hlt
    · rw [List.getElem?_append_right (length_filter_range p i).le, length_filter_range,
        Nat.sub_self, filter_singleton, decide_eq_true hp]
      rfl

section scatter

variable {E : Type} {n : ℕ}

def Selected (m : Memory (SelectTensor.Cell E)) (i : ℕ) : Prop := flagsView.get m i = 1#32

instance (m : Memory (SelectTensor.Cell E)) : DecidablePred (Selected m) :=
  fun i => inferInstanceAs (Decidable (flagsView.get m i = 1#32))

def selected (n : ℕ) (m : Memory (SelectTensor.Cell E)) : List E :=
  ((List.range n).filter fun i => Selected m i).map fun i : ℕ => elementView.get m i

/-- `flags` holds zeros and ones, and `scratch` the number of ones before each element. -/
structure Counted (n : ℕ) (m : Memory (SelectTensor.Cell E)) : Prop where
  flags : ∀ i < n, flagsView.get m i = if Selected m i then 1#32 else 0#32
  indices : ∀ i < n, selectScratch.get m i = BitVec.ofNat 32 (Nat.count (Selected m) i)

variable {m m' : Memory (SelectTensor.Cell E)}

theorem selectScatterPhase_writes (h : Counted n m) (h31 : n < 2 ^ 31) {u : ℕ} (hu : u < n) :
    ((selectScatterPhase 0 n : Launch (SelectTensor.Cell E)).body u m).1 =
      if Selected m u then [selectedView.store (Nat.count (Selected m) u) (elementView.get m u)]
      else [] := by
  have hindex : i32 (0 + (u : ℤ)) = u := by
    rw [Int.zero_add, i32_natCast (by omega)]
  have hcount := Nat.count_le (p := Selected m) (n := u)
  have hflag := h.flags u hu
  rcases em (Selected m u) with hselected | hselected
  · rw [if_pos hselected] at hflag ⊢
    simp only [selectScatterPhase, Fetch.bind_apply, View.load_apply, hflag]
    rw [if_pos (show (1#32 : BitVec 32) ≠ 0#32 by decide)]
    simp only [Fetch.bind_apply, View.load_apply, Fetch.pure_apply, hindex, h.indices u hu]
    rw [toInt_ofNat_of_lt (by omega)]
  · rw [if_neg hselected] at hflag ⊢
    simp only [selectScatterPhase, Fetch.bind_apply, View.load_apply, hflag]
    rfl

theorem selectScatterPhase_touches (h : Counted n m)
    (h31 : n < 2 ^ 31) {u : ℕ} (hu : u < n) {b : SelectTensor} {i : ℤ} :
    (selectScatterPhase 0 n : Launch (SelectTensor.Cell E)).Touches m u b i ↔
      Selected m u ∧ SelectTensor.out = b ∧ i = Nat.count (Selected m) u := by
  rw [Launch.Touches, selectScatterPhase_writes h h31 hu]
  split_ifs with hselected
  · simp [Write.at, View.store, hselected, selectedView, eq_comm]
  · simp [hselected]

theorem selectScatterPhase_independent (h : Counted n m)
    (h31 : n < 2 ^ 31) : (selectScatterPhase 0 n : Launch (SelectTensor.Cell E)).Independent m := by
  constructor
  · intro u hu m' hm
    have hsame (b : SelectTensor) (hb : b ≠ .out) (i : ℤ) : m' b i = m b i := by
      refine hm b i fun v hv _ ht => ?_
      have hv' : v < n := by simpa [selectScatterPhase] using hv
      exact hb ((selectScatterPhase_touches h h31 hv').1 ht).2.1.symm
    have hflags := View.load_congr (v := flagsView) (hsame .flags (by decide))
    have hscratch := View.load_congr (v := selectScratch) (hsame .scratch (by decide))
    have harr := View.load_congr (v := elementView) (hsame .arr (by decide))
    simp only [selectScatterPhase, Fetch.bind_apply, hflags]
    split_ifs
    · simp only [Fetch.bind_apply, hscratch, harr, Fetch.pure_apply]
    · rfl
  · intro u hu v hv b i htu htv
    have hu' : u < n := by simpa [selectScatterPhase] using hu
    have hv' : v < n := by simpa [selectScatterPhase] using hv
    obtain ⟨hselected, -, hindex⟩ := (selectScatterPhase_touches h h31 hu').1 htu
    obtain ⟨hselected', -, hindex'⟩ := (selectScatterPhase_touches h h31 hv').1 htv
    exact Nat.count_injective hselected hselected' (by omega)

theorem selectScatterPhase_spec {ls} (h : Counted n m)
    (h31 : n < 2 ^ 31) (hruns : RunsInSomeOrder (selectScatterPhase 0 n :: ls) m m') :
    ∃ middle : Memory (SelectTensor.Cell E), RunsInSomeOrder ls middle m' ∧
      (∀ i < n, Selected m i → selectedView.get middle (Nat.count (Selected m) i) =
        elementView.get m i) ∧ ∀ b ≠ .out, middle b = m b := by
  have hindependent := selectScatterPhase_independent h h31
  have hunits : (selectScatterPhase 0 n : Launch (SelectTensor.Cell E)).units = n :=
    Int.toNat_natCast n
  have hdone := Launch.Independent.done (d := ⟨m, []⟩) hindependent
  refine ⟨_, hindependent.runsInSomeOrder_cons hruns, ?_, ?_⟩
  · intro i hi hselected
    have htouched := hdone.touched i (by omega) SelectTensor.out (Nat.count (Selected m) i)
      ((selectScatterPhase_touches h h31 hi).2 ⟨hselected, rfl, rfl⟩)
    refine htouched.trans ?_
    rw [selectScatterPhase_writes h h31 hi, if_pos hselected]
    exact View.get_write_self selectedView m _ _
  · intro b hb
    funext i
    refine hdone.untouched b i fun u hu ht => hb ?_
    exact ((selectScatterPhase_touches h h31 (by omega)).1 ht).2.1.symm

theorem selectCountPhase_spec (h : Counted n m)
    (h31 : n < 2 ^ 31) (h0 : 0 < n) (hruns : RunsInSomeOrder [selectCountPhase 0 n] m m') :
    numOutView.get m' 0 = BitVec.ofNat 32 (Nat.count (Selected m) n) ∧
      ∀ b ≠ .numOut, m' b = m b := by
  obtain ⟨k, rfl⟩ : ∃ k, n = k + 1 := ⟨n - 1, by omega⟩
  have hlast : i32 (((k + 1 : ℕ) : ℤ) - 1) = k := by
    rw [i32_of_lt (by omega) (by omega)]
    omega
  have hruns' := runsInSomeOrder_cons_of_units_eq_one rfl hruns
  have hwrites : ((selectCountPhase 0 (k + 1 : ℕ) : Launch (SelectTensor.Cell E)).body 0 m).1 =
      [numOutView.store 0 (BitVec.ofNat 32 (Nat.count (Selected m) (k + 1)))] := by
    simp only [selectCountPhase, Fetch.bind_apply, View.load_apply, Fetch.pure_apply, Int.zero_add,
      i32_natCast h31, hlast, h.flags k k.lt_succ_self, h.indices k k.lt_succ_self, Nat.count_succ]
    rcases em (Selected m k) with hselected | hselected
    · rw [if_pos hselected, if_pos hselected, BitVec.ofNat_add]
      rfl
    · rw [if_neg hselected, if_neg hselected, BitVec.ofNat_add]
      rfl
  have hmem : m' = m.write
      (numOutView.store 0 (BitVec.ofNat 32 (Nat.count (Selected m) (k + 1)))) := by
    rw [hruns']
    change Launch.stepMem _ _ 0 = _
    rw [Launch.stepMem, hwrites]
    rfl
  constructor
  · rw [hmem]
    exact View.get_write_self numOutView m 0 _
  · intro b hb
    funext i
    rw [hmem]
    exact Memory.write_other m fun hat => hb hat.1.symm

def Compacted (n : ℕ) (m m' : Memory (SelectTensor.Cell E)) : Prop :=
  (List.range (selected n m).length).map (fun j : ℕ => selectedView.get m' j) = selected n m ∧
    numOutView.get m' 0 = BitVec.ofNat 32 (selected n m).length

theorem length_selected (m : Memory (SelectTensor.Cell E)) :
    (selected n m).length = Nat.count (Selected m) n := by
  rw [selected, length_map, length_filter_range]

theorem compacted_of_places (h : ∀ i < n, Selected m i →
      selectedView.get m' (Nat.count (Selected m) i) = elementView.get m i)
    (hcount : numOutView.get m' 0 = BitVec.ofNat 32 (Nat.count (Selected m) n)) :
    Compacted n m m' := by
  refine ⟨?_, by rw [hcount, length_selected]⟩
  refine ext_getElem (by simp) fun j _ hj => ?_
  have hj' : j < ((List.range n).filter fun i => Selected m i).length := by
    simpa [selected] using hj
  have hmem := getElem_mem hj'
  rw [mem_filter, mem_range, decide_eq_true_eq] at hmem
  have hplace := getElem?_filter_range hmem.1 hmem.2
  have hnodup : ((List.range n).filter fun i => Selected m i).Nodup :=
    nodup_range.filter _
  have hindex : Nat.count (Selected m) ((List.range n).filter fun i => Selected m i)[j] = j := by
    obtain ⟨hlt, heq⟩ := List.getElem?_eq_some_iff.1 hplace
    exact (hnodup.getElem_inj_iff).1 heq
  have hcell := h _ hmem.1 hmem.2
  rw [hindex] at hcell
  simpa [selected] using hcell

theorem compacted_of_scan {middle : Memory (SelectTensor.Cell E)}
    (hflags : ∀ i < n, flagsView.get m i = 0#32 ∨ flagsView.get m i = 1#32) (h0 : 0 < n)
    (h31 : n < 2 ^ 31)
    (hscan : ∀ i < n, selectScratch.get middle i = addI32.fold (fun j => flagsView.get m j) 0 i)
    (hframe : ∀ b, b ≠ .scratch → middle b = m b)
    (hruns : RunsInSomeOrder [selectScatterPhase 0 n, selectCountPhase 0 n] middle m') :
    Compacted n m m' := by
  have hview : ∀ i : ℕ, flagsView.get middle i = flagsView.get m i := fun i =>
    View.get_congr (hframe _ (show SelectTensor.flags ≠ .scratch from nofun)) i
  have harr : ∀ i : ℕ, elementView.get middle i = elementView.get m i := fun i =>
    View.get_congr (hframe _ (show SelectTensor.arr ≠ .scratch from nofun)) i
  have hselected : Selected middle = Selected m := funext fun i => by
    rw [Selected, Selected, hview]
  have hbits (i : ℕ) (hi : i < n) : flagsView.get m i = if Selected m i then 1#32 else 0#32 := by
    rcases em (Selected m i) with hset | hset
    · rw [if_pos hset]
      exact hset
    · rw [if_neg hset]
      exact (hflags i hi).resolve_right hset
  have hcounted : Counted n middle := by
    refine ⟨fun i hi => ?_, fun i hi => ?_⟩
    · simp only [hview, hselected, hbits i hi]
    · rw [hscan i hi, fold_flags fun j hj => hbits j (by omega)]
      simp only [hselected]
  obtain ⟨last, hrest, hplaces, hkept⟩ := selectScatterPhase_spec hcounted h31 hruns
  have hview' : ∀ i : ℕ, flagsView.get last i = flagsView.get middle i := fun i =>
    View.get_congr (hkept _ (show SelectTensor.flags ≠ .out from nofun)) i
  have hscratch' : ∀ i : ℕ, selectScratch.get last i = selectScratch.get middle i := fun i =>
    View.get_congr (hkept _ (show SelectTensor.scratch ≠ .out from nofun)) i
  have hselected' : Selected last = Selected middle := funext fun i => by
    rw [Selected, Selected, hview']
  have hcounted' : Counted n last := by
    refine ⟨fun i hi => ?_, fun i hi => ?_⟩
    · simp only [hview', hselected', hcounted.flags i hi]
    · simp only [hscratch', hselected', hcounted.indices i hi]
  obtain ⟨hcount, hout⟩ := selectCountPhase_spec hcounted' h31 h0 hrest
  apply compacted_of_places
  · intro i hi hset
    have hcell := hplaces i hi (hselected ▸ hset)
    simp only [hselected, harr] at hcell
    refine (View.get_congr (v := selectedView) ?_ _).trans hcell
    exact hout _ (show SelectTensor.out ≠ .numOut from nofun)
  · simp only [hselected', hselected] at hcount
    exact hcount

theorem select_spec {D : ℕ} (h0 : 0 < n) (hD : 1 ≤ D) (hmax : D ≤ MAX_LOG256_MAX_N)
    (hn : n ≤ BLOCK_DIM ^ D) (h31 : n + partials n (D - 1) < 2 ^ 31) :
    ∃ ls, select n D = .ok ls ∧ ∀ m m' : Memory (SelectTensor.Cell E),
      (∀ i < n, flagsView.get m i = 0#32 ∨ flagsView.get m i = 1#32) →
        RunsInSomeOrder ls m m' → Compacted n m m' := by
  rcases one_or_add_two hD with rfl | ⟨levels, rfl⟩
  · refine ⟨_, select_one n, fun m m' hflags hruns => ?_⟩
    obtain ⟨middle, hscan, hrest⟩ := runsInSomeOrder_append.1 hruns
    obtain ⟨hcells, hframe⟩ := tileScan_spec addI32 (by simpa using hn) hscan
    exact compacted_of_scan hflags h0 (by omega) hcells hframe hrest
  · have h31' : n + 255 < 2 ^ 31 := by
      have hstack : partials n (levels + 2 - 1) =
          hostBlockCount n + partials (hostBlockCount n) levels := rfl
      rw [hstack] at h31
      simp only [hostBlockCount, BLOCK_DIM] at h31
      omega
    refine ⟨_, select_add_two hmax h31', fun m m' hflags hruns => ?_⟩
    obtain ⟨middle, hscan, hrest⟩ := runsInSomeOrder_append.1 hruns
    obtain ⟨hcells, hframe⟩ := stackedScan_spec addI32
      (show SelectTensor.flags ≠ .scratch by decide) hn h31 hscan
    exact compacted_of_scan hflags h0 (by omega) hcells hframe hrest

end scatter

end Quadrants.Algorithms
