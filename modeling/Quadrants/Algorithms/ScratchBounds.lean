import Quadrants.Algorithms.ScratchSizing

namespace Quadrants.Algorithms

open Quadrants.Library.Grid List
open Quadrants.Library.SegmentFold

section phases

variable {β : Type} {τ : β → Type} {α : Type} (o : BinOp α) {P : Access β → Prop}

def Allowed (P : Access β → Prop) (kind : Kind) (v : View τ α) (lo len : ℕ) : Prop :=
  ∀ i < len, P ⟨kind, v.buffer, (lo + i : ℕ)⟩

theorem Allowed.sub {kind : Kind} {v : View τ α} {lo len lo' len' : ℕ}
    (h : Allowed P kind v lo len) (hlo : lo ≤ lo') (hlen : lo' + len' ≤ lo + len) :
    Allowed P kind v lo' len' := by
  intro i hi
  have hcell := h (lo' - lo + i) (by omega)
  rwa [show lo + (lo' - lo + i) = lo' + i by omega] at hcell

variable {B b dstOff n off srcOff : ℕ} {dst src : View τ α}

theorem loadLane_reads {m : Memory τ} {tid : Fin BLOCK_DIM}
    (h : off + n ≤ 2 ^ 31) (hread : Allowed P .read src off n) :
    ∀ c ∈ (loadLane o src off n b tid m).2, P ⟨.read, c.1, c.2⟩ := by
  intro c hc
  rcases Nat.lt_or_ge (b * BLOCK_DIM + tid) n with hi | hi
  · rw [loadLane_of_lt o src m h hi, mem_singleton] at hc
    rw [hc]
    exact hread _ hi
  · rw [loadLane_of_le o src m hi] at hc
    cases hc

theorem lanes_loadLane_reads {m : Memory τ} (h : off + n ≤ 2 ^ 31)
    (hread : Allowed P .read src off n) :
    ∀ c ∈ (Fetch.lanes BLOCK_DIM (loadLane o src off n b) m).2, P ⟨.read, c.1, c.2⟩ := by
  intro c hc
  obtain ⟨tid, _, hc⟩ := mem_flatMap.mp hc
  exact loadLane_reads o h hread c hc

theorem storeLanes_within (h : off + n ≤ 2 ^ 31)
    {x : Fin BLOCK_DIM → α} (hwrite : Allowed P .write dst off n) :
    ∀ w ∈ storeLanes dst off n b x, P ⟨.write, w.buffer, w.index⟩ := by
  intro w hw
  obtain ⟨tid, hi, rfl⟩ := (mem_storeLanes h).mp hw
  exact hwrite _ hi

theorem reducePhase_within (hsrc : srcOff + n ≤ 2 ^ 31)
    (hdst : dstOff + B ≤ 2 ^ 31) (hread : Allowed P .read src srcOff n)
    (hwrite : Allowed P .write dst dstOff B) :
    (reducePhase o src dst srcOff dstOff n (B * BLOCK_DIM : ℕ)).Within P := by
  intro u hu m a ha
  rw [reducePhase_units] at hu
  rcases mem_accesses.mp ha with ⟨c, hc, rfl⟩ | ⟨w, hw, rfl⟩
  · simp only [reducePhase, Fetch.bind_apply, Fetch.pure_apply, append_nil] at hc
    exact lanes_loadLane_reads o hsrc hread c hc
  · rw [reducePhase_writes o m hsrc hdst hu, mem_singleton] at hw
    rw [hw]
    exact hwrite u hu

theorem reducePhase_hits (hsrc : srcOff + n ≤ 2 ^ 31) (hdst : dstOff + B ≤ 2 ^ 31) (hb : b < B) :
    (reducePhase o src dst srcOff dstOff n (B * BLOCK_DIM : ℕ)).Hits
      ⟨.write, dst.buffer, (dstOff + b : ℕ)⟩ := by
  refine ⟨b, ?_, ?_⟩
  · rwa [reducePhase_units]
  · intro m
    rw [mem_accesses, reducePhase_writes o m hsrc hdst hb]
    exact Or.inr ⟨_, mem_singleton_self _, rfl⟩

theorem scanTilePhase_within (hsrc : srcOff + n ≤ 2 ^ 31)
    (hdst : dstOff + n ≤ 2 ^ 31) (hread : Allowed P .read src srcOff n)
    (hwrite : Allowed P .write dst dstOff n) :
    (scanTilePhase o src dst srcOff dstOff n).Within P := by
  intro u _ m a ha
  rcases mem_accesses.mp ha with ⟨c, hc, rfl⟩ | ⟨w, hw, rfl⟩
  · simp only [scanTilePhase, Fetch.bind_apply, Fetch.pure_apply, append_nil] at hc
    exact lanes_loadLane_reads o hsrc hread c hc
  · exact storeLanes_within hdst hwrite w hw

theorem scanDownsweepPhase_within {prefixes : View τ α}
    {prefixesOff : ℕ} (hsrc : srcOff + n ≤ 2 ^ 31)
    (hprefixes : prefixesOff + B ≤ 2 ^ 31) (hdst : dstOff + n ≤ 2 ^ 31)
    (hread : Allowed P .read src srcOff n) (hpre : Allowed P .read prefixes prefixesOff B)
    (hwrite : Allowed P .write dst dstOff n) :
    (scanDownsweepPhase o src prefixes dst srcOff prefixesOff dstOff n
      (B * BLOCK_DIM : ℕ)).Within P := by
  intro u hu m a ha
  rw [scanDownsweepPhase_units] at hu
  rcases mem_accesses.mp ha with ⟨c, hc, rfl⟩ | ⟨w, hw, rfl⟩
  · simp only [scanDownsweepPhase, Fetch.bind_apply, Fetch.pure_apply, append_nil] at hc
    rcases mem_append.mp hc with hc | hc
    · exact lanes_loadLane_reads o hsrc hread c hc
    · obtain ⟨tid, _, hc⟩ := mem_flatMap.mp hc
      simp only [View.load_apply, i32_add (show prefixesOff + u < 2 ^ 31 by omega),
        mem_singleton] at hc
      rw [hc]
      exact hpre u hu
  · rw [scanDownsweepPhase_writes o m hsrc (by omega)] at hw
    exact storeLanes_within hdst hwrite w hw

theorem emitScanInplace_within {buf : View τ α} (levels : ℕ)
    (h : off + n + partials n levels < 2 ^ 31)
    (hP : ∀ kind, Allowed P kind buf off (n + partials n levels)) :
    ∀ l ∈ emitScanInplace o buf off n levels, l.Within P := by
  induction levels generalizing off n with
  | zero =>
    intro l hl
    rw [emitScanInplace, mem_singleton] at hl
    rw [hl]
    exact scanTilePhase_within o (by omega) (by omega) (hP .read) (hP .write)
  | succ levels ih =>
    rw [emitScanInplace_succ o buf levels h]
    rw [partials] at h hP
    have hlive : ∀ kind, Allowed P kind buf off n :=
      fun kind => (hP kind).sub le_rfl (by omega)
    have hpart : ∀ kind, Allowed P kind buf (off + n) (hostBlockCount n) :=
      fun kind => (hP kind).sub (by omega) (by omega)
    rw [forall_mem_cons, forall_mem_append, forall_mem_singleton]
    refine ⟨?_, ?_, ?_⟩
    · exact reducePhase_within o (by omega) (by omega) (hlive .read) (hpart .write)
    · exact ih (by omega) fun kind => (hP kind).sub (by omega) (by omega)
    · exact scanDownsweepPhase_within o (by omega) (by omega) (by omega) (hlive .read)
        (hpart .read) (hlive .write)

theorem emitReduceRec_within {scratch out : View τ α} (phases : ℕ) {cursor : ℕ}
    (hsrc : srcOff + n ≤ 2 ^ 31) (h31 : n + 255 < 2 ^ 31) (h : cursor + partials n phases < 2 ^ 31)
    (hread : Allowed P .read src srcOff n)
    (hP : ∀ kind, Allowed P kind scratch cursor (partials n phases))
    (hout : Allowed P .write out 0 1) :
    ∀ l ∈ emitReduceRec o src scratch out srcOff cursor n phases, l.Within P := by
  induction phases generalizing src srcOff cursor n with
  | zero =>
    intro l hl
    rw [emitReduceRec, mem_singleton] at hl
    rw [hl]
    have hlast : (reducePhase o src out srcOff (0 : ℕ) n (1 * BLOCK_DIM : ℕ)).Within P :=
      reducePhase_within o hsrc (by omega) hread hout
    exact hlast
  | succ phases ih =>
    rw [emitReduceRec_succ o src scratch out phases h31 h]
    rw [partials] at h hP
    have hle := hostBlockCount_le n
    rw [forall_mem_cons]
    refine ⟨?_, ?_⟩
    · exact reducePhase_within o hsrc (by omega) hread ((hP .write).sub le_rfl (by omega))
    · exact ih (by omega) (by omega) (by omega) ((hP .read).sub le_rfl (by omega))
        fun kind => (hP kind).sub (by omega) (by omega)

theorem loadLane_of_nonpos (src : View τ α) {off n : ℤ} (h : n ≤ 0) (b : ℕ) (tid : Fin BLOCK_DIM)
    (m : Memory τ) : loadLane o src off n b tid m = (o.ident, []) := by
  rw [loadLane, lane_natCast, if_neg (by omega), Fetch.pure_apply]

theorem storeLanes_of_nonpos (dst : View τ α) {off n : ℤ} (h : n ≤ 0) (b : ℕ)
    (x : Fin BLOCK_DIM → α) : storeLanes dst off n b x = [] := by
  rw [storeLanes, filterMap_eq_nil_iff]
  intro tid _
  rw [lane_natCast, if_neg (by omega)]

theorem lanes_loadLane_of_nonpos (src : View τ α) {off n : ℤ} (h : n ≤ 0) (b : ℕ) (m : Memory τ) :
    (Fetch.lanes BLOCK_DIM (loadLane o src off n b) m).2 = [] := by
  rw [Fetch.lanes_apply, flatMap_eq_nil_iff]
  intro tid _
  rw [loadLane_of_nonpos o src h]

theorem blockCount_nonpos {n : ℤ} (hlow : -2 ^ 31 ≤ n) (h : n ≤ 0) :
    -2 ^ 23 ≤ blockCount n ∧ blockCount n ≤ 0 := by
  have hsum : i32 (n + (BLOCK_DIM - 1)) = n + (BLOCK_DIM - 1) := by
    apply Int.bmod_eq_of_le <;> simp only [BLOCK_DIM] <;> omega
  rw [blockCount, hsum]
  simp only [BLOCK_DIM]
  omega

theorem totalThreads_nonpos {B : ℤ} (hlow : -2 ^ 23 ≤ B) (h : B ≤ 0) :
    (i32 (B * BLOCK_DIM)).toNat / BLOCK_DIM = 0 := by
  have hprod : i32 (B * BLOCK_DIM) = B * BLOCK_DIM := by
    apply Int.bmod_eq_of_le <;> simp only [BLOCK_DIM] <;> omega
  rw [hprod]
  simp only [BLOCK_DIM]
  omega

theorem emitScanInplace_within_of_nonpos {buf : View τ α} (levels : ℕ) {off n : ℤ}
    (hlow : -2 ^ 31 ≤ n) (h : n ≤ 0) : ∀ l ∈ emitScanInplace o buf off n levels, l.Within P := by
  induction levels generalizing off n with
  | zero =>
    intro l hl
    rw [emitScanInplace, mem_singleton] at hl
    rw [hl]
    intro u _ m a ha
    rcases mem_accesses.mp ha with ⟨c, hc, _⟩ | ⟨w, hw, _⟩
    · simp only [scanTilePhase, Fetch.bind_apply, Fetch.pure_apply, append_nil,
        lanes_loadLane_of_nonpos o buf h] at hc
      cases hc
    · simp only [scanTilePhase, Fetch.bind_apply, Fetch.pure_apply,
        storeLanes_of_nonpos buf h] at hw
      cases hw
  | succ levels ih =>
    obtain ⟨hB, hB0⟩ := blockCount_nonpos hlow h
    have hunits := totalThreads_nonpos hB hB0
    rw [emitScanInplace, forall_mem_cons, forall_mem_append, forall_mem_singleton]
    refine ⟨?_, ?_, ?_⟩
    · exact Launch.Within.of_units_eq_zero hunits P
    · exact ih (by omega) hB0
    · exact Launch.Within.of_units_eq_zero hunits P

theorem emitReduceRec_within_of_nonpos {scratch out : View τ α} (phases : ℕ)
    {srcOff cursor n : ℤ} (hlow : -2 ^ 31 ≤ n) (h : n ≤ 0) (hout : Allowed P .write out 0 1) :
    ∀ l ∈ emitReduceRec o src scratch out srcOff cursor n phases, l.Within P := by
  induction phases generalizing src srcOff cursor n with
  | zero =>
    intro l hl
    rw [emitReduceRec, mem_singleton] at hl
    rw [hl]
    intro u hu m a ha
    have hu0 : u = 0 := Nat.lt_one_iff.mp hu
    rcases mem_accesses.mp ha with ⟨c, hc, _⟩ | ⟨w, hw, rfl⟩
    · simp only [reducePhase, Fetch.bind_apply, Fetch.pure_apply, append_nil,
        lanes_loadLane_of_nonpos o src h] at hc
      cases hc
    · simp only [reducePhase, Fetch.bind_apply, Fetch.pure_apply, mem_singleton, hu0] at hw
      rw [hw]
      exact hout 0 (by omega)
  | succ phases ih =>
    obtain ⟨hB, hB0⟩ := blockCount_nonpos hlow h
    rw [emitReduceRec, forall_mem_cons]
    refine ⟨?_, ?_⟩
    · exact Launch.Within.of_units_eq_zero (totalThreads_nonpos hB hB0) P
    · exact ih (by omega) hB0

theorem blockCount_of_overflow (hn : 2 ^ 31 ≤ n + 255) (h : n < 2 ^ 31) :
    blockCount n = -2 ^ 23 := by
  have hsum : i32 ((n : ℤ) + (BLOCK_DIM - 1)) = n + (BLOCK_DIM - 1) - 2 ^ 32 := by
    rw [i32, ← Int.sub_bmod_right]
    apply Int.bmod_eq_of_le <;> simp only [BLOCK_DIM] <;> omega
  rw [blockCount, hsum]
  simp only [BLOCK_DIM]
  omega

theorem emitScanInplace_hits (buf : View τ α) (levels : ℕ) (hn : 0 < n)
    (h : off + n + partials n (levels + 1) < 2 ^ 31) :
    ∃ l ∈ emitScanInplace o buf off n (levels + 1),
      l.Hits ⟨.write, buf.buffer, (off + n + partials n (levels + 1) - 1 : ℕ)⟩ := by
  induction levels generalizing off n with
  | zero =>
    rw [emitScanInplace_succ o buf 0 h]
    have hB := hostBlockCount_pos hn
    have hpartials : partials n (0 + 1) = hostBlockCount n := Nat.add_zero _
    rw [hpartials] at h ⊢
    refine ⟨_, mem_cons_self, ?_⟩
    rw [show off + n + hostBlockCount n - 1 = off + n + (hostBlockCount n - 1) by omega]
    exact reducePhase_hits o (by omega) (by omega) (by omega)
  | succ levels ih =>
    rw [emitScanInplace_succ o buf (levels + 1) h]
    have hB := hostBlockCount_pos hn
    rw [partials] at h
    have hinner : off + n + hostBlockCount n + partials (hostBlockCount n) (levels + 1) < 2 ^ 31 := by
      omega
    obtain ⟨l, hl, hit⟩ := ih hB hinner
    refine ⟨l, mem_cons_of_mem _ (mem_append_left _ hl), ?_⟩
    rw [partials]
    have hslot : off + n + (hostBlockCount n + partials (hostBlockCount n) (levels + 1)) - 1 =
        off + n + hostBlockCount n + partials (hostBlockCount n) (levels + 1) - 1 := by omega
    rw [hslot]
    exact hit

end phases

section covered

variable {β : Type} {τ : β → Type} {α : Type}

/-- Scratch accesses stay in `scratch[0 : S]`, and nothing is read below the start of an input or
of the scratch. -/
def InBounds (scratch : β) (isInput : β → Prop) (S : ℕ) (a : Access β) : Prop :=
  (a.buffer = scratch → 0 ≤ a.index ∧ a.index < S) ∧
    (a.kind = .read → isInput a.buffer ∨ a.buffer = scratch → 0 ≤ a.index)

/-- The kernel is emitted, and all accesses of its runs are in bounds. -/
def Covered [DecidableEq β] (scratch : β) (isInput : β → Prop) (S : ℕ)
    (emitted : Except EmitError (List (Launch τ))) : Prop :=
  ∃ ls, emitted = .ok ls ∧ ∀ m, ∀ a ∈ (runAll ls ⟨m, []⟩).log, InBounds scratch isInput S a

variable {scratch : β} {isInput : β → Prop} {S : ℕ}

variable {kind : Kind}

theorem inBounds_natCast {b : β} {i : ℕ} (h : b = scratch → i < S) :
    InBounds scratch isInput S ⟨kind, b, (i : ℤ)⟩ := by
  refine ⟨?_, ?_⟩
  · intro hb
    exact ⟨Int.natCast_nonneg i, Int.ofNat_lt.mpr (h hb)⟩
  · intro _ _
    exact Int.natCast_nonneg i

theorem allowed_of_ne (kind : Kind) {v : View τ α} (h : v.buffer ≠ scratch) (lo len : ℕ) :
    Allowed (InBounds scratch isInput S) kind v lo len :=
  fun _ _ => inBounds_natCast fun hb => absurd hb h

theorem allowed_of_le (kind : Kind) (v : View τ α) {lo len : ℕ} (h : lo + len ≤ S) :
    Allowed (InBounds scratch isInput S) kind v lo len :=
  fun _ _ => inBounds_natCast fun _ => by omega

theorem covered_of_within [DecidableEq β] {ls : List (Launch τ)}
    (h : ∀ l ∈ ls, l.Within (InBounds scratch isInput S)) :
    Covered scratch isInput S (.ok ls : Except EmitError _) := by
  refine ⟨ls, rfl, ?_⟩
  intro m
  exact runAll_log_within h fun a ha => absurd ha not_mem_nil

theorem not_covered_of_hits [DecidableEq β] [∀ b, Inhabited (τ b)] {ls : List (Launch τ)}
    {l : Launch τ} (hl : l ∈ ls) {a : Access β} (hit : l.Hits a)
    (ha : ¬ InBounds scratch isInput S a) :
    ¬ Covered scratch isInput S (.ok ls : Except EmitError _) := by
  rintro ⟨ls', hls, h⟩
  obtain rfl : ls = ls' := Except.ok.inj hls
  exact ha (h (fun _ _ => default) a (mem_runAll_log hl hit _))

theorem not_inBounds_of_ge {i : ℕ} (h : S ≤ i) :
    ¬ InBounds scratch isInput S ⟨kind, scratch, (i : ℤ)⟩ := by
  intro hb
  exact absurd (Int.ofNat_lt.mp (hb.1 rfl).2) (Nat.not_lt.mpr h)

theorem not_inBounds_of_neg {i : ℤ} (h : i < 0) :
    ¬ InBounds scratch isInput S ⟨kind, scratch, i⟩ := by
  intro hb
  exact absurd (hb.1 rfl).1 (Int.not_le.mpr h)

end covered

section reduceAndScan

variable {α W : Type} (o : BinOp α) (bits : α ≃ W) {N D n : ℕ}

theorem allowed_arrView (kind : Kind) (S lo len : ℕ) :
    Allowed (InBounds Tensor.scratch (· = Tensor.arr) S) kind
      (arrView : View (Tensor.Cell α W) α) lo len :=
  allowed_of_ne kind (show Tensor.arr ≠ Tensor.scratch from nofun) lo len

theorem allowed_outView (kind : Kind) (S lo len : ℕ) :
    Allowed (InBounds Tensor.scratch (· = Tensor.arr) S) kind
      (outView : View (Tensor.Cell α W) α) lo len :=
  allowed_of_ne kind (show Tensor.out ≠ Tensor.scratch from nofun) lo len

theorem reduce_covered (hN : N < 2 ^ 31) (hD : 1 ≤ D) (hmax : D ≤ MAX_LOG256_MAX_N)
    (hle : N ≤ BLOCK_DIM ^ D) (hn : n ≤ N) : ∃ S, reduceScratchSlots N D = .ok S ∧
      Covered Tensor.scratch (· = Tensor.arr) S (reduce o bits n D) := by
  refine ⟨_, reduceScratchSlots_eq hmax N, ?_⟩
  obtain ⟨phases, rfl⟩ : ∃ phases, D = phases + 1 := ⟨D - 1, by omega⟩
  rw [reduce, emitReduce, validateLog256MaxN_of_le hmax]
  apply covered_of_within
  rcases Nat.lt_or_ge (n + 255) (2 ^ 31) with h | h
  · have hphases : phases ≤ 3 := by
      simp only [MAX_LOG256_MAX_N] at hmax
      omega
    have hslots := (partials_mono hn phases).trans (le_atLeastOne (partials N phases))
    have h31 : 0 + partials n phases < 2 ^ 31 := by
      rw [Nat.zero_add]
      exact partials_lt h hphases
    have hsrc : 0 + n ≤ 2 ^ 31 := by omega
    exact emitReduceRec_within o phases hsrc h h31 (allowed_arrView .read _ 0 n)
      (fun kind => allowed_of_le kind (scratchView bits) (by rwa [Nat.zero_add]))
      (allowed_outView .write _ 0 1)
  · -- the block count has wrapped: no partial is read or written
    cases phases with
    | zero =>
      simp only [BLOCK_DIM] at hle
      omega
    | succ phases =>
      have hB := blockCount_of_overflow h (by omega)
      rw [emitReduceRec, forall_mem_cons]
      refine ⟨?_, ?_⟩
      · exact Launch.Within.of_units_eq_zero (totalThreads_nonpos (by omega) (by omega)) _
      · exact emitReduceRec_within_of_nonpos o phases (by omega) (by omega)
          (allowed_outView .write _ 0 1)

theorem exclusiveScan_covered (hN : N < 2 ^ 31) (hD : 1 ≤ D) (hmax : D ≤ MAX_LOG256_MAX_N)
    (hn : n ≤ N) : ∃ S, exclusiveScanScratchSlots N D = .ok S ∧
      Covered Tensor.scratch (· = Tensor.arr) S (exclusiveScan o bits n D) := by
  match D, hD with
  | 1, _ =>
    refine ⟨1, rfl, ?_⟩
    apply covered_of_within
    rw [forall_mem_singleton]
    have hoff : 0 + n ≤ 2 ^ 31 := by omega
    exact scanTilePhase_within o hoff hoff (allowed_arrView .read _ 0 n)
      (allowed_outView .write _ 0 n)
  | levels + 2, _ =>
    refine ⟨_, exclusiveScanScratchSlots_eq hmax N, ?_⟩
    rw [exclusiveScan, emitScan, validateLog256MaxN_of_le hmax]
    apply covered_of_within
    rw [forall_mem_cons, forall_mem_append, forall_mem_singleton]
    rcases Nat.lt_or_ge (n + 255) (2 ^ 31) with h | h
    · have hlevels : levels + 1 ≤ 3 := by
        simp only [MAX_LOG256_MAX_N] at hmax
        omega
      have hslots := (partials_mono hn (levels + 1)).trans
        (le_atLeastOne (partials N (levels + 1)))
      have h31 := partials_lt h hlevels
      rw [partials] at h31 hslots
      have hoff : 0 + n ≤ 2 ^ 31 := by omega
      have hpart : 0 + hostBlockCount n ≤ 2 ^ 31 := by omega
      have hscratch : ∀ kind, Allowed (InBounds Tensor.scratch (· = Tensor.arr)
          (atLeastOne (partials N (levels + 1)))) kind (scratchView bits) 0
            (hostBlockCount n + partials (hostBlockCount n) levels) :=
        fun kind => allowed_of_le kind (scratchView bits) (by rwa [Nat.zero_add])
      have hfirst : ∀ kind, Allowed (InBounds Tensor.scratch (· = Tensor.arr)
          (atLeastOne (partials N (levels + 1)))) kind (scratchView bits) 0 (hostBlockCount n) :=
        fun kind => (hscratch kind).sub le_rfl (by omega)
      rw [totalThreads_eq h, blockCount_eq h]
      refine ⟨?_, ?_, ?_⟩
      · exact reducePhase_within o hoff hpart (allowed_arrView .read _ 0 n) (hfirst .write)
      · have hinner : 0 + hostBlockCount n + partials (hostBlockCount n) levels < 2 ^ 31 := by
          omega
        exact emitScanInplace_within o levels hinner hscratch
      · exact scanDownsweepPhase_within o hoff hpart hoff (allowed_arrView .read _ 0 n)
          (hfirst .read) (allowed_outView .write _ 0 n)
    · have hB := blockCount_of_overflow h (by omega)
      have hunits := totalThreads_nonpos (B := blockCount n) (by omega) (by omega)
      refine ⟨?_, ?_, ?_⟩
      · exact Launch.Within.of_units_eq_zero hunits _
      · exact emitScanInplace_within_of_nonpos o levels (by omega) (by omega)
      · exact Launch.Within.of_units_eq_zero hunits _

end reduceAndScan

section select

theorem one_or_add_two {D : ℕ} (hD : 1 ≤ D) : D = 1 ∨ ∃ levels, D = levels + 2 := by
  rcases Nat.eq_or_lt_of_le hD with h | h
  · exact Or.inl h.symm
  · exact Or.inr ⟨D - 2, by omega⟩

variable {E : Type} {N D n : ℕ}

def SelectTensor.IsInput (t : SelectTensor) : Prop := t = .arr ∨ t = .flags

/-- The live count leaves room for the levels by which `D` exceeds the depth of the capacity. -/
def SelectFits (N D n : ℕ) : Prop :=
  0 < n ∧ n + partials n (D - 1) + (D - max 2 (reduceDepthForN N)) ≤ N + partials N (D - 1)

theorem allowed_flagsView (kind : Kind) (S lo len : ℕ) :
    Allowed (InBounds SelectTensor.scratch SelectTensor.IsInput S) kind
      (flagsView : View (SelectTensor.Cell E) (BitVec 32)) lo len :=
  allowed_of_ne kind (show SelectTensor.flags ≠ SelectTensor.scratch from nofun) lo len

variable {S levels : ℕ}

theorem selectScatterPhase_within (h : n ≤ S) (h31 : n < 2 ^ 31) :
    (selectScatterPhase 0 n : Launch (SelectTensor.Cell E)).Within
      (InBounds SelectTensor.scratch SelectTensor.IsInput S) := by
  intro u hu m a ha
  have hu' : u < n := by simpa [selectScatterPhase] using hu
  have hindex : i32 (0 + (u : ℤ)) = u := by
    rw [Int.zero_add, i32_natCast (by omega)]
  simp only [selectScatterPhase, Fetch.bind_apply, View.load_apply] at ha
  split_ifs at ha with hflag
  · simp only [Fetch.bind_apply, View.load_apply, Fetch.pure_apply, hindex,
      mem_accesses, mem_append, mem_cons, not_mem_nil, or_false] at ha
    rcases ha with ⟨c, hc | hc | hc, rfl⟩ | ⟨w, rfl, rfl⟩
    · rw [hc]
      exact inBounds_natCast (by rintro ⟨⟩)
    · rw [hc]
      exact inBounds_natCast fun _ => by omega
    · rw [hc]
      exact inBounds_natCast (by rintro ⟨⟩)
    · exact ⟨by rintro ⟨⟩, by rintro ⟨⟩⟩
  · simp only [Fetch.pure_apply, mem_accesses, append_nil, mem_singleton,
      not_mem_nil, false_and, exists_false, or_false] at ha
    obtain ⟨c, rfl, rfl⟩ := ha
    exact inBounds_natCast (by rintro ⟨⟩)

theorem selectCountPhase_within (h0 : 0 < n) (h : n ≤ S) (h31 : n < 2 ^ 31) :
    (selectCountPhase 0 n : Launch (SelectTensor.Cell E)).Within
      (InBounds SelectTensor.scratch SelectTensor.IsInput S) := by
  intro u _ m a ha
  have hlast : i32 ((n : ℤ) - 1) = (n - 1 : ℕ) := by
    rw [i32_of_lt (by omega) (by omega)]
    omega
  simp only [selectCountPhase, Fetch.bind_apply, View.load_apply, Fetch.pure_apply, Int.zero_add,
    i32_natCast h31, hlast, mem_accesses, mem_append, mem_cons, not_mem_nil,
    or_false] at ha
  rcases ha with ⟨c, hc | hc, rfl⟩ | ⟨w, rfl, rfl⟩
  · rw [hc]
    exact inBounds_natCast fun _ => by omega
  · rw [hc]
    exact inBounds_natCast (by rintro ⟨⟩)
  · exact ⟨by rintro ⟨⟩, by rintro ⟨⟩⟩

theorem selectCountPhase_hits :
    (selectCountPhase 0 ((0 : ℕ) : ℤ) : Launch (SelectTensor.Cell E)).Hits
      ⟨.read, SelectTensor.scratch, -1⟩ := by
  refine ⟨0, Nat.one_pos, ?_⟩
  intro m
  exact mem_cons_self

instance [Inhabited E] (t : SelectTensor) : Inhabited (SelectTensor.Cell E t) :=
  match t with
  | .arr => inferInstanceAs (Inhabited E)
  | .flags => inferInstanceAs (Inhabited (BitVec 32))
  | .out => inferInstanceAs (Inhabited E)
  | .numOut => inferInstanceAs (Inhabited (BitVec 32))
  | .scratch => inferInstanceAs (Inhabited (BitVec 32))

theorem select_one (n : ℤ) : (select n 1 : Except EmitError (List (Launch (SelectTensor.Cell E)))) =
      .ok ([scanTilePhase addI32 flagsView selectScratch 0 0 n] ++
        [selectScatterPhase 0 n, selectCountPhase 0 n]) := rfl

def selectLaunches (n levels : ℕ) : List (Launch (SelectTensor.Cell E)) :=
  (reducePhase addI32 flagsView selectScratch (0 : ℕ) n n (hostBlockCount n * BLOCK_DIM : ℕ) ::
    (emitScanInplace addI32 selectScratch n (hostBlockCount n : ℕ) levels ++
      [scanDownsweepPhase addI32 flagsView selectScratch selectScratch (0 : ℕ) n (0 : ℕ) n
        (hostBlockCount n * BLOCK_DIM : ℕ)])) ++
    [selectScatterPhase 0 n, selectCountPhase 0 n]

theorem select_add_two (hmax : levels + 2 ≤ MAX_LOG256_MAX_N) (h31 : n + 255 < 2 ^ 31) :
    (select n (levels + 2) : Except EmitError (List (Launch (SelectTensor.Cell E)))) =
      .ok (selectLaunches n levels) := by
  have hthreads := totalThreads_eq h31
  rw [blockCount_eq h31] at hthreads
  simp only [select, emitSelectScan, validateLog256MaxN_of_le hmax, blockCount_eq h31, hthreads]
  rfl

theorem selectLaunches_within (h0 : 0 < n) (h31 : n + partials n (levels + 1) < 2 ^ 31)
    (hS : n + partials n (levels + 1) ≤ S) :
    ∀ l ∈ (selectLaunches n levels : List (Launch (SelectTensor.Cell E))),
      l.Within (InBounds SelectTensor.scratch SelectTensor.IsInput S) := by
  rw [partials] at h31 hS
  have hscratch : ∀ kind, ∀ lo len, lo + len ≤ S → Allowed
      (InBounds SelectTensor.scratch SelectTensor.IsInput S) kind
        (selectScratch : View (SelectTensor.Cell E) (BitVec 32)) lo len :=
    fun kind lo len h => allowed_of_le kind selectScratch h
  rw [selectLaunches, forall_mem_append, forall_mem_cons, forall_mem_append,
    forall_mem_singleton, forall_mem_cons, forall_mem_singleton]
  refine ⟨⟨?_, ?_, ?_⟩, ?_, ?_⟩
  · exact reducePhase_within addI32 (by omega) (by omega) (allowed_flagsView .read S 0 n)
      (hscratch .write n (hostBlockCount n) (by omega))
  · exact emitScanInplace_within addI32 levels (by omega)
      fun kind => hscratch kind n (hostBlockCount n + partials (hostBlockCount n) levels) (by omega)
  · exact scanDownsweepPhase_within addI32 (by omega) (by omega) (by omega)
      (allowed_flagsView .read S 0 n) (hscratch .read n (hostBlockCount n) (by omega))
      (hscratch .write 0 n (by omega))
  · exact selectScatterPhase_within (by omega) (by omega)
  · exact selectCountPhase_within h0 (by omega) (by omega)

theorem selectLaunches_hits (h0 : 0 < n) (h31 : n + partials n (levels + 1) < 2 ^ 31) :
    ∃ l ∈ (selectLaunches n levels : List (Launch (SelectTensor.Cell E))),
      l.Hits ⟨.write, SelectTensor.scratch, (n + partials n (levels + 1) - 1 : ℕ)⟩ := by
  have hB := hostBlockCount_pos h0
  rw [partials] at h31
  cases levels with
  | zero =>
    have hslot : n + partials n (0 + 1) - 1 = n + (hostBlockCount n - 1) := by
      have hpartials : partials n (0 + 1) = hostBlockCount n := Nat.add_zero _
      omega
    refine ⟨_, mem_append_left _ mem_cons_self, ?_⟩
    rw [hslot]
    exact reducePhase_hits addI32 (by omega) (by omega) (by omega)
  | succ levels =>
    have hinner : n + hostBlockCount n + partials (hostBlockCount n) (levels + 1) < 2 ^ 31 := by
      omega
    obtain ⟨l, hl, hit⟩ := emitScanInplace_hits addI32 (selectScratch (E := E)) levels hB
      hinner
    refine ⟨l, mem_append_left _ (mem_cons_of_mem _ (mem_append_left _ hl)), ?_⟩
    have hslot : n + partials n (levels + 1 + 1) - 1 =
        n + hostBlockCount n + partials (hostBlockCount n) (levels + 1) - 1 := by
      rw [partials]
      omega
    rw [hslot]
    exact hit

theorem stacked_lt_of_flat {k : ℕ} (hle : N ≤ BLOCK_DIM ^ 3) (hn : n ≤ N) (hk : k ≤ 3) :
    n + partials n k < 2 ^ 31 := by
  have hpow : BLOCK_DIM ^ 3 = 2 ^ 24 := by decide
  have hpart := partials_le n k
  have hmul := Nat.mul_le_mul_left (hostBlockCount n) hk
  have hB := hostBlockCount_le n
  omega

theorem select_covered_iff [Inhabited E] (hN : 0 < N) (hD : 1 ≤ D) (hmax : D ≤ MAX_LOG256_MAX_N)
    (hle : N ≤ BLOCK_DIM ^ D) (hn : n ≤ N) (hS : selectScratchSlots N < 2 ^ 31) :
    Covered SelectTensor.scratch SelectTensor.IsInput (selectScratchSlots N)
      (select n D : Except EmitError (List (Launch (SelectTensor.Cell E)))) ↔
        SelectFits N D n := by
  have hslots := selectScratchSlots_eq hN
  have h31 : n + 255 < 2 ^ 31 := by
    simp only [hostBlockCount, BLOCK_DIM] at hslots
    omega
  rcases one_or_add_two hD with rfl | ⟨levels, rfl⟩
  · constructor
    · intro hcov
      have hzero : ∀ k, partials k (1 - 1) = 0 := fun _ => rfl
      refine ⟨?_, by rw [hzero, hzero]; omega⟩
      by_contra h0
      obtain rfl : n = 0 := by omega
      exact not_covered_of_hits (mem_append_right _ (mem_cons_of_mem _
        mem_cons_self)) selectCountPhase_hits (not_inBounds_of_neg (by decide)) hcov
    · rintro ⟨h0, _⟩
      apply covered_of_within
      have hoff : 0 + n ≤ 2 ^ 31 := by omega
      rw [forall_mem_append, forall_mem_singleton, forall_mem_cons, forall_mem_singleton]
      refine ⟨?_, ?_, ?_⟩
      · exact scanTilePhase_within addI32 hoff hoff (allowed_flagsView .read _ 0 n)
          (allowed_of_le .write selectScratch (show 0 + n ≤ _ by omega))
      · exact selectScatterPhase_within (by omega) (by omega)
      · exact selectCountPhase_within h0 (by omega) (by omega)
  · have hflat := selectScratchSlots_add_flat hN (by omega) hmax hle
    have hstack : partials n (levels + 2 - 1) = partials n (levels + 1) := rfl
    have hmono : partials n (levels + 1) ≤ partials N (levels + 2 - 1) :=
      partials_mono hn (levels + 1)
    rw [select_add_two hmax h31]
    constructor
    · intro hcov
      by_contra hfits
      rcases Nat.eq_zero_or_pos n with rfl | h0
      · exact not_covered_of_hits (mem_append_right _ (mem_cons_of_mem _
          mem_cons_self)) selectCountPhase_hits (not_inBounds_of_neg (by decide)) hcov
      · have hover : selectScratchSlots N < n + partials n (levels + 1) := by
          by_contra hno
          exact hfits ⟨h0, by omega⟩
        have hsmall : N ≤ BLOCK_DIM ^ 3 := by
          apply le_pow_of_reduceDepthForN_le
          simp only [MAX_LOG256_MAX_N] at hmax
          omega
        have hlevels : levels + 1 ≤ 3 := by
          simp only [MAX_LOG256_MAX_N] at hmax
          omega
        obtain ⟨l, hl, hit⟩ := selectLaunches_hits (E := E) h0 (stacked_lt_of_flat hsmall hn hlevels)
        exact not_covered_of_hits hl hit (not_inBounds_of_ge (by omega)) hcov
    · rintro ⟨h0, hfits⟩
      exact covered_of_within (selectLaunches_within h0 (by omega) (by omega))

end select

section reduceByKey

variable {K V : Type} (ops : KeyOps K V) {N D n : ℕ}

def KeyTensor.IsInput (t : KeyTensor) : Prop := t = .keysIn ∨ t = .valuesIn

/-- The live count leaves room for the levels by which `D` exceeds the depth of the capacity. -/
def KeyFits (N D n : ℕ) : Prop :=
  0 < n ∧ n + partials n (D - 1) + (D - reduceDepthForN N) ≤ N + partials N (D - 1)

variable {S : ℕ}

theorem headFlag_reads {i : ℕ} (h31 : i < 2 ^ 31) (m : Memory (KeyTensor.Cell K V)) :
    ∀ c ∈ (headFlag ops i m).2,
      InBounds KeyTensor.scratch KeyTensor.IsInput S ⟨.read, c.1, c.2⟩ := by
  intro c hc
  cases i with
  | zero => cases hc
  | succ i =>
    have hprevious : i32 (((i + 1 : ℕ) : ℤ) - 1) = i := by
      rw [i32_of_lt (by omega) (by omega)]
      omega
    simp only [headFlag, if_neg (Nat.succ_ne_zero i), Fetch.bind_apply, View.load_apply,
      Fetch.pure_apply, hprevious, mem_append, mem_cons, not_mem_nil,
      or_false] at hc
    rcases hc with hc | hc
    · rw [hc]
      exact inBounds_natCast (by rintro ⟨⟩)
    · rw [hc]
      exact inBounds_natCast (by rintro ⟨⟩)

theorem rbkHeadFlagsPhase_within (h : n ≤ S) (h31 : n < 2 ^ 31) :
    (rbkHeadFlagsPhase ops 0 n).Within (InBounds KeyTensor.scratch KeyTensor.IsInput S) := by
  intro u hu m a ha
  have hu' : u < n := by simpa [rbkHeadFlagsPhase] using hu
  have hindex : i32 (0 + (u : ℤ)) = u := by
    rw [Int.zero_add, i32_natCast (by omega)]
  simp only [rbkHeadFlagsPhase, Fetch.bind_apply, Fetch.pure_apply, hindex, mem_accesses,
    append_nil, mem_singleton] at ha
  rcases ha with ⟨c, hc, rfl⟩ | ⟨w, rfl, rfl⟩
  · exact headFlag_reads ops (by omega) m c hc
  · exact inBounds_natCast fun _ => by omega

theorem rbkZeroValuesOutPhase_within :
    (rbkZeroValuesOutPhase ops n).Within (InBounds KeyTensor.scratch KeyTensor.IsInput S) := by
  intro u _ m a ha
  simp only [rbkZeroValuesOutPhase, Fetch.pure_apply, mem_accesses, not_mem_nil, false_and,
    exists_false, false_or, mem_singleton] at ha
  obtain ⟨w, rfl, rfl⟩ := ha
  exact ⟨by rintro ⟨⟩, by rintro ⟨⟩⟩

theorem rbkScatterPhase_within (h : n ≤ S) (h31 : n < 2 ^ 31) :
    (rbkScatterPhase ops 0 n).Within (InBounds KeyTensor.scratch KeyTensor.IsInput S) := by
  intro u hu m a ha
  have hu' : u < n := by simpa [rbkScatterPhase] using hu
  have hindex : i32 (0 + (u : ℤ)) = u := by
    rw [Int.zero_add, i32_natCast (by omega)]
  simp only [rbkScatterPhase, Fetch.bind_apply, View.load_apply, Fetch.pure_apply, hindex,
    mem_accesses, mem_append, mem_cons, not_mem_nil,
    or_false] at ha
  rcases ha with ⟨c, hc | hc | hc | hc | hc, rfl⟩ | ⟨w, rfl | rfl, rfl⟩
  · exact headFlag_reads ops (by omega) m c hc
  · rw [hc]
    exact inBounds_natCast fun _ => by omega
  · rw [hc]
    exact inBounds_natCast (by rintro ⟨⟩)
  · rw [hc]
    exact inBounds_natCast (by rintro ⟨⟩)
  · -- the sum is updated in place: an output, not an input
    rw [hc]
    exact ⟨by rintro ⟨⟩, fun _ hb => absurd hb (by simp [KeyTensor.IsInput, valuesOutView])⟩
  · exact ⟨by rintro ⟨⟩, by rintro ⟨⟩⟩
  · exact ⟨by rintro ⟨⟩, by rintro ⟨⟩⟩

theorem lastHeadFlag_reads (h0 : 0 < n) (h31 : n < 2 ^ 31) (m : Memory (KeyTensor.Cell K V)) :
    ∀ c ∈ (lastHeadFlag ops n m).2,
      InBounds KeyTensor.scratch KeyTensor.IsInput S ⟨.read, c.1, c.2⟩ := by
  intro c hc
  rcases Nat.lt_or_ge 1 n with hone | hone
  · have hlast : i32 ((n : ℤ) - 1) = (n - 1 : ℕ) := by
      rw [i32_of_lt (by omega) (by omega)]
      omega
    have hprevious : i32 ((n : ℤ) - 2) = (n - 2 : ℕ) := by
      rw [i32_of_lt (by omega) (by omega)]
      omega
    rw [lastHeadFlag, if_neg (by omega)] at hc
    simp only [Fetch.bind_apply, View.load_apply, Fetch.pure_apply, hlast, hprevious,
      mem_append, mem_cons, not_mem_nil, or_false] at hc
    rcases hc with hc | hc
    · rw [hc]
      exact inBounds_natCast (by rintro ⟨⟩)
    · rw [hc]
      exact inBounds_natCast (by rintro ⟨⟩)
  · rw [lastHeadFlag, if_pos (by omega)] at hc
    cases hc

theorem rbkCountPhase_within (h0 : 0 < n) (h : n ≤ S) (h31 : n < 2 ^ 31) :
    (rbkCountPhase ops 0 n).Within (InBounds KeyTensor.scratch KeyTensor.IsInput S) := by
  intro u _ m a ha
  have hlast : i32 ((n : ℤ) - 1) = (n - 1 : ℕ) := by
    rw [i32_of_lt (by omega) (by omega)]
    omega
  simp only [rbkCountPhase, Fetch.bind_apply, View.load_apply, Fetch.pure_apply, Int.zero_add,
    i32_natCast h31, hlast, mem_accesses, mem_append, mem_cons, not_mem_nil,
    or_false] at ha
  rcases ha with ⟨c, hc | hc, rfl⟩ | ⟨w, rfl, rfl⟩
  · rw [hc]
    exact inBounds_natCast fun _ => by omega
  · exact lastHeadFlag_reads ops h0 h31 m c hc
  · exact ⟨by rintro ⟨⟩, by rintro ⟨⟩⟩

theorem rbkCountPhase_hits :
    (rbkCountPhase ops 0 ((0 : ℕ) : ℤ)).Hits ⟨.read, KeyTensor.scratch, -1⟩ := by
  refine ⟨0, Nat.one_pos, ?_⟩
  intro m
  exact mem_cons_self

instance [Inhabited K] [Inhabited V] (t : KeyTensor) : Inhabited (KeyTensor.Cell K V t) :=
  match t with
  | .keysIn => inferInstanceAs (Inhabited K)
  | .valuesIn => inferInstanceAs (Inhabited V)
  | .keysOut => inferInstanceAs (Inhabited K)
  | .valuesOut => inferInstanceAs (Inhabited V)
  | .numRuns => inferInstanceAs (Inhabited (BitVec 32))
  | .scratch => inferInstanceAs (Inhabited (BitVec 32))

theorem reduceByKeyAdd_add_one {levels : ℕ} (hmax : levels + 1 ≤ MAX_LOG256_MAX_N) (n : ℤ) :
    reduceByKeyAdd ops n (levels + 1) =
      .ok (rbkHeadFlagsPhase ops 0 n :: (emitScanInplace addI32 keyScratch 0 n levels ++
        [rbkZeroValuesOutPhase ops n, rbkScatterPhase ops 0 n, rbkCountPhase ops 0 n])) := by
  rw [reduceByKeyAdd, validateLog256MaxN_of_le hmax]
  rfl

theorem reduceByKeyAdd_covered_iff [Inhabited K] [Inhabited V] (hN : 0 < N) (hD : 1 ≤ D)
    (hmax : D ≤ MAX_LOG256_MAX_N) (hle : N ≤ BLOCK_DIM ^ D) (hn : n ≤ N)
    (hS : reduceByKeyScratchSlots N < 2 ^ 31) :
    Covered KeyTensor.scratch KeyTensor.IsInput (reduceByKeyScratchSlots N)
      (reduceByKeyAdd ops n D) ↔ KeyFits N D n := by
  obtain ⟨levels, rfl⟩ : ∃ levels, D = levels + 1 := ⟨D - 1, by omega⟩
  have hslots := reduceByKeyScratchSlots_eq hN
  have hflat := reduceByKeyScratchSlots_add_flat hN (by omega) hmax hle
  have hstack : partials n (levels + 1 - 1) = partials n levels := rfl
  have hmono : partials n levels ≤ partials N (levels + 1 - 1) := partials_mono hn levels
  have hlevels : levels ≤ 3 := by
    simp only [MAX_LOG256_MAX_N] at hmax
    omega
  rw [reduceByKeyAdd_add_one ops hmax]
  constructor
  · intro hcov
    by_contra hfits
    rcases Nat.eq_zero_or_pos n with rfl | h0
    · refine not_covered_of_hits (mem_cons_of_mem _ (mem_append_right _ ?_))
        (rbkCountPhase_hits ops) (not_inBounds_of_neg (by decide)) hcov
      exact mem_cons_of_mem _ (mem_cons_of_mem _ mem_cons_self)
    · have hover : reduceByKeyScratchSlots N < n + partials n levels := by
        by_contra hno
        exact hfits ⟨h0, by omega⟩
      have hsmall : N ≤ BLOCK_DIM ^ 3 := by
        apply le_pow_of_reduceDepthForN_le
        omega
      cases levels with
      | zero =>
        rw [partials] at hover
        omega
      | succ levels =>
        have h31 : 0 + n + partials n (levels + 1) < 2 ^ 31 := by
          rw [Nat.zero_add]
          exact stacked_lt_of_flat hsmall hn hlevels
        obtain ⟨l, hl, hit⟩ := emitScanInplace_hits addI32 (keyScratch (K := K) (V := V))
          levels h0 h31
        exact not_covered_of_hits (mem_cons_of_mem _ (mem_append_left _ hl)) hit
          (not_inBounds_of_ge (by omega)) hcov
  · rintro ⟨h0, hfits⟩
    have h31 : 0 + n + partials n levels < 2 ^ 31 := by omega
    apply covered_of_within
    rw [forall_mem_cons, forall_mem_append, forall_mem_cons, forall_mem_cons, forall_mem_singleton]
    refine ⟨?_, ?_, ?_, ?_, ?_⟩
    · exact rbkHeadFlagsPhase_within ops (by omega) (by omega)
    · exact emitScanInplace_within addI32 levels h31
        fun kind => allowed_of_le kind keyScratch (show 0 + (n + partials n levels) ≤ _ by omega)
    · exact rbkZeroValuesOutPhase_within ops
    · exact rbkScatterPhase_within ops (by omega) (by omega)
    · exact rbkCountPhase_within ops h0 (by omega) (by omega)

end reduceByKey

/-- When the documented scratch sizes cover the accesses of the four operations: always for reduce
and scan, exactly in the cases of `SelectFits` and `KeyFits` for the two whose sizing helper does
not know the depth. A scratch of `S` slots exists only for `S < 2 ^ 31`. -/
theorem scratch_covered_iff {α W E K V : Type} [Inhabited E] [Inhabited K] [Inhabited V]
    (o : BinOp α) (bits : α ≃ W) (ops : KeyOps K V) (N D n : ℕ) (hN : 1 ≤ N) (hN31 : N < 2 ^ 31)
    (hD : 1 ≤ D) (hmax : D ≤ MAX_LOG256_MAX_N) (hle : N ≤ BLOCK_DIM ^ D) (hn : n ≤ N) :
    (∃ S, reduceScratchSlots N D = .ok S ∧
      Covered Tensor.scratch (· = Tensor.arr) S (reduce o bits n D)) ∧
    (∃ S, exclusiveScanScratchSlots N D = .ok S ∧
      Covered Tensor.scratch (· = Tensor.arr) S (exclusiveScan o bits n D)) ∧
    (selectScratchSlots N < 2 ^ 31 →
      (Covered SelectTensor.scratch SelectTensor.IsInput (selectScratchSlots N)
        (select n D : Except EmitError (List (Launch (SelectTensor.Cell E)))) ↔
          SelectFits N D n)) ∧
    (reduceByKeyScratchSlots N < 2 ^ 31 →
      (Covered KeyTensor.scratch KeyTensor.IsInput (reduceByKeyScratchSlots N)
        (reduceByKeyAdd ops n D) ↔ KeyFits N D n)) :=
  ⟨reduce_covered o bits hN31 hD hmax hle hn, exclusiveScan_covered o bits hN31 hD hmax hn,
    select_covered_iff hN hD hmax hle hn, reduceByKeyAdd_covered_iff ops hN hD hmax hle hn⟩

def wordOps : KeyOps (BitVec 32) (BitVec 32) := ⟨fun k k' => k != k', (· + ·), 0⟩

theorem scratch_covered_iff_three :
    Covered SelectTensor.scratch SelectTensor.IsInput (selectScratchSlots 3)
      (select (3 : ℕ) 2 : Except EmitError (List (Launch (SelectTensor.Cell (BitVec 32))))) ∧
    Covered KeyTensor.scratch KeyTensor.IsInput (reduceByKeyScratchSlots 3)
      (reduceByKeyAdd wordOps (3 : ℕ) 1) := by
  have hdepth : reduceDepthForN 3 = 1 := reduceDepthForN_of_le (by decide)
  have h2 := scratch_covered_iff (E := BitVec 32) (opBins .u32 .add) (Equiv.refl (BitVec 32)) wordOps
    3 2 3 (by decide) (by decide) (by decide) (by decide) (by decide) (by decide)
  have h1 := scratch_covered_iff (E := BitVec 32) (opBins .u32 .add) (Equiv.refl (BitVec 32)) wordOps
    3 1 3 (by decide) (by decide) (by decide) (by decide) (by decide) (by decide)
  refine ⟨(h2.2.2.1 (by decide)).mpr ⟨by decide, ?_⟩, (h1.2.2.2 (by decide)).mpr ⟨by decide, ?_⟩⟩
  · rw [hdepth]
    decide
  · rw [hdepth]
    decide

/-- `select` with no live element reads `scratch[-1]`, and at a depth one above that of its
capacity writes past its scratch; so does `reduce_by_key_add`. -/
theorem scratch_not_covered : (∀ S, ¬ Covered SelectTensor.scratch SelectTensor.IsInput S
      (select (0 : ℕ) 1 : Except EmitError (List (Launch (SelectTensor.Cell (BitVec 32)))))) ∧
    ¬ Covered SelectTensor.scratch SelectTensor.IsInput (selectScratchSlots 3)
      (select (3 : ℕ) 3 : Except EmitError (List (Launch (SelectTensor.Cell (BitVec 32))))) ∧
    ¬ Covered KeyTensor.scratch KeyTensor.IsInput (reduceByKeyScratchSlots 3)
      (reduceByKeyAdd wordOps (3 : ℕ) 2) := by
  have hdepth : reduceDepthForN 3 = 1 := reduceDepthForN_of_le (by decide)
  refine ⟨?_, ?_, ?_⟩
  · intro S
    exact not_covered_of_hits (mem_append_right _ (mem_cons_of_mem _ mem_cons_self))
      selectCountPhase_hits (not_inBounds_of_neg (by decide))
  · rw [select_covered_iff (by decide) (by decide) (by decide) (by decide) (by decide) (by decide),
      SelectFits, hdepth]
    decide
  · rw [reduceByKeyAdd_covered_iff wordOps (by decide) (by decide) (by decide) (by decide)
      (by decide) (by decide), KeyFits, hdepth]
    decide

end Quadrants.Algorithms
