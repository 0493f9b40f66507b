import Quadrants.Algorithms.PhaseSpecs

namespace Quadrants.Algorithms

open Quadrants.Library.Grid
open Quadrants.Library.SegmentFold

def partials (n : ℕ) : ℕ → ℕ
  | 0 => 0
  | levels + 1 => hostBlockCount n + partials (hostBlockCount n) levels

theorem hostBlockCount_le (n : ℕ) : hostBlockCount n ≤ n := by
  simp only [hostBlockCount, BLOCK_DIM]
  omega

theorem partials_le (n levels : ℕ) : partials n levels ≤ hostBlockCount n * levels := by
  induction levels generalizing n with
  | zero => exact Nat.zero_le _
  | succ levels ih =>
    have hle := Nat.mul_le_mul_right levels (hostBlockCount_le (hostBlockCount n))
    have := ih (hostBlockCount n)
    rw [partials, Nat.mul_succ]
    omega

variable {β : Type} {τ : β → Type} {α : Type} (o : BinOp α)

variable {B cursor i n off srcOff : ℕ} {dst out scratch src : View τ α}

theorem segment_eq_of_frame {lo len : ℕ} {d d' : Device τ}
    (h : Frame dst lo len d d') (hapart : Apart src dst off n lo len) :
    segment o src d'.mem off n = segment o src d.mem off n := by
  funext i
  simp only [segment, BinOp.pad]
  split_ifs with hi
  · rw [View.get, View.get, h]
    intro hbuf
    have := hapart hbuf
    omega
  · rfl

theorem fold_aggregates {part : View τ α} {m : Memory τ} {f : ℕ → α} {partOff : ℕ}
    (h : ∀ b < B, part.get m (partOff + b : ℕ) = o.fold f (b * BLOCK_DIM) BLOCK_DIM)
    {b : ℕ} (hb : b ≤ B) :
    o.fold (fun j => part.get m (partOff + j : ℕ)) 0 b = o.fold f 0 (b * BLOCK_DIM) := by
  rw [← fold_tiles]
  apply fold_congr
  intro i hi
  simp only [Nat.zero_add]
  exact h i (by omega)

theorem scanDownsweepPhase_scan [DecidableEq β] {prefixes : View τ α} {prefixesOff dstOff : ℕ}
    (d : Device τ) (hsrc : srcOff + n ≤ 2 ^ 31) (hprefixes : prefixesOff + B ≤ 2 ^ 31)
    (hdst : dstOff + n ≤ 2 ^ 31) (hin : src.buffer = dst.buffer → srcOff = dstOff)
    (hapart : Apart prefixes dst prefixesOff B dstOff n) (hn : n ≤ B * BLOCK_DIM)
    (hscanned : ∀ b < B, prefixes.get d.mem (prefixesOff + b : ℕ) =
      o.fold (segment o src d.mem srcOff n) 0 (b * BLOCK_DIM)) (hi : i < n) :
    dst.get ((scanDownsweepPhase o src prefixes dst srcOff prefixesOff dstOff n
        (B * BLOCK_DIM : ℕ)).run d).mem (dstOff + i : ℕ) =
      o.fold (fun j => src.get d.mem (srcOff + j : ℕ)) 0 i := by
  have hblock : i / BLOCK_DIM < B := Nat.div_lt_of_lt_mul (by rw [Nat.mul_comm]; omega)
  have hadd := fold_add o (segment o src d.mem srcOff n) 0 (i / BLOCK_DIM * BLOCK_DIM) (i % BLOCK_DIM)
  rw [Nat.zero_add, Nat.div_add_mod' i BLOCK_DIM] at hadd
  rw [scanDownsweepPhase_get o d hsrc hprefixes hdst hin hapart hn hi, hscanned _ hblock, ← hadd]
  exact fold_pad_of_le o _ (by omega)

theorem emitScanInplace_succ (buf : View τ α) (levels : ℕ)
    (h : off + n + partials n (levels + 1) < 2 ^ 31) : emitScanInplace o buf off n (levels + 1) =
      reducePhase o buf buf off (off + n : ℕ) n (hostBlockCount n * BLOCK_DIM : ℕ) ::
        (emitScanInplace o buf (off + n : ℕ) (hostBlockCount n : ℕ) levels ++
          [scanDownsweepPhase o buf buf buf off (off + n : ℕ) off n
            (hostBlockCount n * BLOCK_DIM : ℕ)]) := by
  have hn : n + 255 < 2 ^ 31 := by
    simp only [partials, hostBlockCount, BLOCK_DIM] at h
    omega
  rw [emitScanInplace, totalThreads_eq hn, blockCount_eq hn, i32_add (by omega)]

theorem emitScanInplace_spec [DecidableEq β] (buf : View τ α) (levels : ℕ) (d : Device τ)
    (hn : n ≤ BLOCK_DIM ^ (levels + 1)) (h : off + n + partials n levels < 2 ^ 31) :
    (∀ i < n, buf.get (runAll (emitScanInplace o buf off n levels) d).mem (off + i : ℕ) =
      o.fold (fun j => buf.get d.mem (off + j : ℕ)) 0 i) ∧
    Frame buf off (n + partials n levels) d (runAll (emitScanInplace o buf off n levels) d) := by
  induction levels generalizing off n d with
  | zero =>
    have hn' : n ≤ BLOCK_DIM := by simpa using hn
    refine ⟨?_, ?_⟩
    · intro i hi
      have htile : buf.get ((scanTilePhase o buf buf off off n).run d).mem (off + i : ℕ) =
          o.fold (segment o buf d.mem off n) 0 i :=
        scanTilePhase_get o d hn' (by omega) (by omega) hi
      exact htile.trans (fold_pad_of_le o _ (by omega))
    · exact scanTilePhase_frame o d (by omega)
  | succ levels ih =>
    rw [emitScanInplace_succ o buf levels h]
    rw [partials] at h
    simp only [runAll_cons, runAll_append, runAll_nil]
    have hpart : Apart buf buf off n (off + n) (hostBlockCount n) := fun _ => Or.inl le_rfl
    have hapart : Apart buf buf (off + n) (hostBlockCount n) off n := fun _ => Or.inr le_rfl
    -- the tile aggregates, then their scan; the elements below stay untouched
    generalize hd1 : (reducePhase o buf buf off (off + n : ℕ) n
      (hostBlockCount n * BLOCK_DIM : ℕ)).run d = d1
    have hreduce : ∀ b < hostBlockCount n, buf.get d1.mem (off + n + b : ℕ) =
        o.fold (segment o buf d.mem off n) (b * BLOCK_DIM) BLOCK_DIM := by
      intro b hb
      rw [← hd1]
      exact reducePhase_get o d (by omega) (by omega) hpart hb
    have hframe1 : Frame buf (off + n) (hostBlockCount n) d d1 := by
      rw [← hd1]
      exact reducePhase_frame o d (by omega) (by omega) hpart
    have hinner : off + n + hostBlockCount n + partials (hostBlockCount n) levels < 2 ^ 31 := by
      omega
    obtain ⟨hscan, hframe2⟩ := ih d1 (hostBlockCount_le_pow hn) hinner
    generalize hd2 : runAll (emitScanInplace o buf (off + n : ℕ) (hostBlockCount n : ℕ) levels) d1
      = d2 at hscan hframe2 ⊢
    have hsegment : segment o buf d2.mem off n = segment o buf d.mem off n := by
      rw [segment_eq_of_frame o hframe2 fun _ => Or.inl le_rfl, segment_eq_of_frame o hframe1 hpart]
    have hscanned : ∀ b < hostBlockCount n, buf.get d2.mem (off + n + b : ℕ) =
        o.fold (segment o buf d2.mem off n) 0 (b * BLOCK_DIM) := by
      intro b hb
      rw [hscan b hb, fold_aggregates o hreduce hb.le, hsegment]
    refine ⟨?_, ?_⟩
    · intro i hi
      rw [scanDownsweepPhase_scan o d2 (by omega) (by omega) (by omega) (fun _ => rfl) hapart
        (le_hostBlockCount_mul n) hscanned hi]
      have hlive : ∀ e : Device τ, o.fold (fun j => buf.get e.mem (off + j : ℕ)) 0 i =
          o.fold (segment o buf e.mem off n) 0 i :=
        fun e => (fold_pad_of_le o _ (by omega)).symm
      rw [hlive d2, hlive d, hsegment]
    · intro b i hi
      have hframe3 : Frame buf off n d2 ((scanDownsweepPhase o buf buf buf off (off + n : ℕ) off n
          (hostBlockCount n * BLOCK_DIM : ℕ)).run d2) :=
        scanDownsweepPhase_frame o d2 (by omega) (by omega) (by omega) (fun _ => rfl) hapart
      rw [partials] at hi
      rw [hframe3 b i, hframe2 b i, hframe1 b i]
      · intro hb
        have := hi hb
        omega
      · intro hb
        have := hi hb
        omega
      · intro hb
        have := hi hb
        omega

theorem emitReduceRec_succ (src scratch out : View τ α) (phases : ℕ)
    (hn : n + 255 < 2 ^ 31) (h : cursor + partials n (phases + 1) < 2 ^ 31) :
    emitReduceRec o src scratch out srcOff cursor n (phases + 1) =
      reducePhase o src scratch srcOff cursor n (hostBlockCount n * BLOCK_DIM : ℕ) ::
        emitReduceRec o scratch scratch out cursor (cursor + hostBlockCount n : ℕ)
          (hostBlockCount n : ℕ) phases := by
  rw [partials] at h
  rw [emitReduceRec, totalThreads_eq hn, blockCount_eq hn, i32_add (by omega)]

theorem emitReduceRec_spec [DecidableEq β] (hscratch : scratch.buffer ≠ out.buffer)
    (hout : src.buffer ≠ out.buffer) (phases : ℕ) (d : Device τ)
    (hn : n ≤ BLOCK_DIM ^ (phases + 1)) (hsrc : srcOff + n ≤ 2 ^ 31) (h31 : n + 255 < 2 ^ 31)
    (h : cursor + partials n phases < 2 ^ 31)
    (hapart : src.buffer = scratch.buffer → srcOff + n ≤ cursor) :
    out.get (runAll (emitReduceRec o src scratch out srcOff cursor n phases) d).mem 0 =
      o.fold (fun j => src.get d.mem (srcOff + j : ℕ)) 0 n := by
  induction phases generalizing src srcOff cursor n d with
  | zero =>
    have hn' : n ≤ BLOCK_DIM := by simpa using hn
    have hlast : out.get ((reducePhase o src out srcOff (0 : ℕ) n (1 * BLOCK_DIM : ℕ)).run d).mem
        (0 + 0 : ℕ) = o.fold (segment o src d.mem srcOff n) (0 * BLOCK_DIM) BLOCK_DIM :=
      reducePhase_get o d hsrc (by omega) (fun hbuf => absurd hbuf hout) (by omega)
    obtain ⟨k, hk⟩ := Nat.exists_eq_add_of_le hn'
    have hpad : o.fold (segment o src d.mem srcOff n) 0 BLOCK_DIM =
        o.fold (fun j => src.get d.mem (srcOff + j : ℕ)) 0 n := by
      rw [hk]
      exact fold_pad_add o _ n k
    exact hlast.trans hpad
  | succ phases ih =>
    rw [emitReduceRec_succ o src scratch out phases h31 h]
    rw [partials] at h
    have hpart : Apart src scratch srcOff n cursor (hostBlockCount n) :=
      fun hbuf => Or.inl (hapart hbuf)
    rw [runAll_cons]
    generalize hd1 : (reducePhase o src scratch srcOff cursor n
      (hostBlockCount n * BLOCK_DIM : ℕ)).run d = d1
    have hreduce : ∀ b < hostBlockCount n, scratch.get d1.mem (cursor + b : ℕ) =
        o.fold (segment o src d.mem srcOff n) (b * BLOCK_DIM) BLOCK_DIM := by
      intro b hb
      rw [← hd1]
      exact reducePhase_get o d hsrc (by omega) hpart hb
    have hle := hostBlockCount_le n
    rw [ih hscratch d1 (hostBlockCount_le_pow hn) (by omega) (by omega) (by omega)
      (fun _ => le_rfl), fold_aggregates o hreduce le_rfl]
    obtain ⟨k, hk⟩ := Nat.exists_eq_add_of_le (le_hostBlockCount_mul n)
    rw [hk]
    exact fold_pad_add o _ n k

theorem emitScan_spec [DecidableEq β] {arr : View τ α} (hscratch : arr.buffer ≠ scratch.buffer)
    (hout : arr.buffer ≠ out.buffer) (hout' : scratch.buffer ≠ out.buffer) {levels : ℕ}
    (d : Device τ) (hn : n ≤ BLOCK_DIM ^ (levels + 2)) (h31 : n + 255 < 2 ^ 31)
    (h : partials n (levels + 1) < 2 ^ 31) (hi : i < n) :
    out.get (runAll (reducePhase o arr scratch 0 0 n (i32 (blockCount n * BLOCK_DIM)) ::
        (emitScanInplace o scratch 0 (blockCount n) levels ++
          [scanDownsweepPhase o arr scratch out 0 0 0 n (i32 (blockCount n * BLOCK_DIM))])) d).mem i =
      o.fold (fun j => arr.get d.mem j) 0 i := by
  rw [totalThreads_eq h31, blockCount_eq h31]
  rw [partials] at h
  simp only [runAll_cons, runAll_append, runAll_nil]
  have hpart : Apart arr scratch 0 n 0 (hostBlockCount n) := fun hbuf => absurd hbuf hscratch
  generalize hd1 : (reducePhase o arr scratch (0 : ℕ) (0 : ℕ) n
    (hostBlockCount n * BLOCK_DIM : ℕ)).run d = d1
  have hreduce : ∀ b < hostBlockCount n, scratch.get d1.mem (0 + b : ℕ) =
      o.fold (segment o arr d.mem 0 n) (b * BLOCK_DIM) BLOCK_DIM := by
    intro b hb
    rw [← hd1]
    exact reducePhase_get o d (by omega) (by omega) hpart hb
  have hframe1 : Frame scratch 0 (hostBlockCount n) d d1 := by
    rw [← hd1]
    exact reducePhase_frame o d (by omega) (by omega) hpart
  have hinner : 0 + hostBlockCount n + partials (hostBlockCount n) levels < 2 ^ 31 := by omega
  obtain ⟨hscan, hframe2⟩ := emitScanInplace_spec o scratch levels d1 (hostBlockCount_le_pow hn)
    hinner
  generalize hd2 : runAll (emitScanInplace o scratch (0 : ℕ) (hostBlockCount n : ℕ) levels) d1 = d2
    at hscan hframe2 ⊢
  have hsegment : segment o arr d2.mem 0 n = segment o arr d.mem 0 n := by
    rw [segment_eq_of_frame o hframe2 fun hbuf => absurd hbuf hscratch,
      segment_eq_of_frame o hframe1 hpart]
  have hscanned : ∀ b < hostBlockCount n, scratch.get d2.mem (0 + b : ℕ) =
      o.fold (segment o arr d2.mem 0 n) 0 (b * BLOCK_DIM) := by
    intro b hb
    rw [hscan b hb, fold_aggregates o hreduce hb.le, hsegment]
  have hdown : out.get ((scanDownsweepPhase o arr scratch out (0 : ℕ) (0 : ℕ) (0 : ℕ) n
      (hostBlockCount n * BLOCK_DIM : ℕ)).run d2).mem (0 + i : ℕ) =
        o.fold (fun j => arr.get d2.mem (0 + j : ℕ)) 0 i :=
    scanDownsweepPhase_scan o d2 (by omega) (by omega) (by omega) (fun hbuf => absurd hbuf hout)
      (fun hbuf => absurd hbuf hout') (le_hostBlockCount_mul n) hscanned hi
  simp only [Nat.zero_add] at hdown
  refine hdown.trans ?_
  have hlive : ∀ e : Device τ, o.fold (fun j => arr.get e.mem (j : ℕ)) 0 i =
      o.fold (segment o arr e.mem 0 n) 0 i := by
    intro e
    apply fold_congr
    intro j hj
    simp only [segment, BinOp.pad, Nat.zero_add]
    rw [if_pos (by omega)]
  rw [hlive d2, hlive d, hsegment]

section operations

variable {W : Type} (bits : α ≃ W)

theorem arrView_ne_scratchView :
    (arrView : View (Tensor.Cell α W) α).buffer ≠ (scratchView bits).buffer :=
  show Tensor.arr ≠ Tensor.scratch from nofun

theorem arrView_ne_outView :
    (arrView : View (Tensor.Cell α W) α).buffer ≠ (outView : View (Tensor.Cell α W) α).buffer :=
  show Tensor.arr ≠ Tensor.out from nofun

theorem scratchView_ne_outView :
    (scratchView bits).buffer ≠ (outView : View (Tensor.Cell α W) α).buffer :=
  show Tensor.scratch ≠ Tensor.out from nofun

variable {D n : ℕ}

theorem validateLog256MaxN_of_le (h : D ≤ MAX_LOG256_MAX_N) : validateLog256MaxN D = .ok () :=
  if_neg (Nat.not_lt.mpr h)

theorem partials_lt {levels : ℕ} (hn : n + 255 < 2 ^ 31) (hlevels : levels ≤ 3) :
    partials n levels < 2 ^ 31 := by
  have hle := partials_le n levels
  have hmul := Nat.mul_le_mul_left (hostBlockCount n) hlevels
  have hB : hostBlockCount n ≤ 2 ^ 23 := by
    simp only [hostBlockCount, BLOCK_DIM]
    omega
  omega

theorem exclusiveScan_spec (hD : 1 ≤ D) (hmax : D ≤ MAX_LOG256_MAX_N)
    (hn : n ≤ BLOCK_DIM ^ D) (h31 : n + 255 < 2 ^ 31) :
    ∃ ls, exclusiveScan o bits n D = .ok ls ∧ ∀ d, ∀ i < n,
      outView.get (runAll ls d).mem i = o.fold (fun j => arrView.get d.mem j) 0 i := by
  simp only [exclusiveScan, emitScan, validateLog256MaxN_of_le hmax]
  match D, hD with
  | 1, _ =>
    refine ⟨_, rfl, ?_⟩
    intro d i hi
    have htile : outView.get ((scanTilePhase o arrView outView (0 : ℕ) (0 : ℕ) n).run d).mem
        (0 + i : ℕ) = o.fold (segment o arrView d.mem 0 n) 0 i :=
      scanTilePhase_get o d (by simpa using hn) (by omega) (by omega) hi
    rw [Nat.zero_add] at htile
    refine htile.trans ((fold_pad_of_le o _ (by omega)).trans ?_)
    simp
  | levels + 2, _ =>
    have hlevels : levels + 1 ≤ 3 := by
      simp only [MAX_LOG256_MAX_N] at hmax
      omega
    refine ⟨_, rfl, ?_⟩
    intro d i hi
    exact emitScan_spec o (arrView_ne_scratchView bits) arrView_ne_outView
      (scratchView_ne_outView bits) d hn h31 (partials_lt h31 hlevels) hi

theorem reduce_spec (hD : 1 ≤ D) (hmax : D ≤ MAX_LOG256_MAX_N)
    (hn : n ≤ BLOCK_DIM ^ D) (h31 : n + 255 < 2 ^ 31) : ∃ ls, reduce o bits n D = .ok ls ∧ ∀ d,
      outView.get (runAll ls d).mem 0 = o.fold (fun j => arrView.get d.mem j) 0 n := by
  simp only [reduce, emitReduce, validateLog256MaxN_of_le hmax]
  match D, hD with
  | phases + 1, _ =>
    have hphases : phases ≤ 3 := by
      simp only [MAX_LOG256_MAX_N] at hmax
      omega
    refine ⟨_, rfl, ?_⟩
    intro d
    have hpartials := partials_lt h31 hphases
    have hrec : outView.get (runAll (emitReduceRec o arrView (scratchView bits) outView
        (0 : ℕ) (0 : ℕ) n phases) d).mem 0 = o.fold (fun j => arrView.get d.mem (0 + j : ℕ)) 0 n :=
      emitReduceRec_spec o (scratchView_ne_outView bits) arrView_ne_outView phases d hn (by omega)
        h31 (by omega) fun hbuf => absurd hbuf (arrView_ne_scratchView bits)
    simp only [Nat.zero_add] at hrec
    exact hrec

/-- Reduce and scan compute the sequential fold and scan at every depth they accept, and the scan
in place does so for a buffer that holds its partials. -/
theorem staircase_eq_sequential (n D : ℕ) (hD : 1 ≤ D) (hmax : D ≤ MAX_LOG256_MAX_N)
    (hn : n ≤ BLOCK_DIM ^ D) (h31 : n ≤ 2 ^ 31 - BLOCK_DIM) :
    (∃ ls, exclusiveScan o bits n D = .ok ls ∧ ∀ d, ∀ i < n,
      outView.get (runAll ls d).mem i = o.fold (fun j => arrView.get d.mem j) 0 i) ∧
    (∃ ls, reduce o bits n D = .ok ls ∧ ∀ d,
      outView.get (runAll ls d).mem 0 = o.fold (fun j => arrView.get d.mem j) 0 n) ∧
    (∀ levels off m : ℕ, m ≤ BLOCK_DIM ^ (levels + 1) → off + m + partials m levels < 2 ^ 31 →
      ∀ d, ∀ i < m, (scratchView bits).get
          (runAll (emitScanInplace o (scratchView bits) off m levels) d).mem (off + i : ℕ) =
        o.fold (fun j => (scratchView bits).get d.mem (off + j : ℕ)) 0 i) := by
  have h31' : n + 255 < 2 ^ 31 := by
    simp only [BLOCK_DIM] at h31
    omega
  refine ⟨exclusiveScan_spec o bits hD hmax hn h31', reduce_spec o bits hD hmax hn h31', ?_⟩
  intro levels off m hm h d
  exact (emitScanInplace_spec o (scratchView bits) levels d hm h).1

end operations

def deviceOf (f : ℤ → BitVec 32) : Device (Tensor.Cell (BitVec 32) (BitVec 32)) where
  mem
    | .arr => f
    | .out => fun _ => 0#32
    | .scratch => fun _ => 0#32
  log := []

theorem staircase_eq_sequential_three :
    (∃ ls, exclusiveScan (opBins .u32 .add) (Equiv.refl _) (3 : ℕ) 2 = .ok ls ∧ ∀ d, ∀ i : ℕ, i < 3 →
      outView.get (runAll ls d).mem i =
        (opBins .u32 .add).fold (fun j => arrView.get d.mem j) 0 i) ∧
    (∃ ls, reduce (opBins .u32 .add) (Equiv.refl _) (3 : ℕ) 2 = .ok ls ∧ ∀ d,
      outView.get (runAll ls d).mem 0 = (opBins .u32 .add).fold (fun j => arrView.get d.mem j) 0 3) :=
  have h := staircase_eq_sequential (opBins .u32 .add) (Equiv.refl (BitVec 32)) 3 2 (by decide)
    (by decide) (by decide) (by decide)
  ⟨h.1, h.2.1⟩

theorem fold_ones (n : ℕ) : (opBins .u32 .add).fold (fun _ => 1#32) 0 n = BitVec.ofNat 32 n := by
  induction n with
  | zero => rfl
  | succ n ih =>
    have hstep : (opBins .u32 .add).fold (fun _ => 1#32) 0 (n + 1) =
        BitVec.add ((opBins .u32 .add).fold (fun _ => 1#32) 0 n) 1#32 := rfl
    rw [hstep, ih]
    exact (BitVec.ofNat_add n 1).symm

/-- A depth above the maximum is rejected; and from `2 ^ 31 - 255` elements on the block count
overflows, no partials are written and the reduce returns the identity. -/
theorem staircase_ne_sequential :
    (∃ e, exclusiveScan (opBins .u32 .add) (Equiv.refl _) (1 : ℕ) 5 = .error e) ∧
    (∃ ls, reduce (opBins .u32 .add) (Equiv.refl _) ((2 ^ 31 - 255 : ℕ) : ℤ) 4 = .ok ls ∧
      outView.get (runAll ls (deviceOf fun _ => 1#32)).mem 0 ≠
        (opBins .u32 .add).fold (fun j => arrView.get (deviceOf fun _ => 1#32).mem j) 0
          (2 ^ 31 - 255)) := by
  refine ⟨⟨_, rfl⟩, _, rfl, ?_⟩
  have hfold : (opBins .u32 .add).fold (fun j => arrView.get (deviceOf fun _ => 1#32).mem j) 0
      (2 ^ 31 - 255) = BitVec.ofNat 32 (2 ^ 31 - 255) := fold_ones _
  rw [hfold]
  apply @ne_of_apply_ne (BitVec 32) _ BitVec.toNat
  decide +kernel

end Quadrants.Algorithms
