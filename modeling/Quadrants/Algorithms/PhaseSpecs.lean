import Quadrants.Algorithms.Staircase

namespace Quadrants.Algorithms

open Quadrants.Library.Grid
open Quadrants.Library.SegmentFold

section exactArithmetic

theorem i32_of_lt {x : ℤ} (h0 : 0 ≤ x) (h : x < 2 ^ 31) : i32 x = x := by
  apply Int.bmod_eq_of_le
  · omega
  · omega

variable {n x : ℕ}

theorem i32_natCast (h : x < 2 ^ 31) : i32 (x : ℤ) = x :=
  i32_of_lt (Int.natCast_nonneg x) (by exact_mod_cast h)

theorem toInt_ofNat_of_lt (h : x < 2 ^ 31) : (BitVec.ofNat 32 x).toInt = x := by
  rw [BitVec.toInt_eq_toNat_bmod, BitVec.toNat_ofNat, Nat.mod_eq_of_lt (by omega)]
  exact i32_natCast h

theorem i32_add {y : ℕ} (h : x + y < 2 ^ 31) : i32 ((x : ℤ) + y) = (x + y : ℕ) := by
  rw [← Int.natCast_add, i32_natCast h]

theorem lane_natCast (b tid : ℕ) : (b : ℤ) * BLOCK_DIM + tid = (b * BLOCK_DIM + tid : ℕ) := by
  rfl

theorem blockCount_eq (h : n + 255 < 2 ^ 31) : blockCount n = hostBlockCount n := by
  have hsum : i32 ((n : ℤ) + (BLOCK_DIM - 1)) = n + (BLOCK_DIM - 1) := by
    apply i32_of_lt <;> simp only [BLOCK_DIM] <;> omega
  rw [blockCount, hsum, hostBlockCount]
  simp only [BLOCK_DIM]
  omega

theorem totalThreads_eq (h : n + 255 < 2 ^ 31) :
    i32 (blockCount n * BLOCK_DIM) = (hostBlockCount n * BLOCK_DIM : ℕ) := by
  rw [blockCount_eq h, ← Int.natCast_mul]
  apply i32_of_lt
  · omega
  · simp only [hostBlockCount, BLOCK_DIM]
    omega

theorem le_hostBlockCount_mul (n : ℕ) : n ≤ hostBlockCount n * BLOCK_DIM := by
  simp only [hostBlockCount, BLOCK_DIM]
  omega

theorem hostBlockCount_le_pow {k : ℕ} (h : n ≤ BLOCK_DIM ^ (k + 1)) :
    hostBlockCount n ≤ BLOCK_DIM ^ k := by
  rw [hostBlockCount]
  simp only [BLOCK_DIM] at *
  omega

end exactArithmetic

variable {β : Type} {τ : β → Type} {α : Type} (o : BinOp α)

def segment (src : View τ α) (m : Memory τ) (off n : ℕ) : ℕ → α :=
  o.pad (fun i => src.get m ((off + i : ℕ) : ℤ)) n

variable {b n off : ℕ}

variable (src : View τ α)

theorem loadLane_of_lt (m : Memory τ) {tid : Fin BLOCK_DIM}
    (h : off + n ≤ 2 ^ 31) (hi : b * BLOCK_DIM + tid < n) : loadLane o src off n b tid m =
      (src.get m (off + (b * BLOCK_DIM + tid) : ℕ),
        [(src.buffer, ((off + (b * BLOCK_DIM + tid) : ℕ) : ℤ))]) := by
  simp only [loadLane, lane_natCast, Int.ofNat_lt, if_pos hi, View.load_apply]
  rw [i32_add (by omega)]

theorem loadLane_of_le (m : Memory τ) {tid : Fin BLOCK_DIM}
    (hi : n ≤ b * BLOCK_DIM + tid) : loadLane o src off n b tid m = (o.ident, []) := by
  simp only [loadLane, lane_natCast, Int.ofNat_lt, if_neg (Nat.not_lt.mpr hi), Fetch.pure_apply]

theorem loadLane_fst (m : Memory τ) (h : off + n ≤ 2 ^ 31) (b : ℕ) (tid : Fin BLOCK_DIM) :
    (loadLane o src off n b tid m).1 = segment o src m off n (b * BLOCK_DIM + tid) := by
  rcases Nat.lt_or_ge (b * BLOCK_DIM + tid) n with hi | hi
  · rw [loadLane_of_lt o src m h hi, segment, BinOp.pad, if_pos hi]
  · rw [loadLane_of_le o src m hi, segment, BinOp.pad, if_neg (Nat.not_lt.mpr hi)]

theorem lanes_loadLane_congr {m m' : Memory τ} (h : off + n ≤ 2 ^ 31)
    (hm : ∀ tid < BLOCK_DIM, b * BLOCK_DIM + tid < n →
      m' src.buffer (off + (b * BLOCK_DIM + tid) : ℕ) =
        m src.buffer (off + (b * BLOCK_DIM + tid) : ℕ)) :
    Fetch.lanes BLOCK_DIM (loadLane o src off n b) m' =
      Fetch.lanes BLOCK_DIM (loadLane o src off n b) m := by
  have hlane : ∀ tid, loadLane o src off n b tid m' = loadLane o src off n b tid m := by
    intro tid
    rcases Nat.lt_or_ge (b * BLOCK_DIM + tid) n with hi | hi
    · rw [loadLane_of_lt o src m h hi, loadLane_of_lt o src m' h hi, View.get, View.get,
        hm tid tid.isLt hi]
    · rw [loadLane_of_le o src m hi, loadLane_of_le o src m' hi]
  simp [hlane]

theorem fold_ofLanes_loadLane (m : Memory τ) (h : off + n ≤ 2 ^ 31)
    (b : ℕ) {k : ℕ} (hk : k ≤ BLOCK_DIM) :
    o.fold (o.ofLanes fun tid => (loadLane o src off n b tid m).1) 0 k =
      o.fold (segment o src m off n) (b * BLOCK_DIM) k := by
  apply fold_congr
  intro t ht
  rw [Nat.zero_add, ofLanes_of_lt o _ (Nat.lt_of_lt_of_le ht hk), loadLane_fst o src m h]

theorem mem_storeLanes {dst : View τ α} (h : off + n ≤ 2 ^ 31)
    {x : Fin BLOCK_DIM → α} {w : Write τ} : w ∈ storeLanes dst off n b x ↔
      ∃ tid : Fin BLOCK_DIM, b * BLOCK_DIM + tid < n ∧
        w = dst.store ((off + (b * BLOCK_DIM + tid) : ℕ) : ℤ) (x tid) := by
  simp only [storeLanes, List.mem_filterMap, List.mem_finRange, true_and, lane_natCast,
    Int.ofNat_lt]
  constructor
  · rintro ⟨tid, hw⟩
    split_ifs at hw with hi
    rw [i32_add (by omega)] at hw
    exact ⟨tid, hi, (Option.some.inj hw).symm⟩
  · rintro ⟨tid, hi, rfl⟩
    refine ⟨tid, ?_⟩
    rw [if_pos hi, i32_add (by omega)]

theorem writes_storeLanes [DecidableEq β] (dst : View τ α) (m : Memory τ) (h : off + n ≤ 2 ^ 31)
    (b : ℕ) (x : Fin BLOCK_DIM → α) (tid : Fin BLOCK_DIM) (hi : b * BLOCK_DIM + tid < n) :
    dst.get (m.writes (storeLanes dst off n b x)) (off + (b * BLOCK_DIM + tid) : ℕ) = x tid := by
  have hmem : dst.store ((off + (b * BLOCK_DIM + tid) : ℕ) : ℤ) (x tid) ∈ storeLanes dst off n b x :=
    (mem_storeLanes h).mpr ⟨tid, hi, rfl⟩
  have hvalue := Memory.writes_self m hmem ?_
  · exact (congrArg dst.decode hvalue).trans (dst.decode_encode _)
  · rintro w' hw' ⟨_, hindex⟩
    obtain ⟨tid', _, rfl⟩ := (mem_storeLanes h).mp hw'
    obtain rfl : tid' = tid := by
      simp only [View.store] at hindex
      omega
    rfl

def Frame (dst : View τ α) (lo len : ℕ) (d d' : Device τ) : Prop :=
  ∀ b (i : ℤ), (b = dst.buffer → i < lo ∨ (lo + len : ℕ) ≤ i) → d'.mem b i = d.mem b i

/-- The cells `src[lo : lo + len]` and `dst[lo' : lo' + len']` are different cells. -/
def Apart (src dst : View τ α) (lo len lo' len' : ℕ) : Prop :=
  src.buffer = dst.buffer → lo + len ≤ lo' ∨ lo' + len' ≤ lo

section reduce

variable {src dst : View τ α} {srcOff dstOff n B : ℕ}

theorem reducePhase_units :
    (reducePhase o src dst srcOff dstOff n (B * BLOCK_DIM : ℕ)).units = B := by
  exact Nat.mul_div_cancel B (by decide)

theorem reducePhase_writes (m : Memory τ) (hsrc : srcOff + n ≤ 2 ^ 31) (hdst : dstOff + B ≤ 2 ^ 31)
    {b : ℕ} (hb : b < B) :
    ((reducePhase o src dst srcOff dstOff n (B * BLOCK_DIM : ℕ)).body b m).1 =
      [dst.store ((dstOff + b : ℕ) : ℤ)
        (o.fold (segment o src m srcOff n) (b * BLOCK_DIM) BLOCK_DIM)] := by
  simp only [reducePhase, Fetch.bind_apply, Fetch.lanes_apply, Fetch.pure_apply, blockReduce,
    fold_ofLanes_loadLane o src m hsrc b le_rfl]
  rw [i32_add (by omega)]

theorem reducePhase_touches (m : Memory τ) (hsrc : srcOff + n ≤ 2 ^ 31)
    (hdst : dstOff + B ≤ 2 ^ 31) {u : ℕ} (hu : u < B) {b : β} {i : ℤ} :
    (reducePhase o src dst srcOff dstOff n (B * BLOCK_DIM : ℕ)).Touches m u b i ↔
      dst.buffer = b ∧ i = (dstOff + u : ℕ) := by
  rw [Launch.Touches, reducePhase_writes o m hsrc hdst hu]
  simp [Write.at, View.store, eq_comm]

theorem reducePhase_independent (m : Memory τ) (hsrc : srcOff + n ≤ 2 ^ 31)
    (hdst : dstOff + B ≤ 2 ^ 31) (hapart : Apart src dst srcOff n dstOff B) :
    (reducePhase o src dst srcOff dstOff n (B * BLOCK_DIM : ℕ)).Independent m := by
  constructor
  · intro u _ m' hm
    have hlanes : Fetch.lanes BLOCK_DIM (loadLane o src srcOff n u) m' =
        Fetch.lanes BLOCK_DIM (loadLane o src srcOff n u) m := by
      apply lanes_loadLane_congr o src hsrc
      intro tid _ hin
      apply hm
      intro v hv _ ht
      rw [reducePhase_units] at hv
      obtain ⟨hbuf, hcell⟩ := (reducePhase_touches o m hsrc hdst hv).mp ht
      have := hapart hbuf.symm
      omega
    simp only [reducePhase, Fetch.bind_apply, hlanes, Fetch.pure_apply]
  · intro u hu v hv b i htu htv
    rw [reducePhase_units] at hu hv
    have h1 := (reducePhase_touches o m hsrc hdst hu).mp htu
    have h2 := (reducePhase_touches o m hsrc hdst hv).mp htv
    omega

theorem reducePhase_get [DecidableEq β] (d : Device τ) (hsrc : srcOff + n ≤ 2 ^ 31)
    (hdst : dstOff + B ≤ 2 ^ 31) (hapart : Apart src dst srcOff n dstOff B) {b : ℕ} (hb : b < B) :
    dst.get ((reducePhase o src dst srcOff dstOff n (B * BLOCK_DIM : ℕ)).run d).mem
        (dstOff + b : ℕ) =
      o.fold (segment o src d.mem srcOff n) (b * BLOCK_DIM) BLOCK_DIM := by
  have hdone := (reducePhase_independent o d.mem hsrc hdst hapart).done
  rw [reducePhase_units] at hdone
  have htouch := hdone.touched b hb dst.buffer (dstOff + b : ℕ)
    ((reducePhase_touches o d.mem hsrc hdst hb).mpr ⟨rfl, rfl⟩)
  rw [View.get, htouch, reducePhase_writes o d.mem hsrc hdst hb]
  have hself := Memory.write_self d.mem (dst.store ((dstOff + b : ℕ) : ℤ)
    (o.fold (segment o src d.mem srcOff n) (b * BLOCK_DIM) BLOCK_DIM))
  exact (congrArg dst.decode hself).trans (dst.decode_encode _)

theorem reducePhase_frame [DecidableEq β] (d : Device τ) (hsrc : srcOff + n ≤ 2 ^ 31)
    (hdst : dstOff + B ≤ 2 ^ 31) (hapart : Apart src dst srcOff n dstOff B) : Frame dst dstOff B d
      ((reducePhase o src dst srcOff dstOff n (B * BLOCK_DIM : ℕ)).run d) := by
  intro b i hi
  apply (reducePhase_independent o d.mem hsrc hdst hapart).done.untouched
  intro u hu ht
  rw [reducePhase_units] at hu
  obtain ⟨hbuf, hcell⟩ := (reducePhase_touches o d.mem hsrc hdst hu).mp ht
  have := hi hbuf.symm
  omega

end reduce

section scanTile

variable {src dst : View τ α} {srcOff dstOff n : ℕ}

theorem scanTilePhase_get [DecidableEq β] (d : Device τ) (hn : n ≤ BLOCK_DIM)
    (hsrc : srcOff + n ≤ 2 ^ 31) (hdst : dstOff + n ≤ 2 ^ 31) {i : ℕ} (hi : i < n) :
    dst.get ((scanTilePhase o src dst srcOff dstOff n).run d).mem (dstOff + i : ℕ) =
      o.fold (segment o src d.mem srcOff n) 0 i := by
  have hcell := writes_storeLanes dst d.mem hdst 0
    (blockExclusiveScan o fun tid => (loadLane o src srcOff n 0 tid d.mem).1) ⟨i, by omega⟩
    (by simpa using hi)
  rw [blockExclusiveScan, fold_ofLanes_loadLane o src d.mem hsrc 0 (by omega), Nat.zero_mul,
    Nat.zero_add] at hcell
  exact hcell

theorem scanTilePhase_frame [DecidableEq β] (d : Device τ) (hdst : dstOff + n ≤ 2 ^ 31) :
    Frame dst dstOff n d ((scanTilePhase o src dst srcOff dstOff n).run d) := by
  intro b i hi
  apply Memory.writes_other
  rintro w hw ⟨hbuf, hindex⟩
  obtain ⟨tid, hlt, rfl⟩ := (mem_storeLanes hdst).mp hw
  have := hi hbuf.symm
  simp only [View.store] at hindex
  omega

end scanTile

section downsweep

variable {src prefixes dst : View τ α} {srcOff prefixesOff dstOff n B : ℕ}

theorem scanDownsweepPhase_units :
    (scanDownsweepPhase o src prefixes dst srcOff prefixesOff dstOff n (B * BLOCK_DIM : ℕ)).units
      = B := by
  exact Nat.mul_div_cancel B (by decide)

theorem scanDownsweepPhase_touches (m : Memory τ) (hdst : dstOff + n ≤ 2 ^ 31) {u : ℕ} {b : β}
    {i : ℤ} : (scanDownsweepPhase o src prefixes dst srcOff prefixesOff dstOff n
        (B * BLOCK_DIM : ℕ)).Touches m u b i ↔
      dst.buffer = b ∧ ∃ tid < BLOCK_DIM, u * BLOCK_DIM + tid < n ∧
        i = (dstOff + (u * BLOCK_DIM + tid) : ℕ) := by
  simp only [Launch.Touches, scanDownsweepPhase, Fetch.bind_apply, Fetch.pure_apply, Write.at]
  constructor
  · rintro ⟨w, hw, hbuf, hindex⟩
    obtain ⟨tid, hlt, rfl⟩ := (mem_storeLanes hdst).mp hw
    exact ⟨hbuf, tid, tid.isLt, hlt, hindex.symm⟩
  · rintro ⟨hbuf, tid, htid, hlt, rfl⟩
    exact ⟨_, (mem_storeLanes hdst).mpr ⟨⟨tid, htid⟩, hlt, rfl⟩, hbuf, rfl⟩

theorem scanDownsweepPhase_writes (m : Memory τ) (hsrc : srcOff + n ≤ 2 ^ 31) {u : ℕ}
    (hpre : prefixesOff + u < 2 ^ 31) :
    ((scanDownsweepPhase o src prefixes dst srcOff prefixesOff dstOff n
        (B * BLOCK_DIM : ℕ)).body u m).1 =
      storeLanes dst dstOff n u fun tid => o.op (prefixes.get m (prefixesOff + u : ℕ))
        (o.fold (segment o src m srcOff n) (u * BLOCK_DIM) tid) := by
  simp only [scanDownsweepPhase, Fetch.bind_apply, Fetch.lanes_apply, Fetch.pure_apply,
    View.load_apply, i32_add hpre, blockExclusiveScan]
  congr 1
  funext tid
  rw [fold_ofLanes_loadLane o src m hsrc u tid.isLt.le]

theorem scanDownsweepPhase_independent (m : Memory τ) (hsrc : srcOff + n ≤ 2 ^ 31)
    (hprefixes : prefixesOff + B ≤ 2 ^ 31) (hdst : dstOff + n ≤ 2 ^ 31)
    (hin : src.buffer = dst.buffer → srcOff = dstOff)
    (hapart : Apart prefixes dst prefixesOff B dstOff n) :
    (scanDownsweepPhase o src prefixes dst srcOff prefixesOff dstOff n
      (B * BLOCK_DIM : ℕ)).Independent m := by
  constructor
  · intro u hu m' hm
    rw [scanDownsweepPhase_units] at hu
    have hlanes : Fetch.lanes BLOCK_DIM (loadLane o src srcOff n u) m' =
        Fetch.lanes BLOCK_DIM (loadLane o src srcOff n u) m := by
      apply lanes_loadLane_congr o src hsrc
      intro tid htid _
      apply hm
      intro v _ hvu ht
      obtain ⟨hbuf, tid', htid', _, hcell⟩ := (scanDownsweepPhase_touches o m hdst).mp ht
      have := hin hbuf.symm
      simp only [BLOCK_DIM] at htid htid' hcell
      omega
    have hpre : prefixes.load (i32 (prefixesOff + u)) m' =
        prefixes.load (i32 (prefixesOff + u)) m := by
      rw [i32_add (by omega), View.load_apply, View.load_apply, View.get, View.get, hm]
      intro v _ _ ht
      obtain ⟨hbuf, tid', _, _, hcell⟩ := (scanDownsweepPhase_touches o m hdst).mp ht
      have := hapart hbuf.symm
      omega
    simp only [scanDownsweepPhase, Fetch.bind_apply, hlanes, Fetch.lanes_apply, hpre,
      Fetch.pure_apply]
  · intro u _ v _ b i htu htv
    obtain ⟨_, tid, htid, _, hcell⟩ := (scanDownsweepPhase_touches o m hdst).mp htu
    obtain ⟨_, tid', htid', _, hcell'⟩ := (scanDownsweepPhase_touches o m hdst).mp htv
    simp only [BLOCK_DIM] at htid htid' hcell hcell'
    omega

theorem scanDownsweepPhase_get [DecidableEq β] (d : Device τ) (hsrc : srcOff + n ≤ 2 ^ 31)
    (hprefixes : prefixesOff + B ≤ 2 ^ 31) (hdst : dstOff + n ≤ 2 ^ 31)
    (hin : src.buffer = dst.buffer → srcOff = dstOff)
    (hapart : Apart prefixes dst prefixesOff B dstOff n) (hn : n ≤ B * BLOCK_DIM)
    {i : ℕ} (hi : i < n) :
    dst.get ((scanDownsweepPhase o src prefixes dst srcOff prefixesOff dstOff n
        (B * BLOCK_DIM : ℕ)).run d).mem (dstOff + i : ℕ) =
      o.op (prefixes.get d.mem (prefixesOff + i / BLOCK_DIM : ℕ))
        (o.fold (segment o src d.mem srcOff n) (i / BLOCK_DIM * BLOCK_DIM) (i % BLOCK_DIM)) := by
  have hdone := (scanDownsweepPhase_independent o d.mem hsrc hprefixes hdst hin hapart).done
  rw [scanDownsweepPhase_units] at hdone
  have hsplit : i / BLOCK_DIM * BLOCK_DIM + i % BLOCK_DIM = i := Nat.div_add_mod' i BLOCK_DIM
  have hblock : i / BLOCK_DIM < B := Nat.div_lt_of_lt_mul (by rw [Nat.mul_comm]; omega)
  have hlane : i % BLOCK_DIM < BLOCK_DIM := Nat.mod_lt i (by decide)
  have htouch := hdone.touched (i / BLOCK_DIM) hblock dst.buffer (dstOff + i : ℕ)
    ((scanDownsweepPhase_touches o d.mem hdst).mpr
      ⟨rfl, i % BLOCK_DIM, hlane, by omega, by rw [hsplit]⟩)
  rw [View.get, htouch, scanDownsweepPhase_writes o d.mem hsrc (by omega)]
  have hcell := writes_storeLanes dst d.mem hdst (i / BLOCK_DIM)
    (fun tid => o.op (prefixes.get d.mem (prefixesOff + i / BLOCK_DIM : ℕ))
      (o.fold (segment o src d.mem srcOff n) (i / BLOCK_DIM * BLOCK_DIM) tid))
    ⟨i % BLOCK_DIM, hlane⟩ (by simpa only [hsplit] using hi)
  simp only [hsplit] at hcell
  exact hcell

theorem scanDownsweepPhase_frame [DecidableEq β] (d : Device τ) (hsrc : srcOff + n ≤ 2 ^ 31)
    (hprefixes : prefixesOff + B ≤ 2 ^ 31) (hdst : dstOff + n ≤ 2 ^ 31)
    (hin : src.buffer = dst.buffer → srcOff = dstOff)
    (hapart : Apart prefixes dst prefixesOff B dstOff n) :
    Frame dst dstOff n d ((scanDownsweepPhase o src prefixes dst srcOff prefixesOff dstOff n
      (B * BLOCK_DIM : ℕ)).run d) := by
  intro b i hi
  apply (scanDownsweepPhase_independent o d.mem hsrc hprefixes hdst hin hapart).done.untouched
  intro u _ ht
  obtain ⟨hbuf, tid, _, hlt, hcell⟩ := (scanDownsweepPhase_touches o d.mem hdst).mp ht
  have := hi hbuf.symm
  omega

end downsweep

end Quadrants.Algorithms
