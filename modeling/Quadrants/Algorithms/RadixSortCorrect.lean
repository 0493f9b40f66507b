import Quadrants.Algorithms.RadixPass
import Quadrants.Algorithms.ScratchBounds

namespace Quadrants.Algorithms

open Quadrants.Library.Grid List Nat BitVec
open Quadrants.Library.SegmentFold
open Quadrants.Library.StableSort

section twiddle

variable {β : Type} {τ : β → Type} {w n : ℕ}

variable (keys : View τ (BitVec w))

theorem radixTwiddle_independent (n : ℕ) (isFloat doTwiddle : Bool)
    (m : Memory τ) : (radixTwiddle keys n isFloat doTwiddle).Independent m := by
  have htouch : ∀ u b i, (radixTwiddle keys n isFloat doTwiddle).Touches m u b i →
      i = (u : ℤ) := by
    rintro u b i ⟨wr, hw, _, rfl⟩
    simp only [radixTwiddle, Fetch.bind_apply, Fetch.pure_apply, mem_singleton] at hw
    rw [hw]
    rfl
  constructor
  · intro u _ m' hm
    have hkey : keys.load u m' = keys.load u m := by
      rw [View.load_apply, View.load_apply, View.get, View.get, hm]
      intro v _ hvu ht
      exact hvu (Int.ofNat_inj.mp (htouch v _ _ ht)).symm
    simp only [radixTwiddle, Fetch.bind_apply, hkey, Fetch.pure_apply]
  · intro u _ v _ b i htu htv
    exact Int.ofNat_inj.mp ((htouch u b i htu).symm.trans (htouch v b i htv))

theorem radixTwiddle_get [DecidableEq β] (isFloat doTwiddle : Bool)
    (d : Device τ) {i : ℕ} (hi : i < n) :
    keys.get ((radixTwiddle keys n isFloat doTwiddle).run d).mem i =
      keys.get d.mem i ^^^ twiddleMask isFloat doTwiddle (keys.get d.mem i) := by
  have hdone := (radixTwiddle_independent keys n isFloat doTwiddle d.mem).done
  have hbody : ((radixTwiddle keys n isFloat doTwiddle).body i d.mem).1 =
      [keys.store i (keys.get d.mem i ^^^ twiddleMask isFloat doTwiddle (keys.get d.mem i))] := by
    simp [radixTwiddle]
  have htouch := hdone.touched i (by simpa [radixTwiddle] using hi) keys.buffer i (by
    exact ⟨_, mem_singleton_self _, rfl, rfl⟩)
  rw [View.get, htouch]
  have hself := Memory.write_self d.mem (keys.store i
    (keys.get d.mem i ^^^ twiddleMask isFloat doTwiddle (keys.get d.mem i)))
  exact (congrArg keys.decode hself).trans (keys.decode_encode _)

theorem radixTwiddle_frame [DecidableEq β] (isFloat doTwiddle : Bool)
    (d : Device τ) {b : β} (hb : b ≠ keys.buffer) (i : ℤ) :
    ((radixTwiddle keys n isFloat doTwiddle).run d).mem b i = d.mem b i := by
  apply (radixTwiddle_independent keys n isFloat doTwiddle d.mem).done.untouched
  rintro u _ ⟨wr, hw, hbuf, _⟩
  simp only [radixTwiddle, Fetch.bind_apply, Fetch.pure_apply, mem_singleton] at hw
  rw [hw] at hbuf
  exact hb hbuf.symm

end twiddle

section order

variable {w : ℕ}

theorem toNat_xor_signBit (x : BitVec (w + 1)) :
    ((x ^^^ signBit (w + 1)).toNat : ℤ) = x.toInt + (2 ^ w : ℕ) := by
  have hsign : (signBit (w + 1)).toNat = 2 ^ w := by
    rw [signBit, toNat_twoPow]
    exact Nat.mod_eq_of_lt (Nat.pow_lt_pow_right (by decide) (lt_succ_self w))
  have hlt : x.toNat < 2 ^ w * 2 := by
    have hlt := x.isLt
    rwa [Nat.pow_succ] at hlt
  have hdiv : (x.toNat ^^^ 2 ^ w) / 2 ^ w = x.toNat / 2 ^ w ^^^ 1 := by
    rw [xor_div_two_pow, Nat.div_self (Nat.two_pow_pos w)]
  have hmod : (x.toNat ^^^ 2 ^ w) % 2 ^ w = x.toNat % 2 ^ w := by
    rw [Nat.xor_mod_two_pow, Nat.mod_self, Nat.xor_zero]
  have hsum := Nat.div_add_mod (x.toNat ^^^ 2 ^ w) (2 ^ w)
  rw [BitVec.toNat_xor, hsign, BitVec.toInt_eq_toNat_cond]
  rw [hdiv, hmod] at hsum
  -- the lower `w` bits stay, the top bit is flipped
  rcases Nat.lt_or_ge x.toNat (2 ^ w) with h | h
  · rw [Nat.div_eq_of_lt h, Nat.mod_eq_of_lt h, Nat.zero_xor, Nat.mul_one] at hsum
    rw [if_pos (by omega), ← hsum, Int.natCast_add]
    exact Int.add_comm _ _
  · have hone : x.toNat / 2 ^ w = 1 := by
      have hpos := Nat.div_pos h (Nat.two_pow_pos w)
      have htop : x.toNat / 2 ^ w < 2 := Nat.div_lt_of_lt_mul hlt
      omega
    have hmodsub : x.toNat % 2 ^ w = x.toNat - 2 ^ w := by
      rw [mod_eq_sub_mod h, Nat.mod_eq_of_lt (by omega)]
    rw [hone, hmodsub, Nat.xor_self, Nat.mul_zero] at hsum
    omega

theorem radixDigit_eq (hw : 8 ≤ w) (x : BitVec w) (p : ℕ) :
    radixDigit x (p * RADIX_BITS) = x.toNat / BLOCK_DIM ^ p % BLOCK_DIM := by
  have hmask : (BitVec.ofNat w (RADIX_DIGITS - 1)).toNat = 2 ^ 8 - 1 := by
    rw [toNat_ofNat, Nat.mod_eq_of_lt]
    · decide
    · exact Nat.lt_of_lt_of_le (by decide : RADIX_DIGITS - 1 < 2 ^ 8)
        (Nat.pow_le_pow_right (by decide) hw)
  have hpow : BLOCK_DIM ^ p = 2 ^ (p * RADIX_BITS) := by
    rw [Nat.mul_comm, Nat.pow_mul]
    rfl
  rw [radixDigit, toNat_and, hmask, toNat_ushiftRight, and_two_pow_sub_one_eq_mod,
    shiftRight_eq_div_pow, hpow]
  rfl

end order

section passes

variable {w : ℕ} {V : Type} {n nb levels : ℕ} {hasValues : Bool}

def keysAfter (p : ℕ) : View (SortTensor.Cell w V) (BitVec w) :=
  if p % 2 = 0 then keysView else tmpKeysView

def valuesAfter (p : ℕ) : View (SortTensor.Cell w V) V :=
  if p % 2 = 0 then valuesView else tmpValuesView

theorem parity_cases (p : ℕ) : (p % 2 = 0 ∧ (p + 1) % 2 ≠ 0) ∨ (p % 2 ≠ 0 ∧ (p + 1) % 2 = 0) := by
  omega

theorem emitPass_eq (n nb p : ℕ) (hasValues : Bool) (levels : ℕ) :
    emitPass (keysView : View (SortTensor.Cell w V) (BitVec w)) tmpKeysView valuesView tmpValuesView
        sortScratch n nb (nb * BLOCK_DIM : ℕ) p hasValues levels =
      passLaunches (keysAfter p) (keysAfter (p + 1)) (valuesAfter p) (valuesAfter (p + 1))
        sortScratch n nb (p * RADIX_BITS) hasValues levels := by
  rcases parity_cases p with ⟨hp, hp'⟩ | ⟨hp, hp'⟩
  · simp only [emitPass, passLaunches, keysAfter, valuesAfter, if_pos hp, if_neg hp']
    rfl
  · simp only [emitPass, passLaunches, keysAfter, valuesAfter, if_neg hp, if_pos hp']
    rfl

theorem separate (p : ℕ) :
    Separate (keysAfter p : View (SortTensor.Cell w V) (BitVec w)) (keysAfter (p + 1))
      (valuesAfter p) (valuesAfter (p + 1)) sortScratch := by
  rcases parity_cases p with ⟨hp, hp'⟩ | ⟨hp, hp'⟩
  · simp only [keysAfter, valuesAfter, if_pos hp, if_neg hp']
    constructor <;> exact SortTensor.noConfusion
  · simp only [keysAfter, valuesAfter, if_neg hp, if_pos hp']
    constructor <;> exact SortTensor.noConfusion

/-- After `p` passes the elements stand in the stable order of the `p` lowest digits. -/
def SortedBy (key : ℕ → BitVec w) (value : ℕ → V) (n : ℕ) (hasValues : Bool) (p : ℕ)
    (m : Memory (SortTensor.Cell w V)) : Prop :=
  ∃ σ, Arranges (fun i => (key i).toNat % BLOCK_DIM ^ p) n σ ∧ ∀ k < n,
    (keysAfter p).get m k = key (σ k) ∧
      (hasValues = true → (valuesAfter p).get m k = value (σ k))

theorem sortedBy_zero (m : Memory (SortTensor.Cell w V)) :
    SortedBy (fun i => keysView.get m i) (fun i => valuesView.get m i) n hasValues 0 m := by
  refine ⟨id, ?_, fun k _ => ⟨rfl, fun _ => rfl⟩⟩
  simp only [Nat.pow_zero, mod_one]
  exact arranges_id n

section step

variable (hw : 8 ≤ w) (hn : n ≤ nb * BLOCK_DIM) (hfit : nb * BLOCK_DIM ≤ BLOCK_DIM ^ (levels + 1))
  (h : nb * BLOCK_DIM + partials (nb * BLOCK_DIM) levels < 2 ^ 31)
include hw hn hfit h

variable {d : Device (SortTensor.Cell w V)} {key : ℕ → BitVec w} {value : ℕ → V}

theorem SortedBy.step {p : ℕ} (hd : SortedBy key value n hasValues p d.mem) :
    SortedBy key value n hasValues (p + 1)
      (runAll (emitPass keysView tmpKeysView valuesView tmpValuesView sortScratch n nb
        (nb * BLOCK_DIM : ℕ) p hasValues levels) d).mem := by
  obtain ⟨σ, harr, hcells⟩ := hd
  obtain ⟨d', hd'⟩ : ∃ d', d' = runAll (passLaunches (keysAfter p) (keysAfter (p + 1))
    (valuesAfter p) (valuesAfter (p + 1)) sortScratch n nb (p * RADIX_BITS) hasValues levels) d :=
      ⟨_, rfl⟩
  rw [emitPass_eq, ← hd']
  have hmod : ∀ i, (key i).toNat % BLOCK_DIM ^ p < BLOCK_DIM ^ p :=
    fun i => mod_lt _ (Nat.pow_pos (by decide))
  obtain ⟨σ', harr', hsource⟩ :=
    harr.pass hmod fun i => (key i).toNat / BLOCK_DIM ^ p % BLOCK_DIM
  have hdigits : ∀ k < n, digitAt (keysAfter p) d.mem (p * RADIX_BITS) k =
      (key (σ k)).toNat / BLOCK_DIM ^ p % BLOCK_DIM := by
    intro k hk
    rw [digitAt, (hcells k hk).1, radixDigit_eq hw]
  refine ⟨σ', ?_, ?_⟩
  · have hkey : (fun i => (key i).toNat % BLOCK_DIM ^ (p + 1)) = fun i =>
        (key i).toNat / BLOCK_DIM ^ p % BLOCK_DIM * BLOCK_DIM ^ p +
          (key i).toNat % BLOCK_DIM ^ p := by
      funext i
      rw [mod_pow_succ, Nat.add_comm, Nat.mul_comm]
    rw [hkey]
    exact harr'
  · intro q hq
    obtain ⟨k, hk, rfl⟩ :=
      exists_place_eq (fun k => (key (σ k)).toNat / BLOCK_DIM ^ p % BLOCK_DIM) hq
    have hmove := passLaunches_get (separate p) d d' hn hfit h hd' hk
    rw [place_congr hdigits hk] at hmove
    rw [hsource k hk]
    refine ⟨hmove.1.trans (hcells k hk).1, ?_⟩
    intro hv
    exact (hmove.2 hv).trans ((hcells k hk).2 hv)

theorem SortedBy.passes (hd : SortedBy key value n hasValues 0 d.mem) (passes : ℕ) :
    SortedBy key value n hasValues passes
      (runAll ((range passes).flatMap fun p => emitPass keysView tmpKeysView valuesView
        tmpValuesView sortScratch n nb (nb * BLOCK_DIM : ℕ) p hasValues levels) d).mem := by
  induction passes with
  | zero => exact hd
  | succ p ih =>
    rw [range_succ, flatMap_append, flatMap_singleton, runAll_append]
    exact ih.step hw hn hfit h

end step

end passes

section bounds

variable {w : ℕ} {V : Type} {n nb levels S : ℕ} {hasValues : Bool}

def InScratch (S : ℕ) (a : Access SortTensor) : Prop :=
  a.buffer = .scratch → 0 ≤ a.index ∧ a.index < S

variable {b : SortTensor} {kind : Kind}

theorem inScratch_of_ne (h : b ≠ .scratch) (i : ℤ) :
    InScratch S ⟨kind, b, i⟩ := fun hb => absurd hb h

theorem inScratch_natCast {i : ℕ} (h : i < S) :
    InScratch S ⟨kind, b, (i : ℤ)⟩ := fun _ => ⟨Int.natCast_nonneg i, Int.ofNat_lt.mpr h⟩

theorem loadInRange_reads {α : Type} {src : View (SortTensor.Cell w V) α}
    (h : src.buffer ≠ .scratch) (m : Memory (SortTensor.Cell w V)) (u : ℕ) (tid : Fin BLOCK_DIM) :
    ∀ c ∈ (loadInRange src n u tid m).2, InScratch S ⟨.read, c.1, c.2⟩ := by
  intro c hc
  rcases Nat.lt_or_ge (u * BLOCK_DIM + tid) n with hi | hi
  · rw [loadInRange_of_lt src m hi, mem_singleton] at hc
    rw [hc]
    exact inScratch_of_ne h _
  · rw [loadInRange_of_le src m hi] at hc
    cases hc

theorem loadValue_reads {α : Type} {src : View (SortTensor.Cell w V) α}
    (h : src.buffer ≠ .scratch) (m : Memory (SortTensor.Cell w V)) (u : ℕ) (tid : Fin BLOCK_DIM) :
    ∀ c ∈ (loadValue src hasValues n u tid m).2, InScratch S ⟨.read, c.1, c.2⟩ := by
  cases hasValues with
  | false =>
    intro c hc
    cases hc
  | true => exact loadInRange_reads h m u tid

theorem radixHist_within {keys : View (SortTensor.Cell w V) (BitVec w)}
    (hkeys : keys.buffer ≠ .scratch) (h : nb * BLOCK_DIM < 2 ^ 31) (hS : nb * BLOCK_DIM ≤ S)
    (bitStart : ℕ) : (radixHist keys sortScratch n nb bitStart).Within (InScratch S) := by
  intro u hu m a ha
  have hu' : u < nb := by rwa [← launch_units h]
  rcases mem_accesses.mp ha with ⟨c, hc, rfl⟩ | ⟨wr, hw, rfl⟩
  · simp only [radixHist, Fetch.bind_apply, Fetch.lanes_apply, Fetch.pure_apply, append_nil,
      mem_flatMap] at hc
    obtain ⟨tid, _, hc⟩ := hc
    split_ifs at hc with hi
    · rw [Fetch.map_apply, View.load_apply, mem_singleton] at hc
      rw [hc]
      exact inScratch_of_ne hkeys _
    · cases hc
  · obtain ⟨tid, rfl⟩ := mem_radixHist_writes h hu' hw
    exact inScratch_natCast (Nat.lt_of_lt_of_le (slot_lt hu' tid) hS)

theorem radixScatter_within {keysIn keysOut : View (SortTensor.Cell w V) (BitVec w)}
    {valuesIn valuesOut : View (SortTensor.Cell w V) V}
    (sep : Separate keysIn keysOut valuesIn valuesOut sortScratch) (h : nb * BLOCK_DIM < 2 ^ 31)
    (hS : nb * BLOCK_DIM ≤ S) (bitStart : ℕ) :
    (radixScatter keysIn keysOut valuesIn valuesOut sortScratch n nb bitStart hasValues).Within
      (InScratch S) := by
  intro u hu m a ha
  have hu' : u < nb := by rwa [← launch_units h]
  rcases mem_accesses.mp ha with ⟨c, hc, rfl⟩ | ⟨wr, hw, rfl⟩
  · simp only [radixScatter, Fetch.bind_apply, Fetch.lanes_apply, Fetch.pure_apply, append_nil,
      mem_append, mem_flatMap] at hc
    rcases hc with ⟨tid, _, hc⟩ | ⟨tid, _, hc⟩ | ⟨tid, _, hc⟩
    · exact loadInRange_reads sep.keysIn_scratch m u tid c hc
    · rw [View.load_apply, mem_singleton, histSlot_eq hu' h] at hc
      rw [hc]
      exact inScratch_natCast (Nat.lt_of_lt_of_le (slot_lt hu' tid) hS)
    · exact loadValue_reads sep.valuesIn_scratch m u tid c hc
  · rw [radixScatter_writes, mem_flatMap] at hw
    obtain ⟨tid, _, hw⟩ := hw
    simp only [laneWrites, mem_append, mem_map] at hw
    rcases hw with ⟨_, _, rfl⟩ | ⟨_, _, rfl⟩
    · exact inScratch_of_ne sep.scratch_keys.symm _
    · exact inScratch_of_ne sep.scratch_values.symm _

theorem radixTwiddle_within (n : ℤ) (isFloat doTwiddle : Bool) :
    (radixTwiddle (keysView : View (SortTensor.Cell w V) (BitVec w)) n isFloat doTwiddle).Within
      (InScratch S) := by
  intro u _ m a ha
  simp only [radixTwiddle, Fetch.bind_apply, View.load_apply, Fetch.pure_apply, mem_accesses,
    append_nil, mem_singleton] at ha
  rcases ha with ⟨c, rfl, rfl⟩ | ⟨wr, rfl, rfl⟩
  · exact inScratch_of_ne (show SortTensor.keys ≠ SortTensor.scratch from nofun) _
  · exact inScratch_of_ne (show SortTensor.keys ≠ SortTensor.scratch from nofun) _

theorem emitTwiddle_within (keyDtype : KeyDtype) (n : ℤ) (doTwiddle : Bool) :
    ∀ l ∈ (emitTwiddle keyDtype n doTwiddle : List (Launch (SortTensor.Cell w V))),
      l.Within (InScratch S) := by
  intro l hl
  rw [emitTwiddle] at hl
  split_ifs at hl
  · rw [mem_singleton.mp hl]
    exact radixTwiddle_within n _ _
  · cases hl

theorem emitPass_within (h : nb * BLOCK_DIM + partials (nb * BLOCK_DIM) levels < 2 ^ 31)
    (hS : nb * BLOCK_DIM + partials (nb * BLOCK_DIM) levels ≤ S) (p : ℕ) :
    ∀ l ∈ (emitPass keysView tmpKeysView valuesView tmpValuesView sortScratch n nb
      (nb * BLOCK_DIM : ℕ) p hasValues levels : List (Launch (SortTensor.Cell w V))),
        l.Within (InScratch S) := by
  have sep : Separate (keysAfter p : View (SortTensor.Cell w V) (BitVec w)) (keysAfter (p + 1))
    (valuesAfter p) (valuesAfter (p + 1)) sortScratch := separate p
  rw [emitPass_eq, passLaunches, forall_mem_cons, forall_mem_append,
    forall_mem_singleton, emitExclusiveScanAdd_eq]
  refine ⟨?_, ?_, ?_⟩
  · exact radixHist_within sep.keysIn_scratch (by omega) (by omega) _
  · have hfit : 0 + nb * BLOCK_DIM + partials (nb * BLOCK_DIM) levels < 2 ^ 31 := by omega
    have hP : ∀ kind, Allowed (InScratch S) kind
        (sortScratch : View (SortTensor.Cell w V) (BitVec 32)) 0
          (nb * BLOCK_DIM + partials (nb * BLOCK_DIM) levels) := by
      intro kind i hi
      exact inScratch_natCast (by omega)
    exact emitScanInplace_within addU32 levels hfit hP
  · exact radixScatter_within sep (by omega) (by omega) _

end bounds

section sort

variable {V : Type} {n D S : ℕ}

def KeyDtype.value {w : ℕ} : KeyDtype → BitVec w → ℤ
  | .i32, k => k.toInt
  | .i64, k => k.toInt
  | _, k => k.toNat

def KeyDtype.le {w : ℕ} (keyDtype : KeyDtype) (a b : BitVec w) : Bool :=
  decide (keyDtype.value a ≤ keyDtype.value b)

def readKeys {w : ℕ} (n : ℕ) (m : Memory (SortTensor.Cell w V)) : List (BitVec w) :=
  (range n).map fun (i : ℕ) => keysView.get m i

def readPairs {w : ℕ} (n : ℕ) (m : Memory (SortTensor.Cell w V)) : List (BitVec w × V) :=
  (range n).map fun (i : ℕ) => (keysView.get m i, valuesView.get m i)

def KeyDtype.twiddled {w : ℕ} (keyDtype : KeyDtype) (k : BitVec w) : BitVec w :=
  if keyDtype.needsTwiddle then k ^^^ signBit w else k

variable {keyDtype : KeyDtype} {w : ℕ}

theorem KeyDtype.twiddled_twiddled (keyDtype : KeyDtype) (k : BitVec w) :
    keyDtype.twiddled (keyDtype.twiddled k) = k := by
  simp only [KeyDtype.twiddled]
  split_ifs
  · rw [BitVec.xor_assoc, BitVec.xor_self, BitVec.xor_zero]
  · rfl

theorem KeyDtype.toNat_twiddled_le (hint : keyDtype.isFloat = false) (a b : BitVec (w + 1)) :
    (keyDtype.twiddled a).toNat ≤ (keyDtype.twiddled b).toNat ↔
      keyDtype.value a ≤ keyDtype.value b := by
  have hxor : (a ^^^ signBit (w + 1)).toNat ≤ (b ^^^ signBit (w + 1)).toNat ↔
      a.toInt ≤ b.toInt := by
    have ha := toNat_xor_signBit a
    have hb := toNat_xor_signBit b
    omega
  cases keyDtype with
  | u32 => exact Int.ofNat_le.symm
  | i32 => exact hxor
  | f32 => cases hint
  | u64 => exact Int.ofNat_le.symm
  | i64 => exact hxor
  | f64 => cases hint

variable {hasValues : Bool} {i levels : ℕ}

theorem emitTwiddle_get (hint : keyDtype.isFloat = false)
    (doTwiddle : Bool) (d : Device (SortTensor.Cell w V)) (hi : i < n) :
    keysView.get (runAll (emitTwiddle keyDtype n doTwiddle) d).mem i =
      keyDtype.twiddled (keysView.get d.mem i) := by
  rw [emitTwiddle, KeyDtype.twiddled]
  split_ifs
  · have hget := radixTwiddle_get keysView keyDtype.isFloat doTwiddle d hi
    rw [hint] at hget
    rw [runAll_cons, hint]
    exact hget
  · rfl

theorem emitTwiddle_values (keyDtype : KeyDtype) (n : ℕ) (doTwiddle : Bool)
    (d : Device (SortTensor.Cell w V)) (i : ℤ) :
    valuesView.get (runAll (emitTwiddle keyDtype n doTwiddle) d).mem i = valuesView.get d.mem i := by
  rw [emitTwiddle]
  split_ifs
  · exact congrArg _ (radixTwiddle_frame keysView _ doTwiddle d
      (show SortTensor.values ≠ SortTensor.keys from nofun) i)
  · rfl

def sortLaunches (keyDtype : KeyDtype) (hasValues : Bool) (n levels : ℕ) :
    List (Launch (SortTensor.Cell keyDtype.keyWidthBits V)) :=
  emitTwiddle keyDtype n true ++
    (range (keyDtype.keyWidthBits / RADIX_BITS)).flatMap (fun p =>
      emitPass keysView tmpKeysView valuesView tmpValuesView sortScratch n (hostBlockCount n)
        (hostBlockCount n * BLOCK_DIM : ℕ) p hasValues levels) ++
    emitTwiddle keyDtype n false

theorem sortScratchSlots_eq (hmax : levels + 1 ≤ MAX_LOG256_MAX_N) (n : ℕ) :
    sortScratchSlots n (levels + 1) = .ok (atLeastOne (hostBlockCount n * BLOCK_DIM +
      partials (hostBlockCount n * BLOCK_DIM) levels)) := by
  simp only [sortScratchSlots, validateLog256MaxN_of_le hmax, sumLevels_eq]
  rfl

theorem sort_eq
    (hmax : levels + 1 ≤ MAX_LOG256_MAX_N) (h31 : hostBlockCount n * BLOCK_DIM < 2 ^ 31) :
    (sort keyDtype hasValues n keyDtype.keyWidthBits (levels + 1) :
        Except EmitError (List (Launch (SortTensor.Cell keyDtype.keyWidthBits V)))) =
      .ok (sortLaunches keyDtype hasValues n levels) := by
  have hcount : blockCount n = hostBlockCount n := by
    apply blockCount_eq
    simp only [hostBlockCount, BLOCK_DIM] at h31
    omega
  have hlen : i32 ((hostBlockCount n : ℤ) * RADIX_DIGITS) = (hostBlockCount n * BLOCK_DIM : ℕ) := by
    rw [← i32_natCast h31]
    rfl
  simp only [sort, validateLog256MaxN_of_le hmax, hcount, hlen]
  rfl

theorem KeyDtype.keyWidthBits_cases (keyDtype : KeyDtype) :
    keyDtype.keyWidthBits = 32 ∨ keyDtype.keyWidthBits = 64 := by
  cases keyDtype <;> decide

theorem sortedBy_width {key : ℕ → BitVec keyDtype.keyWidthBits} {value : ℕ → V}
    {m : Memory (SortTensor.Cell keyDtype.keyWidthBits V)}
    (h : SortedBy key value n hasValues (keyDtype.keyWidthBits / RADIX_BITS) m) :
    ∃ σ, Arranges (fun i => (key i).toNat) n σ ∧ ∀ k < n, keysView.get m k = key (σ k) ∧
      (hasValues = true → valuesView.get m k = value (σ k)) := by
  obtain ⟨σ, harr, hcells⟩ := h
  have heven : keyDtype.keyWidthBits / RADIX_BITS % 2 = 0 := by
    cases keyDtype <;> decide
  have hpow : BLOCK_DIM ^ (keyDtype.keyWidthBits / RADIX_BITS) = 2 ^ keyDtype.keyWidthBits := by
    cases keyDtype <;> decide
  simp only [hpow, Nat.mod_eq_of_lt (isLt _)] at harr
  simp only [keysAfter, valuesAfter, if_pos heven] at hcells
  exact ⟨σ, harr, hcells⟩

section run

variable {keyDtype : KeyDtype} {levels : ℕ} (hint : keyDtype.isFloat = false)
  (hfit : hostBlockCount n * BLOCK_DIM ≤ BLOCK_DIM ^ (levels + 1))
  (h : hostBlockCount n * BLOCK_DIM + partials (hostBlockCount n * BLOCK_DIM) levels < 2 ^ 31)
include hint hfit h

theorem sortLaunches_arranges (hasValues : Bool)
    (d : Device (SortTensor.Cell keyDtype.keyWidthBits V)) :
    ∃ σ, Arranges (fun i => (keyDtype.twiddled (keysView.get d.mem (i : ℕ))).toNat) n σ ∧ ∀ k < n,
      keysView.get (runAll (sortLaunches keyDtype hasValues n levels) d).mem k =
          keysView.get d.mem (σ k) ∧
        (hasValues = true →
          valuesView.get (runAll (sortLaunches keyDtype hasValues n levels) d).mem k =
            valuesView.get d.mem (σ k)) := by
  obtain ⟨d1, hd1⟩ : ∃ d1, d1 = runAll (emitTwiddle keyDtype n true) d := ⟨_, rfl⟩
  have hw : 8 ≤ keyDtype.keyWidthBits := by
    rcases keyDtype.keyWidthBits_cases with hw | hw <;> rw [hw] <;> decide
  obtain ⟨σ, harr, hcells⟩ := sortedBy_width ((sortedBy_zero d1.mem).passes hw
    (le_hostBlockCount_mul n) hfit h (keyDtype.keyWidthBits / RADIX_BITS))
  rw [sortLaunches, runAll_append, runAll_append, ← hd1]
  have hkey : ∀ i < n, keysView.get d1.mem (i : ℕ) = keyDtype.twiddled (keysView.get d.mem i) := by
    intro i hi
    rw [hd1]
    exact emitTwiddle_get hint true d hi
  refine ⟨σ, ?_, ?_⟩
  · refine ⟨harr.bound, ?_⟩
    intro a b hab hb
    have hbefore := harr.ordered a b hab hb
    simp only [Before, hkey _ (harr.bound a (hab.trans hb)), hkey _ (harr.bound b hb)] at hbefore
    exact hbefore
  · intro k hk
    refine ⟨?_, ?_⟩
    · rw [emitTwiddle_get hint false _ hk, (hcells k hk).1, hkey _ (harr.bound k hk),
        KeyDtype.twiddled_twiddled]
    · intro hv
      rw [emitTwiddle_values, (hcells k hk).2 hv, hd1, emitTwiddle_values]

end run

/-- The launches of the sort leave `keys` in the stable ascending order of the input, with the
values in lock-step, and keep to their scratch. A scratch of `S` slots exists only for
`S < 2 ^ 31`. -/
theorem sort_stable (keyDtype : KeyDtype) (hint : keyDtype.isFloat = false)
    (hasValues : Bool) (n D S : ℕ) (hD : 1 ≤ D) (hmax : D ≤ MAX_LOG256_MAX_N)
    (hn : n ≤ BLOCK_DIM ^ D) (hS : sortScratchSlots n D = .ok S) (h31 : S < 2 ^ 31) :
    ∃ ls : List (Launch (SortTensor.Cell keyDtype.keyWidthBits V)),
      sort keyDtype hasValues n keyDtype.keyWidthBits D = .ok ls ∧ ∀ m,
        readKeys n (runAll ls ⟨m, []⟩).mem = (readKeys n m).mergeSort keyDtype.le ∧
        (hasValues = true → readPairs n (runAll ls ⟨m, []⟩).mem =
          (readPairs n m).mergeSort fun a b => keyDtype.le a.1 b.1) ∧
        ∀ a ∈ (runAll ls ⟨m, []⟩).log, InScratch S a := by
  obtain ⟨levels, rfl⟩ : ∃ levels, D = levels + 1 := ⟨D - 1, by omega⟩
  rw [sortScratchSlots_eq hmax, Except.ok.injEq] at hS
  have hslots := le_atLeastOne (hostBlockCount n * BLOCK_DIM +
    partials (hostBlockCount n * BLOCK_DIM) levels)
  have hfit : hostBlockCount n * BLOCK_DIM ≤ BLOCK_DIM ^ (levels + 1) := by
    exact Nat.mul_le_mul_right _ (hostBlockCount_le_pow hn)
  refine ⟨sortLaunches keyDtype hasValues n levels, sort_eq hmax (by omega), ?_⟩
  intro m
  obtain ⟨σ, harr, hcells⟩ := sortLaunches_arranges hint hfit (by omega) hasValues ⟨m, []⟩
  have hle : ∀ a b : BitVec keyDtype.keyWidthBits,
      decide ((keyDtype.twiddled a).toNat ≤ (keyDtype.twiddled b).toNat) = keyDtype.le a b := by
    intro a b
    rw [KeyDtype.le, decide_eq_decide]
    revert a b
    rcases keyDtype.keyWidthBits_cases with hw | hw <;> rw [hw] <;>
      exact KeyDtype.toNat_twiddled_le hint
  refine ⟨?_, ?_, ?_⟩
  · have hsorted := harr.map_eq_mergeSort (fun i => keysView.get m (i : ℕ))
      fun k => (keyDtype.twiddled k).toNat
    simp only [hle] at hsorted
    refine Eq.trans ?_ hsorted
    apply map_congr_left
    intro k hk
    exact (hcells k (mem_range.mp hk)).1
  · intro hv
    have hsorted := harr.map_eq_mergeSort
      (fun i => (keysView.get m (i : ℕ), valuesView.get m (i : ℕ)))
        fun k => (keyDtype.twiddled k.1).toNat
    simp only [hle] at hsorted
    refine Eq.trans ?_ hsorted
    apply map_congr_left
    intro k hk
    obtain ⟨hkey, hvalue⟩ := hcells k (mem_range.mp hk)
    exact Prod.ext hkey (hvalue hv)
  · apply runAll_log_within
    · simp only [sortLaunches, forall_mem_append, forall_mem_flatMap]
      refine ⟨⟨emitTwiddle_within keyDtype n true, ?_⟩, emitTwiddle_within keyDtype n false⟩
      intro p _
      exact emitPass_within (by omega) (by omega) p
    · intro a ha
      cases ha

/-- Signed keys with values, 0 to 2 of them, at a depth above the one they need. -/
theorem sort_stable_three :
    ∃ ls : List (Launch (SortTensor.Cell KeyDtype.i32.keyWidthBits (BitVec 32))),
      sort .i32 true (3 : ℕ) KeyDtype.i32.keyWidthBits 2 = .ok ls ∧ ∀ m,
        readKeys 3 (runAll ls ⟨m, []⟩).mem = (readKeys 3 m).mergeSort KeyDtype.i32.le ∧
        (true = true → readPairs 3 (runAll ls ⟨m, []⟩).mem =
          (readPairs 3 m).mergeSort fun a b => KeyDtype.i32.le a.1 b.1) ∧
        ∀ a ∈ (runAll ls ⟨m, []⟩).log, InScratch 257 a :=
  sort_stable .i32 rfl true 3 2 257 (by decide) (by decide) (by decide) (by rfl) (by decide)

theorem readKeys_sorted {keys : List (BitVec w)}
    {m : Memory (SortTensor.Cell w V)} (h : readKeys n m = keys.mergeSort keyDtype.le) {j : ℕ}
    (hij : i < j) (hj : j < n) :
    keyDtype.value (keysView.get m i) ≤ keyDtype.value (keysView.get m j) := by
  have hpair : (readKeys n m).Pairwise fun a b => keyDtype.le a b = true := by
    rw [h]
    apply pairwise_mergeSort
    · intro a b c hab hbc
      simp only [KeyDtype.le, decide_eq_true_eq] at hab hbc ⊢
      exact hab.trans hbc
    · intro a b
      simp only [KeyDtype.le, Bool.or_eq_true, decide_eq_true_eq]
      exact Int.le_total _ _
  have hlen : (readKeys n m).length = n := by simp [readKeys]
  have hle := pairwise_iff_getElem.mp hpair i j (by omega) (by omega) hij
  simpa [readKeys, KeyDtype.le] using hle

def unsortedKeys : Memory (SortTensor.Cell KeyDtype.u32.keyWidthBits (BitVec 32))
  | .keys => fun i => if i = 0 then 1#32 else 0#32
  | .tmpKeys => fun _ => 0#32
  | .values => fun _ => 0#32
  | .tmpValues => fun _ => 0#32
  | .scratch => fun _ => 0#32

/-- At depth 0 the unrolling of the scan does not end; and for `2 ^ 31 - 1` keys the block count
overflows, no pass runs and the keys stay as they are. -/
theorem sort_not_stable :
    (∃ e, (sort .u32 false (1 : ℕ) KeyDtype.u32.keyWidthBits 0 : Except EmitError
      (List (Launch (SortTensor.Cell KeyDtype.u32.keyWidthBits (BitVec 32))))) = .error e) ∧
    ∃ ls, sort .u32 false ((2 ^ 31 - 1 : ℕ) : ℤ) KeyDtype.u32.keyWidthBits 4 = .ok ls ∧
      readKeys (2 ^ 31 - 1) (runAll ls ⟨unsortedKeys, []⟩).mem ≠
        (readKeys (2 ^ 31 - 1) unsortedKeys).mergeSort KeyDtype.u32.le := by
  refine ⟨⟨_, rfl⟩, _, rfl, ?_⟩
  intro h
  have hle := readKeys_sorted h (show 0 < 1 by decide) (by decide)
  revert hle
  decide +kernel

end sort

end Quadrants.Algorithms
