import Quadrants.Algorithms.RadixSort
import Quadrants.Algorithms.StaircaseCorrect
import Quadrants.Library.StableSort

namespace Quadrants.Algorithms

open Quadrants.Library.Grid
open Quadrants.Library.SegmentFold
open Quadrants.Library.StableSort

section histogram

def natAdd : BinOp ℕ := ⟨(· + ·), 0, Nat.add_assoc, Nat.zero_add, Nat.add_zero⟩

theorem fold_ofNat (h : ℕ → ℕ) (n : ℕ) :
    addU32.fold (fun j => BitVec.ofNat 32 (h j)) 0 n = BitVec.ofNat 32 (natAdd.fold h 0 n) := by
  induction n with
  | zero => rfl
  | succ n ih =>
    have hstep : addU32.fold (fun j => BitVec.ofNat 32 (h j)) 0 (n + 1) =
        BitVec.add (addU32.fold (fun j => BitVec.ofNat 32 (h j)) 0 n)
          (BitVec.ofNat 32 (h (0 + n))) := rfl
    rw [hstep, ih]
    exact (BitVec.ofNat_add _ _).symm

def paddedDigit (key : ℕ → ℕ) (n i : ℕ) : ℕ := if i < n then key i else RADIX_DIGITS

def blockHist (key : ℕ → ℕ) (n d b : ℕ) : ℕ :=
  Nat.count (fun t => paddedDigit key n (b * BLOCK_DIM + t) = d) BLOCK_DIM

variable {key : ℕ → ℕ} {n : ℕ}

theorem sum_blockHist (d nb : ℕ) : natAdd.fold (fun b => blockHist key n d b) 0 nb =
      Nat.count (fun i => paddedDigit key n i = d) (nb * BLOCK_DIM) := by
  induction nb with
  | zero => simp [natAdd]
  | succ nb ih =>
    rw [fold_succ, ih, Nat.succ_mul, Nat.count_add, Nat.zero_add]
    rfl

theorem sum_digits (k d : ℕ) :
    natAdd.fold (fun d' => Nat.count (fun i => paddedDigit key n i = d') k) 0 d =
      Nat.count (fun i => paddedDigit key n i < d) k := by
  induction d with
  | zero => simp [natAdd]
  | succ d ih =>
    rw [fold_succ, ih, Nat.zero_add]
    exact count_lt_add_count_eq (paddedDigit key n) d k

variable {d : ℕ}

theorem sum_histograms {h : ℕ → ℕ} {nb b : ℕ} (hd : d < RADIX_DIGITS) (hb : b < nb)
    (hh : ∀ d' < RADIX_DIGITS, ∀ b' < nb, h (d' * nb + b') = blockHist key n d' b') :
    natAdd.fold h 0 (d * nb + b) =
      Nat.count (fun i => paddedDigit key n i < d) (nb * BLOCK_DIM) +
        Nat.count (fun i => paddedDigit key n i = d) (b * BLOCK_DIM) := by
  have hrow : ∀ d' < RADIX_DIGITS, ∀ b' ≤ nb, natAdd.fold h (d' * nb) b' =
      natAdd.fold (fun b => blockHist key n d' b) 0 b' := by
    intro d' hd' b' hb'
    apply fold_congr
    intro i hi
    rw [Nat.zero_add, hh d' hd' i (by omega)]
  have hrows : natAdd.fold h 0 (d * nb) =
      natAdd.fold (fun d' => Nat.count (fun i => paddedDigit key n i = d') (nb * BLOCK_DIM)) 0 d := by
    rw [← fold_tiles]
    apply fold_congr
    intro d' hd'
    simp only [Nat.zero_add]
    rw [hrow d' (by omega) nb le_rfl, sum_blockHist]
  rw [fold_add, hrows, sum_digits, Nat.zero_add, hrow d hd b hb.le, sum_blockHist]
  rfl

theorem count_padded_lt {N : ℕ} (hd : d ≤ RADIX_DIGITS) (hN : n ≤ N) :
    Nat.count (fun i => paddedDigit key n i < d) N = Nat.count (fun i => key i < d) n := by
  obtain ⟨k, rfl⟩ := Nat.exists_eq_add_of_le hN
  have htail : Nat.count (fun i => paddedDigit key n (n + i) < d) k = 0 := by
    rw [Nat.count_iff_forall_not]
    intro i _
    rw [paddedDigit, if_neg (by omega)]
    omega
  rw [Nat.count_add, htail]
  apply count_congr
  intro i hi
  rw [paddedDigit, if_pos hi]

theorem count_padded_eq {k : ℕ} (hk : k ≤ n) :
    Nat.count (fun i => paddedDigit key n i = d) k = Nat.count (fun i => key i = d) k := by
  apply count_congr
  intro i hi
  rw [paddedDigit, if_pos (by omega)]

end histogram

section slots

variable {nb b : ℕ} {tid : Fin BLOCK_DIM}

theorem slot_lt (hb : b < nb) (tid : Fin BLOCK_DIM) : tid * nb + b < nb * BLOCK_DIM := by
  have hmul : (tid + 1) * nb ≤ BLOCK_DIM * nb := Nat.mul_le_mul_right nb tid.isLt
  rw [Nat.succ_mul] at hmul
  rw [Nat.mul_comm nb]
  omega

theorem histSlot_eq (hb : b < nb) (h : nb * BLOCK_DIM < 2 ^ 31) :
    histSlot nb b tid = (tid * nb + b : ℕ) := by
  have hlt := slot_lt hb tid
  rw [histSlot, ← Int.natCast_mul, i32_natCast (by omega), i32_add (by omega)]

theorem slot_injective {b' : ℕ} {tid' : Fin BLOCK_DIM} (hb : b < nb) (hb' : b' < nb)
    (h : tid * nb + b = tid' * nb + b') : tid = tid' ∧ b = b' := by
  have hmod : b = b' := by
    have hmod := congrArg (· % nb) h
    simpa [Nat.mul_add_mod_of_lt, Nat.mod_eq_of_lt, hb, hb', Nat.mul_comm] using hmod
  subst hmod
  have hmul : tid * nb = tid' * nb := by omega
  exact ⟨Fin.ext (Nat.eq_of_mul_eq_mul_right (by omega) hmul), rfl⟩

end slots

section phases

variable {β : Type} {τ : β → Type} {w : ℕ} {n nb bitStart : ℕ}

def digitAt (keys : View τ (BitVec w)) (m : Memory τ) (bitStart i : ℕ) : ℕ :=
  radixDigit (keys.get m i) bitStart

theorem launch_units (h : nb * BLOCK_DIM < 2 ^ 31) :
    (i32 ((nb : ℤ) * BLOCK_DIM)).toNat / BLOCK_DIM = nb := by
  rw [← Int.natCast_mul, i32_natCast h]
  exact Nat.mul_div_cancel nb (by decide)

section hist

variable {keys : View τ (BitVec w)} {scratch : View τ (BitVec 32)}

variable {u : ℕ}

theorem radixHist_writes (m : Memory τ) (h : nb * BLOCK_DIM < 2 ^ 31) (hu : u < nb) :
    ((radixHist keys scratch n nb bitStart).body u m).1 =
      (List.finRange BLOCK_DIM).map fun (tid : Fin BLOCK_DIM) => scratch.store (tid * nb + u : ℕ)
        (BitVec.ofNat 32 (blockHist (digitAt keys m bitStart) n tid u)) := by
  simp only [radixHist, Fetch.bind_apply, Fetch.lanes_apply, Fetch.pure_apply]
  apply List.map_congr_left
  intro tid _
  rw [histSlot_eq hu h]
  congr 2
  apply count_congr
  intro t ht
  rw [laneDigit, paddedDigit]
  simp only [lane_natCast, Int.ofNat_lt]
  split_ifs with hi
  · rfl
  · rfl

theorem mem_radixHist_writes {m : Memory τ} (h : nb * BLOCK_DIM < 2 ^ 31) (hu : u < nb)
    {wr : Write τ} (hw : wr ∈ ((radixHist keys scratch n nb bitStart).body u m).1) :
    ∃ tid : Fin BLOCK_DIM, wr = scratch.store (tid * nb + u : ℕ)
      (BitVec.ofNat 32 (blockHist (digitAt keys m bitStart) n tid u)) := by
  rw [radixHist_writes m h hu] at hw
  obtain ⟨tid, _, rfl⟩ := List.mem_map.mp hw
  exact ⟨tid, rfl⟩

theorem radixHist_independent (n bitStart : ℕ) (m : Memory τ) (hne : keys.buffer ≠ scratch.buffer)
    (h : nb * BLOCK_DIM < 2 ^ 31) : (radixHist keys scratch n nb bitStart).Independent m := by
  constructor
  · intro u hu m' hm
    have hkeys : ∀ i, keys.load i m' = keys.load i m := by
      intro i
      rw [View.load_apply, View.load_apply, View.get, View.get, hm]
      rintro v hv _ ⟨wr, hw, hbuf, _⟩
      have hv' : v < nb := by rwa [← launch_units h]
      obtain ⟨tid, rfl⟩ := mem_radixHist_writes h hv' hw
      exact hne hbuf.symm
    simp only [radixHist, Fetch.bind_apply, Fetch.lanes_apply, Fetch.pure_apply]
    have hlane : ∀ tid : Fin BLOCK_DIM,
        (if ((u : ℤ) * BLOCK_DIM + tid) < n then (radixDigit · bitStart) <$> keys.load
          ((u : ℤ) * BLOCK_DIM + tid) else pure RADIX_DIGITS : Fetch τ ℕ) m' =
        (if ((u : ℤ) * BLOCK_DIM + tid) < n then (radixDigit · bitStart) <$> keys.load
          ((u : ℤ) * BLOCK_DIM + tid) else pure RADIX_DIGITS : Fetch τ ℕ) m := by
      intro tid
      split_ifs
      · rw [Fetch.map_apply, Fetch.map_apply, hkeys]
      · rfl
    simp only [hlane]
  · rintro u hu v hv b i ⟨wr, hw, _, hi⟩ ⟨wr', hw', _, hi'⟩
    have hu' : u < nb := by rwa [← launch_units h]
    have hv' : v < nb := by rwa [← launch_units h]
    obtain ⟨tid, rfl⟩ := mem_radixHist_writes h hu' hw
    obtain ⟨tid', rfl⟩ := mem_radixHist_writes h hv' hw'
    have hslot : ((tid * nb + u : ℕ) : ℤ) = (tid' * nb + v : ℕ) := hi.trans hi'.symm
    exact (slot_injective hu' hv' (Int.ofNat_inj.mp hslot)).2

theorem radixHist_get [DecidableEq β] (d : Device τ) (hne : keys.buffer ≠ scratch.buffer)
    (h : nb * BLOCK_DIM < 2 ^ 31) (hu : u < nb) (tid : Fin BLOCK_DIM) :
    scratch.get ((radixHist keys scratch n nb bitStart).run d).mem (tid * nb + u : ℕ) =
      BitVec.ofNat 32 (blockHist (digitAt keys d.mem bitStart) n tid u) := by
  have hdone := (radixHist_independent n bitStart d.mem hne h).done
  have hunits : (radixHist keys scratch n nb bitStart).units = nb := launch_units h
  rw [hunits] at hdone
  have hmem : scratch.store (tid * nb + u : ℕ)
      (BitVec.ofNat 32 (blockHist (digitAt keys d.mem bitStart) n tid u)) ∈
        ((radixHist keys scratch n nb bitStart).body u d.mem).1 := by
    rw [radixHist_writes d.mem h hu]
    exact List.mem_map.mpr ⟨tid, List.mem_finRange tid, rfl⟩
  have htouch := hdone.touched u hu scratch.buffer (tid * nb + u : ℕ) ⟨_, hmem, rfl, rfl⟩
  have hvalue := Memory.writes_self d.mem hmem ?_
  · rw [View.get, htouch]
    exact (congrArg scratch.decode hvalue).trans (scratch.decode_encode _)
  · rintro wr hw ⟨_, hi⟩
    obtain ⟨tid', rfl⟩ := mem_radixHist_writes h hu hw
    rw [(slot_injective hu hu (Int.ofNat_inj.mp hi)).1]

theorem radixHist_frame [DecidableEq β] (d : Device τ) (hne : keys.buffer ≠ scratch.buffer)
    (h : nb * BLOCK_DIM < 2 ^ 31) : ∀ b (i : ℤ), b ≠ scratch.buffer →
      ((radixHist keys scratch n nb bitStart).run d).mem b i = d.mem b i := by
  intro b i hb
  apply (radixHist_independent n bitStart d.mem hne h).done.untouched
  rintro u hu ⟨wr, hw, hbuf, _⟩
  have hu' : u < nb := by rwa [← launch_units h]
  obtain ⟨tid, rfl⟩ := mem_radixHist_writes h hu' hw
  exact hb hbuf.symm

end hist

section scatter

variable {V : Type} {keysIn keysOut : View τ (BitVec w)} {valuesIn valuesOut : View τ V}
  {scratch : View τ (BitVec 32)} {hasValues : Bool}

variable {m : Memory τ} {tid : Fin BLOCK_DIM} {u : ℕ}

theorem loadInRange_of_lt {α : Type} (src : View τ α) (m : Memory τ)
    (hi : u * BLOCK_DIM + tid < n) : loadInRange src n u tid m =
      (some (src.get m (u * BLOCK_DIM + tid : ℕ)),
        [(src.buffer, ((u * BLOCK_DIM + tid : ℕ) : ℤ))]) := by
  simp only [loadInRange, lane_natCast, Int.ofNat_lt, if_pos hi, Fetch.map_apply, View.load_apply]

theorem loadInRange_of_le {α : Type} (src : View τ α) (m : Memory τ)
    (hi : n ≤ u * BLOCK_DIM + tid) : loadInRange src n u tid m = (none, []) := by
  simp only [loadInRange, lane_natCast, Int.ofNat_lt, if_neg (Nat.not_lt.mpr hi), Fetch.pure_apply]

/-- The scanned histograms: the slot of a digit and a block holds the number of keys that are to
stand before the keys of that digit in that block. -/
def Scanned (key : ℕ → ℕ) (scratch : View τ (BitVec 32)) (n nb : ℕ) (m : Memory τ) : Prop :=
  ∀ d < RADIX_DIGITS, ∀ b < nb, scratch.get m (d * nb + b : ℕ) =
    BitVec.ofNat 32 (Nat.count (fun i => paddedDigit key n i < d) (nb * BLOCK_DIM) +
      Nat.count (fun i => paddedDigit key n i = d) (b * BLOCK_DIM))

theorem scatterIndex_eq {digit : Fin BLOCK_DIM → ℕ} {P c : ℕ}
    (hc : Nat.count (fun t => laneDigit digit t = digit tid) tid = c) (h : P + c < 2 ^ 31) :
    scatterIndex digit (BitVec.ofNat 32 P) tid = (P + c : ℕ) := by
  rw [scatterIndex, radixRank, hc, BitVec.ofNat_add, ← BitVec.add_assoc, BitVec.sub_add_cancel,
    ← BitVec.ofNat_add, toInt_ofNat_of_lt h]

def blockDigit (keysIn : View τ (BitVec w)) (n bitStart u : ℕ) (m : Memory τ)
    (tid : Fin BLOCK_DIM) : ℕ :=
  radixDigit ((loadInRange keysIn n u tid m).1.getD (BitVec.allOnes w)) bitStart

theorem blockDigit_of_lt (hi : u * BLOCK_DIM + tid < n) :
    blockDigit keysIn n bitStart u m tid = digitAt keysIn m bitStart (u * BLOCK_DIM + tid) := by
  rw [blockDigit, loadInRange_of_lt keysIn m hi]
  rfl

theorem scatterIndex_eq_place (hscanned : Scanned (digitAt keysIn m bitStart) scratch n nb m)
    (hn : n ≤ nb * BLOCK_DIM) (h : nb * BLOCK_DIM < 2 ^ 31) (hu : u < nb)
    (hi : u * BLOCK_DIM + tid < n) : scatterIndex (blockDigit keysIn n bitStart u m)
        (scratch.get m (blockDigit keysIn n bitStart u m tid * nb + u : ℕ)) tid =
      (place (digitAt keysIn m bitStart) n (u * BLOCK_DIM + tid) : ℕ) := by
  have hdigit : digitAt keysIn m bitStart (u * BLOCK_DIM + tid) < RADIX_DIGITS := radixDigit_lt _ _
  have hlanes : Nat.count (fun t => laneDigit (blockDigit keysIn n bitStart u m) t =
      blockDigit keysIn n bitStart u m tid) tid =
        Nat.count (fun t => digitAt keysIn m bitStart (u * BLOCK_DIM + t) =
          digitAt keysIn m bitStart (u * BLOCK_DIM + tid)) tid := by
    apply count_congr
    intro t ht
    rw [laneDigit, dif_pos (ht.trans tid.isLt), blockDigit_of_lt hi,
      blockDigit_of_lt (show u * BLOCK_DIM + t < n by omega)]
  have hplace : place (digitAt keysIn m bitStart) n (u * BLOCK_DIM + tid) =
      Nat.count (fun i => paddedDigit (digitAt keysIn m bitStart) n i <
          digitAt keysIn m bitStart (u * BLOCK_DIM + tid)) (nb * BLOCK_DIM) +
        Nat.count (fun i => paddedDigit (digitAt keysIn m bitStart) n i =
          digitAt keysIn m bitStart (u * BLOCK_DIM + tid)) (u * BLOCK_DIM) +
        Nat.count (fun t => digitAt keysIn m bitStart (u * BLOCK_DIM + t) =
          digitAt keysIn m bitStart (u * BLOCK_DIM + tid)) tid := by
    rw [place, count_padded_lt hdigit.le hn, count_padded_eq (by omega), Nat.count_add,
      Nat.add_assoc]
  have hlt : place (digitAt keysIn m bitStart) n (u * BLOCK_DIM + tid) < n := place_lt hi
  rw [blockDigit_of_lt hi] at hlanes ⊢
  rw [hscanned _ hdigit u hu, hplace]
  apply scatterIndex_eq
  · rw [blockDigit_of_lt hi]
    exact hlanes
  · omega

def laneWrites (keysIn keysOut : View τ (BitVec w)) (valuesIn valuesOut : View τ V)
    (scratch : View τ (BitVec 32)) (n nb bitStart : ℕ) (hasValues : Bool) (u : ℕ) (m : Memory τ)
    (tid : Fin BLOCK_DIM) : List (Write τ) :=
  let dst := scatterIndex (blockDigit keysIn n bitStart u m)
    (scratch.get m (histSlot nb u ⟨blockDigit keysIn n bitStart u m tid, radixDigit_lt _ _⟩)) tid
  (loadInRange keysIn n u tid m).1.toList.map (keysOut.store dst) ++
    (loadValue valuesIn hasValues n u tid m).1.toList.map (valuesOut.store dst)

theorem radixScatter_writes (m : Memory τ) (u : ℕ) :
    ((radixScatter keysIn keysOut valuesIn valuesOut scratch n nb bitStart hasValues).body u m).1 =
      (List.finRange BLOCK_DIM).flatMap
        (laneWrites keysIn keysOut valuesIn valuesOut scratch n nb bitStart hasValues u m) := by
  rfl

def IsStore (keysIn keysOut : View τ (BitVec w)) (valuesIn valuesOut : View τ V) (n bitStart : ℕ)
    (hasValues : Bool) (m : Memory τ) (i : ℕ) (wr : Write τ) : Prop :=
  wr = keysOut.store (place (digitAt keysIn m bitStart) n i : ℕ) (keysIn.get m i) ∨
    hasValues = true ∧
      wr = valuesOut.store (place (digitAt keysIn m bitStart) n i : ℕ) (valuesIn.get m i)

theorem mem_radixScatter_writes
    (hscanned : Scanned (digitAt keysIn m bitStart) scratch n nb m) (hn : n ≤ nb * BLOCK_DIM)
    (h : nb * BLOCK_DIM < 2 ^ 31) (hu : u < nb) {wr : Write τ} :
    wr ∈ ((radixScatter keysIn keysOut valuesIn valuesOut scratch n nb bitStart hasValues).body u
        m).1 ↔
      ∃ tid : Fin BLOCK_DIM, u * BLOCK_DIM + tid < n ∧
        IsStore keysIn keysOut valuesIn valuesOut n bitStart hasValues m
          (u * BLOCK_DIM + tid) wr := by
  have hlane : ∀ tid : Fin BLOCK_DIM,
      wr ∈ laneWrites keysIn keysOut valuesIn valuesOut scratch n nb bitStart hasValues u m tid ↔
        u * BLOCK_DIM + tid < n ∧
          IsStore keysIn keysOut valuesIn valuesOut n bitStart hasValues m
            (u * BLOCK_DIM + tid) wr := by
    intro tid
    rcases Nat.lt_or_ge (u * BLOCK_DIM + tid) n with hi | hi
    · simp only [laneWrites]
      rw [histSlot_eq hu h, scatterIndex_eq_place hscanned hn h hu hi, loadInRange_of_lt keysIn m hi,
        loadValue]
      cases hasValues with
      | false => simp [hi, IsStore]
      | true => simp [hi, IsStore, loadInRange_of_lt valuesIn m hi]
    · simp only [laneWrites]
      rw [loadInRange_of_le keysIn m hi, loadValue]
      cases hasValues with
      | false => simp [Nat.not_lt.mpr hi]
      | true => simp [Nat.not_lt.mpr hi, loadInRange_of_le valuesIn m hi]
  rw [radixScatter_writes]
  simp [hlane]

theorem loadInRange_congr {α : Type} {src : View τ α} {m' : Memory τ}
    (hm : ∀ i, m' src.buffer i = m src.buffer i) (u : ℕ) (tid : Fin BLOCK_DIM) :
    loadInRange src n u tid m' = loadInRange src n u tid m := by
  rcases Nat.lt_or_ge (u * BLOCK_DIM + tid) n with hi | hi
  · rw [loadInRange_of_lt src m hi, loadInRange_of_lt src m' hi, View.get, View.get, hm]
  · rw [loadInRange_of_le src m hi, loadInRange_of_le src m' hi]

theorem loadValue_congr {α : Type} {src : View τ α} {m' : Memory τ}
    (hm : ∀ i, m' src.buffer i = m src.buffer i) (u : ℕ) (tid : Fin BLOCK_DIM) :
    loadValue src hasValues n u tid m' = loadValue src hasValues n u tid m := by
  cases hasValues with
  | false => rfl
  | true => exact loadInRange_congr hm u tid

structure Separate (keysIn keysOut : View τ (BitVec w)) (valuesIn valuesOut : View τ V)
    (scratch : View τ (BitVec 32)) : Prop where
  keys_keys : keysIn.buffer ≠ keysOut.buffer
  keys_values : keysIn.buffer ≠ valuesOut.buffer
  values_keys : valuesIn.buffer ≠ keysOut.buffer
  values_values : valuesIn.buffer ≠ valuesOut.buffer
  scratch_keys : scratch.buffer ≠ keysOut.buffer
  scratch_values : scratch.buffer ≠ valuesOut.buffer
  keysIn_scratch : keysIn.buffer ≠ scratch.buffer
  valuesIn_scratch : valuesIn.buffer ≠ scratch.buffer
  out : keysOut.buffer ≠ valuesOut.buffer

theorem radixScatter_independent (hasValues : Bool)
    (sep : Separate keysIn keysOut valuesIn valuesOut scratch)
    (hscanned : Scanned (digitAt keysIn m bitStart) scratch n nb m) (hn : n ≤ nb * BLOCK_DIM)
    (h : nb * BLOCK_DIM < 2 ^ 31) :
    (radixScatter keysIn keysOut valuesIn valuesOut scratch n nb bitStart hasValues).Independent
      m := by
  have hunits : (radixScatter keysIn keysOut valuesIn valuesOut scratch n nb bitStart
      hasValues).units = nb := launch_units h
  have hwrites : ∀ u < nb, ∀ b i, (radixScatter keysIn keysOut valuesIn valuesOut scratch n nb
      bitStart hasValues).Touches m u b i →
        (b = keysOut.buffer ∨ b = valuesOut.buffer) ∧ ∃ tid < BLOCK_DIM, u * BLOCK_DIM + tid < n ∧
          i = (place (digitAt keysIn m bitStart) n (u * BLOCK_DIM + tid) : ℕ) := by
    rintro u hu b i ⟨wr, hw, rfl, rfl⟩
    obtain ⟨tid, hi, rfl | ⟨_, rfl⟩⟩ := (mem_radixScatter_writes hscanned hn h hu).mp hw
    · exact ⟨Or.inl rfl, tid, tid.isLt, hi, rfl⟩
    · exact ⟨Or.inr rfl, tid, tid.isLt, hi, rfl⟩
  constructor
  · intro u _ m' hm
    have hsame : ∀ b, b ≠ keysOut.buffer → b ≠ valuesOut.buffer → ∀ i, m' b i = m b i := by
      intro b hk hv i
      apply hm
      intro v hv' _ ht
      rw [hunits] at hv'
      rcases (hwrites v hv' b i ht).1 with hb | hb
      · exact hk hb
      · exact hv hb
    have hkeys := hsame _ sep.keys_keys sep.keys_values
    have hvalues := hsame _ sep.values_keys sep.values_values
    have hscratch := hsame _ sep.scratch_keys sep.scratch_values
    simp [radixScatter, View.get, loadInRange_congr hkeys, loadValue_congr hvalues, hscratch]
  · intro u hu v hv b i htu htv
    rw [hunits] at hu hv
    obtain ⟨_, tid, htid, hi, hplace⟩ := hwrites u hu b i htu
    obtain ⟨_, tid', htid', hi', hplace'⟩ := hwrites v hv b i htv
    have hindex := place_injective hi hi' (Int.ofNat_inj.mp (hplace.symm.trans hplace'))
    simp only [BLOCK_DIM] at hindex htid htid'
    omega

theorem radixScatter_get [DecidableEq β] (hasValues : Bool)
    (sep : Separate keysIn keysOut valuesIn valuesOut scratch) {d : Device τ}
    (hscanned : Scanned (digitAt keysIn d.mem bitStart) scratch n nb d.mem)
    (hn : n ≤ nb * BLOCK_DIM) (h : nb * BLOCK_DIM < 2 ^ 31) {j : ℕ} (hj : j < n) :
    keysOut.get ((radixScatter keysIn keysOut valuesIn valuesOut scratch n nb bitStart
        hasValues).run d).mem (place (digitAt keysIn d.mem bitStart) n j : ℕ) = keysIn.get d.mem j ∧
      (hasValues = true →
        valuesOut.get ((radixScatter keysIn keysOut valuesIn valuesOut scratch n nb bitStart
          hasValues).run d).mem (place (digitAt keysIn d.mem bitStart) n j : ℕ) =
          valuesIn.get d.mem j) := by
  obtain ⟨l, hl⟩ : ∃ l, l =
    radixScatter keysIn keysOut valuesIn valuesOut scratch n nb bitStart hasValues := ⟨_, rfl⟩
  obtain ⟨u, tid, hu, rfl⟩ : ∃ u, ∃ tid : Fin BLOCK_DIM, u < nb ∧ j = u * BLOCK_DIM + tid := by
    refine ⟨j / BLOCK_DIM, ⟨j % BLOCK_DIM, Nat.mod_lt j (by decide)⟩, ?_, ?_⟩
    · exact Nat.div_lt_of_lt_mul (by rw [Nat.mul_comm]; omega)
    · exact (Nat.div_add_mod' j BLOCK_DIM).symm
  have hdone : l.Done d (l.run d) nb := by
    have hdone := (radixScatter_independent hasValues sep hscanned hn h).done
    rw [← hl] at hdone
    have hunits : l.units = nb := by
      rw [hl]
      exact launch_units h
    rwa [hunits] at hdone
  have hmem : ∀ wr, wr ∈ (l.body u d.mem).1 ↔ ∃ tid : Fin BLOCK_DIM, u * BLOCK_DIM + tid < n ∧
      IsStore keysIn keysOut valuesIn valuesOut n bitStart hasValues d.mem
        (u * BLOCK_DIM + tid) wr := by
    intro wr
    rw [hl]
    exact mem_radixScatter_writes hscanned hn h hu
  have hsame : ∀ {tid' : Fin BLOCK_DIM}, u * BLOCK_DIM + tid' < n →
      ((place (digitAt keysIn d.mem bitStart) n (u * BLOCK_DIM + tid') : ℕ) : ℤ) =
        (place (digitAt keysIn d.mem bitStart) n (u * BLOCK_DIM + tid) : ℕ) → tid' = tid := by
    intro tid' hi hplace
    have hindex := place_injective hi hj (Int.ofNat_inj.mp hplace)
    exact Fin.ext (by omega)
  have hcell : ∀ wr ∈ (l.body u d.mem).1,
      (∀ wr' ∈ (l.body u d.mem).1, wr'.at wr.buffer wr.index → wr' = wr) →
        (l.run d).mem wr.buffer wr.index = wr.value := by
    intro wr hw huniq
    rw [hdone.touched u hu _ _ ⟨wr, hw, rfl, rfl⟩]
    exact Memory.writes_self d.mem hw huniq
  rw [← hl]
  refine ⟨?_, ?_⟩
  · have hvalue := hcell _ ((hmem _).mpr ⟨tid, hj, Or.inl rfl⟩) ?_
    · exact (congrArg keysOut.decode hvalue).trans (keysOut.decode_encode _)
    · rintro wr' hw' ⟨hbuf, hindex⟩
      obtain ⟨tid', hi, rfl | ⟨_, rfl⟩⟩ := (hmem _).mp hw'
      · rw [hsame hi hindex]
      · exact absurd hbuf.symm sep.out
  · intro hv
    have hvalue := hcell _ ((hmem _).mpr ⟨tid, hj, Or.inr ⟨hv, rfl⟩⟩) ?_
    · exact (congrArg valuesOut.decode hvalue).trans (valuesOut.decode_encode _)
    · rintro wr' hw' ⟨hbuf, hindex⟩
      obtain ⟨tid', hi, rfl | ⟨_, rfl⟩⟩ := (hmem _).mp hw'
      · exact absurd hbuf sep.out
      · rw [hsame hi hindex]

end scatter

section pass

variable {V : Type} {keysIn keysOut : View τ (BitVec w)} {valuesIn valuesOut : View τ V}
  {scratch : View τ (BitVec 32)} {hasValues : Bool}

theorem emitExclusiveScanAdd_eq (buf : View τ (BitVec 32)) (off n : ℤ) (levels : ℕ) :
    emitExclusiveScanAdd buf off n levels = emitScanInplace addU32 buf off n levels := by
  induction levels generalizing off n with
  | zero => rfl
  | succ levels ih =>
    rw [emitExclusiveScanAdd, ih]
    rfl

section scan

variable [DecidableEq β] (d : Device τ) (hne : keysIn.buffer ≠ scratch.buffer) {levels : ℕ}
  (hfit : nb * BLOCK_DIM ≤ BLOCK_DIM ^ (levels + 1))
  (h : nb * BLOCK_DIM + partials (nb * BLOCK_DIM) levels < 2 ^ 31)
include hne hfit h

theorem histScan_get {i : ℕ} (hi : i < nb * BLOCK_DIM) :
    scratch.get (runAll (emitExclusiveScanAdd scratch (0 : ℕ) (nb * BLOCK_DIM : ℕ) levels)
        ((radixHist keysIn scratch n nb bitStart).run d)).mem i =
      BitVec.ofNat 32 (natAdd.fold
        (fun j => blockHist (digitAt keysIn d.mem bitStart) n (j / nb) (j % nb)) 0 i) := by
  have hlen : nb * BLOCK_DIM < 2 ^ 31 := by omega
  have hfit0 : 0 + nb * BLOCK_DIM + partials (nb * BLOCK_DIM) levels < 2 ^ 31 := by omega
  have hspec := (emitScanInplace_spec addU32 scratch levels
    ((radixHist keysIn scratch n nb bitStart).run d) hfit hfit0).1 i hi
  rw [← emitExclusiveScanAdd_eq, Nat.zero_add] at hspec
  rw [hspec, ← fold_ofNat]
  apply fold_congr
  intro j hj
  have hnb : 0 < nb := Nat.pos_of_mul_pos_right (Nat.lt_of_le_of_lt (Nat.zero_le i) hi)
  have hdiv : j / nb < BLOCK_DIM := Nat.div_lt_of_lt_mul (by omega)
  have hget : scratch.get ((radixHist keysIn scratch n nb bitStart).run d).mem
      (j / nb * nb + j % nb : ℕ) = BitVec.ofNat 32
        (blockHist (digitAt keysIn d.mem bitStart) n (j / nb) (j % nb)) :=
    radixHist_get d hne hlen (Nat.mod_lt j hnb) ⟨j / nb, hdiv⟩
  rw [Nat.div_add_mod' j nb] at hget
  simpa only [Nat.zero_add] using hget

theorem histScan_scanned : Scanned (digitAt keysIn d.mem bitStart) scratch n nb
      (runAll (emitExclusiveScanAdd scratch (0 : ℕ) (nb * BLOCK_DIM : ℕ) levels)
        ((radixHist keysIn scratch n nb bitStart).run d)).mem := by
  intro dg hdg b hb
  have hslot : dg * nb + b < nb * BLOCK_DIM := slot_lt hb ⟨dg, hdg⟩
  rw [histScan_get d hne hfit h hslot, sum_histograms hdg hb]
  intro d' _ b' hb'
  have hdiv : (d' * nb + b') / nb = d' := by
    rw [Nat.mul_comm, Nat.mul_add_div (by omega), Nat.div_eq_of_lt hb', Nat.add_zero]
  have hmod : (d' * nb + b') % nb = b' := by
    rw [Nat.mul_comm, Nat.mul_add_mod, Nat.mod_eq_of_lt hb']
  rw [hdiv, hmod]

theorem histScan_frame {b : β} (hb : b ≠ scratch.buffer) (i : ℤ) :
    (runAll (emitExclusiveScanAdd scratch (0 : ℕ) (nb * BLOCK_DIM : ℕ) levels)
      ((radixHist keysIn scratch n nb bitStart).run d)).mem b i = d.mem b i := by
  have hfit0 : 0 + nb * BLOCK_DIM + partials (nb * BLOCK_DIM) levels < 2 ^ 31 := by omega
  have hspec := (emitScanInplace_spec addU32 scratch levels
    ((radixHist keysIn scratch n nb bitStart).run d) hfit hfit0).2
  rw [emitExclusiveScanAdd_eq, hspec b i fun hbuf => absurd hbuf hb]
  exact radixHist_frame d hne (by omega) b i hb

end scan

def passLaunches (keysIn keysOut : View τ (BitVec w)) (valuesIn valuesOut : View τ V)
    (scratch : View τ (BitVec 32)) (n nb bitStart : ℕ) (hasValues : Bool) (levels : ℕ) :
    List (Launch τ) :=
  radixHist keysIn scratch n nb bitStart ::
    (emitExclusiveScanAdd scratch (0 : ℕ) (nb * BLOCK_DIM : ℕ) levels ++
      [radixScatter keysIn keysOut valuesIn valuesOut scratch n nb bitStart hasValues])

theorem passLaunches_get [DecidableEq β]
    (sep : Separate keysIn keysOut valuesIn valuesOut scratch) (d d' : Device τ)
    (hn : n ≤ nb * BLOCK_DIM) {levels : ℕ} (hfit : nb * BLOCK_DIM ≤ BLOCK_DIM ^ (levels + 1))
    (h : nb * BLOCK_DIM + partials (nb * BLOCK_DIM) levels < 2 ^ 31)
    (hd' : d' = runAll (passLaunches keysIn keysOut valuesIn valuesOut scratch n nb bitStart
      hasValues levels) d) {j : ℕ} (hj : j < n) :
    keysOut.get d'.mem (place (digitAt keysIn d.mem bitStart) n j : ℕ) = keysIn.get d.mem j ∧
      (hasValues = true → valuesOut.get d'.mem (place (digitAt keysIn d.mem bitStart) n j : ℕ) =
          valuesIn.get d.mem j) := by
  obtain ⟨d2, hd2⟩ : ∃ d2, d2 = runAll (emitExclusiveScanAdd scratch (0 : ℕ)
    (nb * BLOCK_DIM : ℕ) levels) ((radixHist keysIn scratch n nb bitStart).run d) := ⟨_, rfl⟩
  rw [passLaunches, runAll_cons, runAll_append, runAll_cons, runAll_nil, ← hd2] at hd'
  have hframe : ∀ b, b ≠ scratch.buffer → ∀ i, d2.mem b i = d.mem b i := by
    intro b hb i
    rw [hd2]
    exact histScan_frame d sep.keysIn_scratch hfit h hb i
  have hkeys : ∀ i : ℤ, keysIn.get d2.mem i = keysIn.get d.mem i := by
    intro i
    rw [View.get, View.get, hframe _ sep.keysIn_scratch]
  have hvalues : valuesIn.get d2.mem j = valuesIn.get d.mem j := by
    rw [View.get, View.get, hframe _ sep.valuesIn_scratch]
  have hdigit : digitAt keysIn d2.mem bitStart = digitAt keysIn d.mem bitStart := by
    funext i
    rw [digitAt, digitAt, hkeys]
  have hscanned : Scanned (digitAt keysIn d2.mem bitStart) scratch n nb d2.mem := by
    rw [hdigit, hd2]
    exact histScan_scanned d sep.keysIn_scratch hfit h
  have hget := radixScatter_get hasValues sep hscanned hn (by omega) hj
  rw [← hd', hdigit, hkeys, hvalues] at hget
  exact hget

end pass

end phases

end Quadrants.Algorithms
