import Mathlib.Data.Fintype.EquivFin
import Mathlib.Data.List.Sort
import Mathlib.Data.Nat.Count

namespace Quadrants.Library.StableSort

open List Nat

section place

/-- Where a stable sort by `key` puts element `j` of `n`: after the elements of smaller key and
after the earlier elements of the same key. -/
def place (key : ℕ → ℕ) (n j : ℕ) : ℕ :=
  Nat.count (fun i => key i < key j) n + Nat.count (fun i => key i = key j) j

/-- `i` comes before `j` when sorted by `key`, ties in the order of the indices. -/
def Before (key : ℕ → ℕ) (i j : ℕ) : Prop := key i < key j ∨ key i = key j ∧ i < j

variable {key : ℕ → ℕ} {n : ℕ}

theorem count_congr {p q : ℕ → Prop} [DecidablePred p] [DecidablePred q] {n : ℕ}
    (h : ∀ i < n, p i ↔ q i) : Nat.count p n = Nat.count q n :=
  Nat.le_antisymm (count_mono_left fun i hi => (h i hi).mp)
    (count_mono_left fun i hi => (h i hi).mpr)

theorem count_lt_add_count_eq (key : ℕ → ℕ) (c n : ℕ) :
    Nat.count (fun i => key i < c) n + Nat.count (fun i => key i = c) n =
      Nat.count (fun i => key i < c + 1) n := by
  induction n with
  | zero => simp
  | succ n ih =>
    simp only [count_succ]
    split_ifs <;> omega

variable {i j : ℕ}

theorem place_lt_count (hj : j < n) : place key n j < Nat.count (fun i => key i < key j + 1) n := by
  have hstrict : Nat.count (fun i => key i = key j) j < Nat.count (fun i => key i = key j) n :=
    count_strict_mono rfl hj
  have hsum := count_lt_add_count_eq key (key j) n
  rw [place]
  omega

theorem place_lt (hj : j < n) : place key n j < n :=
  Nat.lt_of_lt_of_le (place_lt_count hj) (count_le _)

theorem place_lt_place (hi : i < n) (h : Before key i j) : place key n i < place key n j := by
  rcases h with h | ⟨h, hij⟩
  · have hmono : Nat.count (fun k => key k < key i + 1) n ≤ Nat.count (fun k => key k < key j) n :=
      count_mono_left fun k _ hk => by omega
    have hi' : place key n i < Nat.count (fun k => key k < key i + 1) n := place_lt_count hi
    simp only [place] at *
    omega
  · have hstrict : Nat.count (fun k => key k = key j) i < Nat.count (fun k => key k = key j) j :=
      count_strict_mono h hij
    rw [place, place, h]
    omega

theorem before_trichotomy (key : ℕ → ℕ) (i j : ℕ) : Before key i j ∨ i = j ∨ Before key j i := by
  simp only [Before]
  omega

theorem Before.irrefl {key : ℕ → ℕ} : ¬ Before key i i := by
  simp only [Before]
  omega

theorem before_of_place_lt (hj : j < n) (h : place key n i < place key n j) : Before key i j := by
  rcases before_trichotomy key i j with hb | rfl | hb
  · exact hb
  · omega
  · have := place_lt_place hj hb
    omega

theorem place_injective (hi : i < n) (hj : j < n) (h : place key n i = place key n j) : i = j := by
  rcases before_trichotomy key i j with hb | heq | hb
  · have := place_lt_place hi hb
    omega
  · exact heq
  · have := place_lt_place hj hb
    omega

theorem place_congr {key' : ℕ → ℕ} (h : ∀ i < n, key i = key' i) (hj : j < n) :
    place key n j = place key' n j := by
  rw [place, h j hj]
  congr 1
  · apply count_congr
    intro i hi
    rw [h i hi]
  · apply count_congr
    intro i hi
    rw [h i (hi.trans hj)]

theorem exists_place_eq (key : ℕ → ℕ) {k : ℕ} (hk : k < n) : ∃ j < n, place key n j = k := by
  let f : Fin n → Fin n := fun j => ⟨place key n j, place_lt j.isLt⟩
  have hinj : Function.Injective f := fun i j h =>
    Fin.ext (place_injective i.isLt j.isLt (congrArg Fin.val h))
  obtain ⟨j, hj⟩ := (Finite.injective_iff_surjective.mp hinj) ⟨k, hk⟩
  exact ⟨j, j.isLt, congrArg Fin.val hj⟩

theorem place_perm (key : ℕ → ℕ) (n : ℕ) : ((range n).map (place key n)).Perm (range n) := by
  have hnodup : ((range n).map (place key n)).Nodup := by
    refine (nodup_map_iff_inj_on nodup_range).mpr ?_
    intro i hi j hj h
    exact place_injective (mem_range.mp hi) (mem_range.mp hj) h
  have hsubset : (range n).map (place key n) ⊆ range n := by
    intro k hk
    obtain ⟨j, hj, rfl⟩ := mem_map.mp hk
    exact mem_range.mpr (place_lt (mem_range.mp hj))
  exact (subperm_of_subset hnodup hsubset).perm_of_length_le (by simp)

end place

structure Arranges (key : ℕ → ℕ) (n : ℕ) (σ : ℕ → ℕ) : Prop where
  bound : ∀ k < n, σ k < n
  ordered : ∀ a b, a < b → b < n → Before key (σ a) (σ b)

section arranges

variable {n : ℕ} {σ : ℕ → ℕ}

theorem arranges_id (n : ℕ) : Arranges (fun _ => 0) n id :=
  ⟨fun _ hk => hk, fun _ _ hab _ => Or.inr ⟨rfl, hab⟩⟩

theorem before_digit {low digit : ℕ → ℕ} {B i j : ℕ} (hlow : low i < B)
    (h : digit i < digit j ∨ digit i = digit j ∧ Before low i j) :
    Before (fun i => digit i * B + low i) i j := by
  rcases h with h | ⟨h, hl | ⟨hl, hij⟩⟩
  · left
    have hmul : (digit i + 1) * B ≤ digit j * B := Nat.mul_le_mul_right B h
    rw [succ_mul] at hmul
    change digit i * B + low i < digit j * B + low j
    omega
  · left
    change digit i * B + low i < digit j * B + low j
    rw [h]
    omega
  · right
    change digit i * B + low i = digit j * B + low j ∧ i < j
    rw [h, hl]
    exact ⟨rfl, hij⟩

theorem Arranges.pass {low : ℕ → ℕ} {B : ℕ} (h : Arranges low n σ) (hlow : ∀ i, low i < B)
    (digit : ℕ → ℕ) : ∃ σ', Arranges (fun i => digit i * B + low i) n σ' ∧
      ∀ k < n, σ' (place (fun k => digit (σ k)) n k) = σ k := by
  have hsurj : ∀ q, ∃ k, q < n → k < n ∧ place (fun k => digit (σ k)) n k = q := by
    intro q
    rcases Nat.lt_or_ge q n with hq | hq
    · obtain ⟨k, hk, hkq⟩ := exists_place_eq (fun k => digit (σ k)) hq
      exact ⟨k, fun _ => ⟨hk, hkq⟩⟩
    · exact ⟨0, fun hq' => by omega⟩
  choose source hsource using hsurj
  refine ⟨fun q => σ (source q), ⟨?_, ?_⟩, ?_⟩
  · intro q hq
    exact h.bound _ (hsource q hq).1
  · intro a b hab hb
    obtain ⟨hka, hpa⟩ := hsource a (by omega)
    obtain ⟨hkb, hpb⟩ := hsource b hb
    have hplace : place (fun k => digit (σ k)) n (source a) <
        place (fun k => digit (σ k)) n (source b) := by omega
    apply before_digit (hlow _)
    rcases before_of_place_lt hkb hplace with hdigit | ⟨hdigit, hlt⟩
    · exact Or.inl hdigit
    · exact Or.inr ⟨hdigit, h.ordered _ _ hlt hkb⟩
  · intro k hk
    obtain ⟨hsrc, hplace⟩ := hsource (place (fun k => digit (σ k)) n k) (place_lt hk)
    exact congrArg σ (place_injective hsrc hk hplace)

theorem Arranges.perm {key : ℕ → ℕ} (h : Arranges key n σ) : ((range n).map σ).Perm (range n) := by
  have hnodup : ((range n).map σ).Nodup := by
    refine (nodup_map_iff_inj_on nodup_range).mpr ?_
    intro a ha b hb hab
    rw [mem_range] at ha hb
    rcases Nat.lt_trichotomy a b with hlt | heq | hlt
    · have hbefore := h.ordered a b hlt hb
      rw [hab] at hbefore
      exact absurd hbefore Before.irrefl
    · exact heq
    · have hbefore := h.ordered b a hlt ha
      rw [hab] at hbefore
      exact absurd hbefore Before.irrefl
  have hsubset : (range n).map σ ⊆ range n := by
    intro i hi
    obtain ⟨k, hk, rfl⟩ := mem_map.mp hi
    exact mem_range.mpr (h.bound k (mem_range.mp hk))
  exact (subperm_of_subset hnodup hsubset).perm_of_length_le (by simp)

theorem Arranges.map_eq_mergeSort {γ : Type} (f : ℕ → γ) (key : γ → ℕ) {σ : ℕ → ℕ}
    (h : Arranges (fun i => key (f i)) n σ) : (range n).map (fun k => f (σ k)) =
      ((range n).map f).mergeSort (fun a b => decide (key a ≤ key b)) := by
  have hzip : ((range n).map f).zipIdx = (range n).map fun i => (f i, i) := by
    apply ext_getElem
    · simp
    · simp
  rw [← mergeSort_zipIdx, hzip]
  have hmap : (range n).map (fun k => f (σ k)) =
      ((range n).map fun k => (f (σ k), σ k)).map (·.1) := by
    simp [map_map, Function.comp_def]
  rw [hmap]
  congr 1
  have htrans : ∀ a b c : γ, decide (key a ≤ key b) → decide (key b ≤ key c) →
      decide (key a ≤ key c) := by
    simp only [decide_eq_true_eq]
    exact fun a b c hab hbc => hab.trans hbc
  have htotal : ∀ a b : γ, decide (key a ≤ key b) || decide (key b ≤ key a) := by
    intro a b
    simp only [Bool.or_eq_true, decide_eq_true_eq]
    exact Nat.le_total _ _
  have hperm : ((range n).map fun k => (f (σ k), σ k)).Perm
      ((range n).map fun i => (f i, i)) := by
    have := h.perm.map fun i => (f i, i)
    simpa [map_map, Function.comp_def] using this
  refine List.Perm.eq_of_pairwise ?_ ?_
    (pairwise_mergeSort (zipIdxLE_trans htrans) (zipIdxLE_total htotal) _)
    (hperm.trans (mergeSort_perm _ _).symm)
  · -- two entries that are below each other have the same index
    intro a b ha hb hab hba
    obtain ⟨i, _, rfl⟩ := mem_map.mp ha
    obtain ⟨j, _, rfl⟩ := mem_map.mp (mem_mergeSort.mp hb)
    simp only [zipIdxLE] at hab hba
    split_ifs at hab hba with hle hge
    · rw [decide_eq_true_eq] at hab hba
      rw [Nat.le_antisymm hab hba]
  · rw [pairwise_map, pairwise_iff_getElem]
    intro a b ha hb hab
    simp only [length_range] at ha hb
    simp only [getElem_range, zipIdxLE]
    rcases h.ordered a b hab hb with hlt | ⟨heq, hlt⟩
    · rw [if_pos (by simpa using hlt.le), if_neg (by simpa using hlt)]
    · rw [if_pos (by simpa using heq.le), if_pos (by simpa using heq.ge)]
      simpa using hlt.le

end arranges

end Quadrants.Library.StableSort
