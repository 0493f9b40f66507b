import Mathlib.Data.List.Nodup
import Mathlib.Data.Nat.Notation
import Mathlib.Tactic.Common

/-!
Loops of threads that start at their own number and advance by the number of threads. The counter
has a type of `limit` values, and a loop whose counter overflows has no result.
-/

namespace Quadrants.Library.StridedLoop

open List Nat Option

section Rounds

variable (limit stride stop : ℕ)

def rounds (i : ℕ) : Option (List ℕ) :=
  if i < limit then
    if i < stop ∧ 0 < stride then (rounds (i + stride)).map (i :: ·) else some []
  else none
  termination_by stop - i

variable {limit stride stop}

theorem add_le_of_mod_eq {i x : ℕ} (hlt : i < x) (h : x % stride = i % stride) :
    i + stride ≤ x := by
  have hdvd : stride ∣ x - i := dvd_of_mod_eq_zero (sub_mod_eq_zero_of_mod_eq h)
  have hle := le_of_dvd (Nat.sub_pos_of_lt hlt) hdvd
  omega

theorem exists_rounds (hstride : 0 < stride) (hfits : stop + stride ≤ limit) (i : ℕ)
    (hi : i < stop + stride) : ∃ l, rounds limit stride stop i = some l ∧ l.Nodup ∧
      ∀ x, x ∈ l ↔ i ≤ x ∧ x < stop ∧ x % stride = i % stride := by
  fun_induction rounds limit stride stop i with
  | case1 i hlimit hround ih =>
    obtain ⟨l, hl, hnodup, hmem⟩ := ih (by omega)
    refine ⟨i :: l, by rw [hl, map_some], ?_, ?_⟩
    · refine nodup_cons.2 ⟨fun hi => ?_, hnodup⟩
      have := ((hmem i).1 hi).1
      omega
    · intro x
      rw [mem_cons, hmem, add_mod_right]
      constructor
      · rintro (rfl | ⟨hle, hlt, hmod⟩)
        · exact ⟨Nat.le_refl x, hround.1, rfl⟩
        · exact ⟨by omega, hlt, hmod⟩
      · rintro ⟨hle, hlt, hmod⟩
        rcases Nat.eq_or_lt_of_le hle with heq | hgt
        · exact Or.inl heq.symm
        · exact Or.inr ⟨add_le_of_mod_eq hgt hmod, hlt, hmod⟩
  | case2 i hlimit hround =>
    refine ⟨[], rfl, nodup_nil, fun x => iff_of_false not_mem_nil ?_⟩
    rintro ⟨hle, hlt, -⟩
    exact hround ⟨Nat.lt_of_le_of_lt hle hlt, hstride⟩
  | case3 i hlimit => omega

theorem lt_of_rounds {i : ℕ} {l : List ℕ} (h : rounds limit stride stop i = some l) :
    i < limit := by
  rw [rounds] at h
  by_contra hge
  rw [if_neg hge] at h
  exact absurd h nofun

theorem add_lt_of_rounds (hstride : 0 < stride) {x : ℕ} (hx : x < stop) (i : ℕ) {l : List ℕ}
    (h : rounds limit stride stop i = some l) (hle : i ≤ x) (hmod : x % stride = i % stride) :
    x + stride < limit := by
  fun_induction rounds limit stride stop i generalizing l with
  | case1 i hlimit hround ih =>
    obtain ⟨rest, hrest, -⟩ := map_eq_some_iff.1 h
    rcases Nat.eq_or_lt_of_le hle with heq | hlt
    · rw [← heq]
      exact lt_of_rounds hrest
    · exact ih hrest (add_le_of_mod_eq hlt hmod) (by rw [hmod, add_mod_right])
  | case2 i hlimit hround => exact absurd ⟨Nat.lt_of_le_of_lt hle hx, hstride⟩ hround
  | case3 i hlimit => exact absurd h nofun

end Rounds

section Launches

def launch (limit threads stop : ℕ) : Option (List ℕ) :=
  ((range threads).mapM (rounds limit threads stop)).map flatten

variable {limit threads stop : ℕ}

theorem mapM_eq_some {α β : Type} {f : α → Option β} {g : α → β} {xs : List α}
    (h : ∀ x ∈ xs, f x = some (g x)) : xs.mapM f = some (xs.map g) := by
  induction xs with
  | nil => rfl
  | cons x xs ih =>
    rw [mapM_cons, h x mem_cons_self, ih fun y hy => h y (mem_cons_of_mem _ hy)]
    rfl

theorem exists_of_mapM {α β : Type} {f : α → Option β} {xs : List α} {ys : List β}
    (h : xs.mapM f = some ys) : ∀ x ∈ xs, ∃ y, f x = some y := by
  induction xs generalizing ys with
  | nil => exact fun x hx => absurd hx not_mem_nil
  | cons x xs ih =>
    rw [mapM_cons] at h
    obtain ⟨y, hy, hrest⟩ := bind_eq_some_iff.1 h
    obtain ⟨zs, hzs, -⟩ := bind_eq_some_iff.1 hrest
    rintro z hz
    rcases mem_cons.1 hz with rfl | hz
    · exact ⟨y, hy⟩
    · exact ih hzs z hz

theorem exists_launch (hthreads : 0 < threads) (hfits : stop + threads ≤ limit) :
    ∃ l, launch limit threads stop = some l ∧ l.Perm (range stop) := by
  have hrounds : ∀ i ∈ range threads, ∃ l, rounds limit threads stop i = some l ∧ l.Nodup ∧
      ∀ x, x ∈ l ↔ i ≤ x ∧ x < stop ∧ x % threads = i % threads := by
    intro i hi
    have hlt := mem_range.1 hi
    exact exists_rounds hthreads hfits i (by omega)
  choose! g hg hnodup hmem using hrounds
  refine ⟨((range threads).map g).flatten, ?_, ?_⟩
  · rw [launch, mapM_eq_some hg, map_some]
  · have hlt : ∀ {i x}, i ∈ range threads → x ∈ g i → x % threads = i := by
      intro i x hi hx
      rw [((hmem i hi x).1 hx).2.2, mod_eq_of_lt (mem_range.1 hi)]
    rw [← flatMap_def, perm_ext_iff_of_nodup]
    · intro x
      rw [mem_flatMap, mem_range]
      constructor
      · rintro ⟨i, hi, hx⟩
        exact ((hmem i hi x).1 hx).2.1
      · intro hx
        have hi := mem_range.2 (mod_lt x hthreads)
        exact ⟨_, hi, (hmem _ hi x).2 ⟨mod_le x threads, hx, (mod_mod x threads).symm⟩⟩
    · refine nodup_flatMap.2 ⟨hnodup, ?_⟩
      refine nodup_range.imp_of_mem fun {i j} hi hj hne x hxi hxj => hne ?_
      rw [← hlt hi hxi, ← hlt hj hxj]
    · exact nodup_range

theorem add_le_of_launch (hthreads : 0 < threads) {l : List ℕ}
    (h : launch limit threads stop = some l) : stop + threads ≤ limit := by
  obtain ⟨ls, hls, -⟩ := map_eq_some_iff.1 h
  have hsome := exists_of_mapM hls
  rcases Nat.eq_zero_or_pos stop with rfl | hstop
  · obtain ⟨l, hl⟩ := hsome (threads - 1) (mem_range.2 (by omega))
    have := lt_of_rounds hl
    omega
  · obtain ⟨l, hl⟩ := hsome ((stop - 1) % threads) (mem_range.2 (mod_lt _ hthreads))
    have := add_lt_of_rounds hthreads (sub_lt hstop Nat.one_pos) _ hl (mod_le _ _)
      (mod_mod _ _).symm
    omega

end Launches

end Quadrants.Library.StridedLoop
