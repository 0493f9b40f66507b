import Mathlib.Data.List.Induction
import Mathlib.Data.List.Nodup
import Mathlib.Data.List.Perm.Basic
import Mathlib.Tactic.Common

/-!
The elements of a list that a predicate selects are swapped in pairs, the first with the last.
-/

namespace Quadrants.Library.PairSwaps

open List Option

variable {α : Type} (p : α → Bool)

def positions (xs : List α) : List ℕ :=
  (range xs.length).filter fun i => (xs[i]?.map p).getD false

def swap (xs : List α) (i j : ℕ) : List α :=
  match xs[i]?, xs[j]? with
  | some a, some b => (xs.set i b).set j a
  | _, _ => xs

def swapFirst (ps : List ℕ) (count : ℕ) (xs : List α) : List α :=
  (range count).foldl
    (fun xs lo => swap xs (ps.getD lo 0) (ps.getD (ps.length - 1 - lo) 0)) xs

def swapPairs (xs : List α) : List α :=
  swapFirst (positions p xs) ((positions p xs).length / 2) xs

section swaps

variable {p} {xs : List α}

@[simp] theorem length_swap (xs : List α) (i j : ℕ) : (swap xs i j).length = xs.length := by
  rw [swap]
  split
  · rw [length_set, length_set]
  · rfl

theorem swap_getElem? {i j : ℕ} (hi : i < xs.length) (hj : j < xs.length) (k : ℕ) :
    (swap xs i j)[k]? = if k = j then xs[i]? else if k = i then xs[j]? else xs[k]? := by
  have hswap : swap xs i j = (xs.set i xs[j]).set j xs[i] := by
    rw [swap, List.getElem?_eq_getElem hi, List.getElem?_eq_getElem hj]
  rw [hswap, List.getElem?_set, List.getElem?_set, length_set, List.getElem?_eq_getElem hi]
  split_ifs with hkj hki hki' hlt <;> first | rfl | (subst_vars; simp_all)

end swaps

section positions

variable {p} {xs : List α}

theorem positions_append_singleton (xs : List α) (x : α) :
    positions p (xs ++ [x]) = positions p xs ++ if p x = true then [xs.length] else [] := by
  rw [positions, length_append, length_singleton, range_succ, filter_append]
  congr 1
  · refine filter_congr fun i hi => ?_
    rw [List.getElem?_append_left (mem_range.1 hi)]
  · rw [filter_singleton, List.getElem?_append_right (Nat.le_refl _), Nat.sub_self]
    simp only [List.getElem?_cons_zero, map_some, getD_some]
    split_ifs with hx
    · rw [hx]
      rfl
    · rw [Bool.eq_false_iff.2 hx]
      rfl

theorem mem_positions {i : ℕ} : i ∈ positions p xs ↔ ∃ x, xs[i]? = some x ∧ p x = true := by
  rw [positions, mem_filter, mem_range]
  constructor
  · rintro ⟨hi, hp⟩
    rw [List.getElem?_eq_getElem hi] at hp ⊢
    exact ⟨xs[i], rfl, hp⟩
  · rintro ⟨x, hx, hp⟩
    rw [hx]
    exact ⟨(List.getElem?_eq_some_iff.1 hx).1, hp⟩

theorem nodup_positions (p : α → Bool) (xs : List α) : (positions p xs).Nodup :=
  nodup_range.filter _

theorem lt_of_mem_positions {i : ℕ} (h : i ∈ positions p xs) : i < xs.length :=
  mem_range.1 (mem_filter.1 h).1

theorem filter_eq_positions (p : α → Bool) (xs : List α) :
    xs.filter p = (positions p xs).filterMap fun i => xs[i]? := by
  induction xs using reverseRecOn with
  | nil => rfl
  | append_singleton xs x ih =>
    have hbefore : (positions p xs).filterMap (fun i => (xs ++ [x])[i]?) =
        (positions p xs).filterMap fun i => xs[i]? :=
      filterMap_congr fun i hi => List.getElem?_append_left (lt_of_mem_positions hi)
    rw [filter_append, ih, positions_append_singleton, filterMap_append, hbefore]
    rw [filter_singleton]
    by_cases hx : p x = true
    · rw [hx]
      simp
    · rw [Bool.eq_false_iff.2 hx]
      rfl

end positions

section swapped

variable {p} {xs : List α} {ps : List ℕ}

theorem swapFirst_succ (ps : List ℕ) (count : ℕ) (xs : List α) :
    swapFirst ps (count + 1) xs = swap (swapFirst ps count xs) (ps.getD count 0)
      (ps.getD (ps.length - 1 - count) 0) := by
  rw [swapFirst, range_succ, foldl_append, foldl_cons, foldl_nil, swapFirst]

@[simp] theorem length_swapFirst (ps : List ℕ) (count : ℕ) (xs : List α) :
    (swapFirst ps count xs).length = xs.length := by
  induction count with
  | zero => rfl
  | succ count ih => rw [swapFirst_succ, length_swap, ih]

theorem swapFirst_getElem? (hnodup : ps.Nodup) (hlt : ∀ i ∈ ps, i < xs.length) {count : ℕ}
    (hcount : count ≤ ps.length / 2) : (∀ k (hk : k < ps.length), (swapFirst ps count xs)[ps[k]]? =
      if k < count ∨ ps.length - 1 - k < count then xs[ps.getD (ps.length - 1 - k) 0]?
      else xs[ps[k]]?) ∧
    ∀ i ∉ ps, (swapFirst ps count xs)[i]? = xs[i]? := by
  have hget : ∀ k (hk : k < ps.length), ps.getD k 0 = ps[k] := by
    intro k hk
    rw [getD_eq_getElem?_getD, List.getElem?_eq_getElem hk, getD_some]
  induction count with
  | zero =>
    refine ⟨fun k hk => ?_, fun _ _ => rfl⟩
    rfl
  | succ count ih =>
    obtain ⟨hin, hout⟩ := ih (by omega)
    have hlo : count < ps.length := by omega
    have hhi : ps.length - 1 - count < ps.length := by omega
    have hlen := length_swapFirst ps count xs
    have hlo' : ps[count] < (swapFirst ps count xs).length :=
      hlen.symm ▸ hlt _ (getElem_mem hlo)
    have hhi' : ps[ps.length - 1 - count] < (swapFirst ps count xs).length :=
      hlen.symm ▸ hlt _ (getElem_mem hhi)
    rw [swapFirst_succ, hget count hlo, hget _ hhi]
    constructor
    · intro k hk
      rw [swap_getElem? hlo' hhi']
      simp only [List.Nodup.getElem_inj_iff hnodup]
      by_cases hkhi : k = ps.length - 1 - count
      · have hback : ps.length - 1 - k = count := by omega
        rw [if_pos hkhi, if_pos (by omega), hin count hlo, if_neg (by omega), hback,
          hget count hlo]
      · rw [if_neg hkhi]
        by_cases hklo : k = count
        · subst hklo
          rw [if_pos rfl, if_pos (by omega), hin _ hhi, if_neg (by omega), hget _ hhi]
        · rw [if_neg hklo, hin k hk]
          exact if_congr (by omega) rfl rfl
    · intro i hi
      rw [swap_getElem? hlo' hhi', if_neg, if_neg, hout i hi]
      · rintro rfl
        exact hi (getElem_mem hlo)
      · rintro rfl
        exact hi (getElem_mem hhi)

variable (xs : List α)

theorem swapPairs_getElem? :
    (∀ k (hk : k < (positions p xs).length), (swapPairs p xs)[(positions p xs)[k]]? =
      xs[(positions p xs).getD ((positions p xs).length - 1 - k) 0]?) ∧
    ∀ i ∉ positions p xs, (swapPairs p xs)[i]? = xs[i]? := by
  obtain ⟨hin, hout⟩ := swapFirst_getElem? (nodup_positions p xs)
    (fun i hi => lt_of_mem_positions hi) (Nat.le_refl _)
  refine ⟨fun k hk => (hin k hk).trans ?_, hout⟩
  split_ifs with hmoved
  · rfl
  · -- the one in the middle
    have hmiddle : (positions p xs).length - 1 - k = k := by omega
    rw [hmiddle, getD_eq_getElem?_getD, List.getElem?_eq_getElem hk, getD_some]

theorem length_swapPairs : (swapPairs p xs).length = xs.length :=
  length_swapFirst _ _ xs

theorem swapPairs_selected (i : ℕ) : (swapPairs p xs)[i]?.map p = xs[i]?.map p := by
  obtain ⟨hin, hout⟩ := swapPairs_getElem? (p := p) xs
  by_cases hi : i ∈ positions p xs
  · obtain ⟨k, hk, rfl⟩ := getElem_of_mem hi
    have hback : (positions p xs).length - 1 - k < (positions p xs).length := by omega
    obtain ⟨x, hx, hpx⟩ := mem_positions.1 hi
    obtain ⟨y, hy, hpy⟩ := mem_positions.1 (getElem_mem hback)
    rw [hin k hk, getD_eq_getElem?_getD, List.getElem?_eq_getElem hback, getD_some, hx,
      hy, map_some, map_some, hpx, hpy]
  · rw [hout i hi]

theorem positions_congr {xs ys : List α} {q : α → Bool} (hlength : ys.length = xs.length)
    (h : ∀ i : ℕ, ys[i]?.map q = xs[i]?.map q) : positions q ys = positions q xs := by
  rw [positions, hlength]
  refine filter_congr fun i _ => ?_
  rw [h i]

theorem filter_swapPairs : (swapPairs p xs).filter p = (xs.filter p).reverse := by
  obtain ⟨hin, -⟩ := swapPairs_getElem? (p := p) xs
  rw [filter_eq_positions, positions_congr (length_swapPairs xs) (swapPairs_selected xs),
    filter_eq_positions p xs, ← filterMap_reverse]
  have hmap : (positions p xs).map (fun i => (swapPairs p xs)[i]?) =
      (positions p xs).reverse.map fun i => xs[i]? := by
    refine ext_getElem (by simp) fun k hk hk' => ?_
    rw [length_map] at hk
    have hback : (positions p xs).length - 1 - k < (positions p xs).length := by omega
    rw [getElem_map, getElem_map, getElem_reverse, hin k hk,
      getD_eq_getElem?_getD, List.getElem?_eq_getElem hback, getD_some]
  have hid := congrArg (filterMap id) hmap
  rwa [filterMap_map, filterMap_map] at hid

theorem filter_not_swapPairs :
    (swapPairs p xs).filter (fun x => !p x) = xs.filter fun x => !p x := by
  obtain ⟨-, hout⟩ := swapPairs_getElem? (p := p) xs
  have hselected : ∀ i : ℕ,
      (swapPairs p xs)[i]?.map (fun x => !p x) = xs[i]?.map fun x => !p x := by
    intro i
    have h := congrArg (Option.map not) (swapPairs_selected (p := p) xs i)
    rwa [Option.map_map, Option.map_map] at h
  rw [filter_eq_positions, positions_congr (length_swapPairs xs) hselected, filter_eq_positions]
  refine filterMap_congr fun i hi => hout i fun hin => ?_
  obtain ⟨x, hx, hnot⟩ := mem_positions.1 hi
  obtain ⟨y, hy, hp⟩ := mem_positions.1 hin
  rw [hx] at hy
  obtain rfl := Option.some.inj hy
  rw [hp] at hnot
  exact absurd hnot (by decide)

theorem swapPairs_perm : (swapPairs p xs).Perm xs := by
  refine (filter_append_perm p _).symm.trans (.trans ?_ (filter_append_perm p xs))
  rw [filter_swapPairs, filter_not_swapPairs]
  exact (reverse_perm _).append_right _

end swapped

end Quadrants.Library.PairSwaps
