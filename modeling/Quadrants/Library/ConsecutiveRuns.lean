import Mathlib.Data.List.SplitBy
import Mathlib.Data.Nat.Count

/-!
The maximal runs of related neighbours in a sequence, by the number of runs that start before an
index.
-/

namespace Quadrants.Library.ConsecutiveRuns

open List Nat Option

section Concat

variable {α : Type} {r : α → α → Bool}

theorem splitBy_concat_of_rel {l : List α} {a : α} (hne : l ≠ []) (h : r (l.getLast hne) a = true) :
    ∃ init last, l.splitBy r = init ++ [last] ∧
      (l ++ [a]).splitBy r = init ++ [last ++ [a]] := by
  obtain ⟨init, last, hsplit⟩ := (eq_nil_or_concat (l.splitBy r)).resolve_left
    (splitBy_ne_nil.2 hne)
  rw [concat_eq_append] at hsplit
  refine ⟨init, last, hsplit, ?_⟩
  have hsplit' := hsplit
  rw [splitBy_eq_iff] at hsplit'
  obtain ⟨hflatten, hnil, hruns, hbreaks⟩ := hsplit'
  have hlast : last ≠ [] := by
    rintro rfl
    exact hnil (mem_append_right _ (mem_singleton_self _))
  have hend : l.getLast hne = last.getLast hlast := by
    simp only [hflatten, flatten_append, flatten_singleton]
    exact getLast_append_of_ne_nil _ hlast
  rw [splitBy_eq_iff]
  refine ⟨?_, ?_, ?_, ?_⟩
  · rw [hflatten, flatten_append, flatten_append, flatten_singleton,
      flatten_singleton, append_assoc]
  · intro hmem
    rcases mem_append.1 hmem with hmem | hmem
    · exact hnil (mem_append_left _ hmem)
    · exact absurd (mem_singleton.1 hmem).symm (append_ne_nil_of_left_ne_nil hlast [a])
  · intro run hrun
    rcases mem_append.1 hrun with hrun | hrun
    · exact hruns run (mem_append_left _ hrun)
    · rw [mem_singleton.1 hrun]
      have hchain := hruns last (mem_append_right _ (mem_singleton_self _))
      refine isChain_append.2 ⟨hchain, isChain_singleton _, ?_⟩
      intro x hx y hy
      rw [head?_singleton, mem_some_iff] at hy
      rw [← hy, ← getLast_of_mem_getLast? hx, ← hend]
      exact h
  · rw [isChain_append] at hbreaks ⊢
    refine ⟨hbreaks.1, isChain_singleton _, ?_⟩
    intro x hx y hy
    rw [head?_singleton, mem_some_iff] at hy
    obtain ⟨hx', hlast', hbreak⟩ := hbreaks.2.2 x hx last rfl
    subst hy
    refine ⟨hx', append_ne_nil_of_left_ne_nil hlast [a], ?_⟩
    rw [head_append_of_ne_nil hlast]
    exact hbreak

end Concat

variable (r : ℕ → ℕ → Bool)

def IsHead : ℕ → Prop
  | 0 => True
  | i + 1 => r i (i + 1) = false

instance : DecidablePred (IsHead r)
  | 0 => .isTrue trivial
  | i + 1 => inferInstanceAs (Decidable (r i (i + 1) = false))

def runOf (i : ℕ) : ℕ :=
  Nat.count (IsHead r) (i + 1) - 1

def runAt (n j : ℕ) : List ℕ :=
  (range n).filter fun i => runOf r i = j

theorem count_succ_pos (n : ℕ) : 0 < Nat.count (IsHead r) (n + 1) := by
  have hone : Nat.count (IsHead r) 1 = 1 := rfl
  have hmono := count_monotone (IsHead r) (Nat.le_add_left 1 n)
  omega

variable {r}

variable {i j n : ℕ}

theorem count_of_isHead (h : IsHead r n) :
    Nat.count (IsHead r) (n + 1) = Nat.count (IsHead r) n + 1 := by
  rw [count_succ, if_pos h]

theorem runOf_of_isHead (h : IsHead r n) : runOf r n = Nat.count (IsHead r) n := by
  rw [runOf, count_of_isHead h, Nat.add_sub_cancel]

theorem runOf_lt (h : i < n) : runOf r i < Nat.count (IsHead r) n := by
  have hpos := count_succ_pos r i
  have hmono : Nat.count (IsHead r) (i + 1) ≤ Nat.count (IsHead r) n :=
    count_monotone (IsHead r) h
  rw [runOf]
  omega

theorem runAt_succ_of_eq (h : runOf r n = j) : runAt r (n + 1) j = runAt r n j ++ [n] := by
  rw [runAt, range_succ, filter_append, filter_singleton, h]
  simp only [decide_true]
  rfl

theorem runAt_succ_of_ne (h : runOf r n ≠ j) : runAt r (n + 1) j = runAt r n j := by
  rw [runAt, range_succ, filter_append, filter_singleton]
  simp only [h, decide_false]
  exact append_nil _

theorem runAt_of_le (h : Nat.count (IsHead r) n ≤ j) : runAt r n j = [] := by
  refine filter_eq_nil_iff.2 fun i hi => ?_
  have hlt := runOf_lt (r := r) (mem_range.1 hi)
  simp only [decide_eq_true_eq]
  omega

theorem runOf_succ_of_not_isHead (h : ¬ IsHead r (n + 1)) : runOf r (n + 1) = runOf r n := by
  rw [runOf, count_succ, if_neg h, add_zero, runOf]

theorem eq_of_runOf_eq {β : Type} {f : ℕ → β} (hrel : ∀ i, r i (i + 1) = true → f i = f (i + 1))
    (hle : i ≤ j) (h : runOf r i = runOf r j) : f i = f j := by
  induction j with
  | zero => rw [le_zero.1 hle]
  | succ j ih =>
    rcases hle.eq_or_lt with rfl | hlt
    · rfl
    · have hhead : ¬ IsHead r (j + 1) := by
        intro hhead
        have hrun := runOf_lt (r := r) hlt
        rw [h, runOf_of_isHead hhead] at hrun
        exact absurd hrun (lt_irrefl _)
      rw [ih (le_of_lt_succ hlt) (h.trans (runOf_succ_of_not_isHead hhead))]
      exact hrel j (Bool.eq_true_of_not_eq_false hhead)

variable (r)

theorem splitBy_range (n : ℕ) :
    (range n).splitBy r = (range (Nat.count (IsHead r) n)).map (runAt r n) := by
  induction n with
  | zero => rfl
  | succ n ih =>
    rcases em (IsHead r n) with hhead | hhead
    · have hbreak : ∀ x ∈ (range n).getLast?, ∀ y ∈ [n].head?, r x y = false := by
        rintro x hx y hy
        cases n with
        | zero => exact absurd hx nofun
        | succ i =>
          rw [range_succ, getLast?_concat, mem_some_iff] at hx
          rw [head?_singleton, mem_some_iff] at hy
          subst hx hy
          exact hhead
      have hold (j : ℕ) (hj : j ∈ range (Nat.count (IsHead r) n)) :
          runAt r n j = runAt r (n + 1) j := by
        refine (runAt_succ_of_ne ?_).symm
        rw [runOf_of_isHead hhead]
        exact (mem_range.1 hj).ne'
      rw [range_succ, splitBy_append hbreak, ih, count_of_isHead hhead, range_succ,
        map_append, map_congr_left hold, map_singleton,
        runAt_succ_of_eq (runOf_of_isHead hhead), runAt_of_le le_rfl]
      rfl
    · cases n with
      | zero => exact absurd trivial hhead
      | succ i =>
        have hne : range (i + 1) ≠ [] := by simp
        have hrel : r ((range (i + 1)).getLast hne) (i + 1) = true := by
          rw [getLast_range]
          exact Bool.eq_true_of_not_eq_false hhead
        obtain ⟨init, last, hsplit, hjoined⟩ := splitBy_concat_of_rel hne hrel
        have hcount : Nat.count (IsHead r) (i + 1 + 1) = Nat.count (IsHead r) (i + 1) := by
          rw [count_succ, if_neg hhead, add_zero]
        obtain ⟨c, hc⟩ := exists_eq_succ_of_ne_zero (count_succ_pos r i).ne'
        have hrun : runOf r (i + 1) = c := by
          rw [runOf, hcount, hc, succ_sub_one]
        rw [ih, hc, range_succ, map_append] at hsplit
        obtain ⟨hinit, hlast⟩ := append_inj' hsplit rfl
        have hold (j : ℕ) (hj : j ∈ range c) : runAt r (i + 1) j = runAt r (i + 2) j := by
          refine (runAt_succ_of_ne ?_).symm
          rw [hrun]
          exact (mem_range.1 hj).ne'
        rw [range_succ, hjoined, hcount, hc, range_succ, map_append,
          map_singleton, ← hinit, ← cons.inj hlast |>.1, map_congr_left hold,
          ← runAt_succ_of_eq hrun]

end Quadrants.Library.ConsecutiveRuns
