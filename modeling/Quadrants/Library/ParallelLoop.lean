import Mathlib.Data.List.Basic
import Mathlib.Data.Nat.Notation
import Mathlib.Data.Set.Basic

/-!
Loops whose rounds may come in any order. Every round has cells of its own to write, and what it
writes there does not depend on the cells of the other rounds, so that each round might as well have
been the only one.
-/

namespace Quadrants.Library.ParallelLoop

open List

variable {ι X A : Type}

def runRounds (round : ι → (X → A) → X → A) (order : List ι) (m : X → A) : X → A :=
  order.foldl (fun m i => round i m) m

structure Independent (round : ι → (X → A) → X → A) (own : ι → Set X) (rounds : Set ι) : Prop where
  frame : ∀ i ∈ rounds, ∀ m, ∀ x ∉ own i, round i m x = m x
  apart : ∀ i ∈ rounds, ∀ j ∈ rounds, i ≠ j → ∀ x ∈ own i, x ∉ own j
  reads : ∀ i ∈ rounds, ∀ m m', (∀ x, (∀ j ∈ rounds, j ≠ i → x ∉ own j) → m x = m' x) →
    ∀ x ∈ own i, round i m x = round i m' x

variable {round : ι → (X → A) → X → A} {own : ι → Set X} {rounds : Set ι} {order : List ι}
  {m : X → A}

@[simp] theorem runRounds_nil : runRounds round [] m = m := rfl

@[simp] theorem runRounds_cons (i : ι) :
    runRounds round (i :: order) m = runRounds round order (round i m) := rfl

theorem Independent.runRounds_of_forall_not_mem (h : Independent round own rounds)
    (horder : ∀ i ∈ order, i ∈ rounds) {x : X} (hx : ∀ i ∈ order, x ∉ own i) :
    runRounds round order m x = m x := by
  induction order generalizing m with
  | nil => rfl
  | cons i order ih =>
    rw [runRounds_cons, ih (fun j hj => horder j (mem_cons_of_mem _ hj))
      fun j hj => hx j (mem_cons_of_mem _ hj)]
    exact h.frame i (horder i mem_cons_self) m x (hx i mem_cons_self)

theorem Independent.runRounds_of_mem (h : Independent round own rounds) (hnodup : order.Nodup)
    (horder : ∀ i ∈ order, i ∈ rounds) {i : ι} (hi : i ∈ order) {x : X} (hx : x ∈ own i) :
    runRounds round order m x = round i m x := by
  induction order generalizing m with
  | nil => exact absurd hi not_mem_nil
  | cons j order ih =>
    obtain ⟨hj, htail⟩ := nodup_cons.1 hnodup
    obtain ⟨hjr, hrest⟩ := forall_mem_cons.1 horder
    rw [runRounds_cons]
    rcases mem_cons.1 hi with rfl | hi
    · refine h.runRounds_of_forall_not_mem hrest fun k hk => ?_
      refine h.apart i hjr k (hrest k hk) ?_ x hx
      rintro rfl
      exact hj hk
    · rw [ih htail hrest hi]
      have hne : j ≠ i := by
        rintro rfl
        exact hj hi
      refine h.reads i (hrest i hi) _ _ (fun y hy => ?_) x hx
      exact h.frame j hjr m y (hy j hjr hne)

def runGuarded (allowed : ι → Prop) [DecidablePred allowed] (round : ι → (X → A) → X → A)
    (order : List ι) (m : X → A) : Option (X → A) :=
  order.foldlM (fun m i => if allowed i then some (round i m) else none) m

theorem runGuarded_of_forall {allowed : ι → Prop} [DecidablePred allowed]
    (h : ∀ i ∈ order, allowed i) :
    runGuarded allowed round order m = some (runRounds round order m) := by
  induction order generalizing m with
  | nil => rfl
  | cons i order ih =>
    rw [runGuarded, foldlM_cons, if_pos (h i mem_cons_self)]
    exact ih fun j hj => h j (mem_cons_of_mem _ hj)

end Quadrants.Library.ParallelLoop
