import Mathlib.Logic.Equiv.Basic
import Mathlib.Order.Monotone.Basic
import Mathlib.Order.MinMax
import Mathlib.Order.BooleanAlgebra.Basic
import Mathlib.Data.List.Perm.Basic
import Mathlib.Data.List.Nodup

/-!
Networks of comparators on the cells of an array. A network that sorts all arrays of bits sorts all
arrays, and comparators without a common cell can be taken in any order.
-/

namespace Quadrants.Library.SortingNetwork

open List Function

variable {α β : Type} [LinearOrder α] [LinearOrder β]

def exchange (c : ℕ × ℕ) (x : ℕ → α) : ℕ → α :=
  if x c.2 < x c.1 then x ∘ Equiv.swap c.1 c.2 else x

def run (net : List (ℕ × ℕ)) (x : ℕ → α) : ℕ → α :=
  net.foldl (fun x c => exchange c x) x

section Exchange

variable {c : ℕ × ℕ} {x : ℕ → α}

theorem exchange_fst (c : ℕ × ℕ) (x : ℕ → α) : exchange c x c.1 = min (x c.1) (x c.2) := by
  rw [exchange]
  split
  · next h =>
      rw [comp_apply, Equiv.swap_apply_left, min_eq_right h.le]
  · next h => rw [min_eq_left (not_lt.1 h)]

theorem exchange_snd (c : ℕ × ℕ) (x : ℕ → α) : exchange c x c.2 = max (x c.1) (x c.2) := by
  rw [exchange]
  split
  · next h =>
      rw [comp_apply, Equiv.swap_apply_right, max_eq_left h.le]
  · next h => rw [max_eq_right (not_lt.1 h)]

theorem exchange_of_ne {i : ℕ} (hfst : i ≠ c.1) (hsnd : i ≠ c.2) : exchange c x i = x i := by
  rw [exchange]
  split
  · rw [comp_apply, Equiv.swap_apply_of_ne_of_ne hfst hsnd]
  · rfl

theorem exchange_comp {f : α → β} (hf : Monotone f) (c : ℕ × ℕ) (x : ℕ → α) :
    exchange c (f ∘ x) = f ∘ exchange c x := by
  funext i
  rw [comp_apply]
  by_cases hsnd : i = c.2
  · rw [hsnd, exchange_snd, exchange_snd, hf.map_max, comp_apply, comp_apply]
  · by_cases hfst : i = c.1
    · rw [hfst, exchange_fst, exchange_fst, hf.map_min, comp_apply, comp_apply]
    · rw [exchange_of_ne hfst hsnd, exchange_of_ne hfst hsnd, comp_apply]

theorem exchange_of_le (h : x c.1 ≤ x c.2) : exchange c x = x := by
  rw [exchange, if_neg (not_lt.2 h)]

end Exchange

@[simp] theorem run_nil (x : ℕ → α) : run [] x = x := rfl

@[simp] theorem run_cons (c : ℕ × ℕ) (net : List (ℕ × ℕ)) (x : ℕ → α) :
    run (c :: net) x = run net (exchange c x) := rfl

theorem run_append (net rest : List (ℕ × ℕ)) (x : ℕ → α) :
    run (net ++ rest) x = run rest (run net x) :=
  foldl_append

theorem run_comp {f : α → β} (hf : Monotone f) (net : List (ℕ × ℕ)) (x : ℕ → α) :
    run net (f ∘ x) = f ∘ run net x := by
  induction net generalizing x with
  | nil => rfl
  | cons c net ih => rw [run_cons, run_cons, exchange_comp hf, ih]

variable {net : List (ℕ × ℕ)}

theorem run_of_le {x : ℕ → α} (h : ∀ c ∈ net, x c.1 ≤ x c.2) : run net x = x := by
  induction net with
  | nil => rfl
  | cons c net ih =>
    rw [run_cons, exchange_of_le (h c mem_cons_self)]
    exact ih fun d hd => h d (mem_cons_of_mem _ hd)

theorem run_of_forall_ne {i : ℕ} (h : ∀ c ∈ net, i ≠ c.1 ∧ i ≠ c.2)
    (x : ℕ → α) : run net x i = x i := by
  induction net generalizing x with
  | nil => rfl
  | cons c net ih =>
    obtain ⟨hfst, hsnd⟩ := h c mem_cons_self
    rw [run_cons, ih fun d hd => h d (mem_cons_of_mem _ hd), exchange_of_ne hfst hsnd]

theorem sorted_of_bits (F : (ℕ → α) → ℕ → α) (G : (ℕ → Bool) → ℕ → Bool)
    (hcomp : ∀ f : α → Bool, Monotone f → ∀ x, G (f ∘ x) = f ∘ F x) {s : Set ℕ}
    (hbits : ∀ y, MonotoneOn (G y) s) (x : ℕ → α) : MonotoneOn (F x) s := by
  intro i hi j hj hij
  by_contra hlt
  rw [not_le] at hlt
  -- a bit for what is not below the value that comes too early
  have hmono : Monotone fun a => decide (F x i ≤ a) := by
    intro a b hab
    rw [Bool.le_iff_imp, decide_eq_true_iff, decide_eq_true_iff]
    exact fun ha => ha.trans hab
  have hle := hbits ((fun a => decide (F x i ≤ a)) ∘ x) hi hj hij
  rw [hcomp _ hmono, comp_apply, comp_apply, Bool.le_iff_imp, decide_eq_true_iff,
    decide_eq_true_iff] at hle
  exact absurd (hle le_rfl) (not_le.2 hlt)

def CellsApart (c d : ℕ × ℕ) : Prop :=
  c.1 ≠ d.1 ∧ c.1 ≠ d.2 ∧ c.2 ≠ d.1 ∧ c.2 ≠ d.2

theorem CellsApart.symm {c d : ℕ × ℕ} (h : CellsApart c d) : CellsApart d c :=
  ⟨h.1.symm, h.2.2.1.symm, h.2.1.symm, h.2.2.2.symm⟩

theorem run_of_pairwise (hnet : net.Pairwise CellsApart) (x : ℕ → α) :
    ∀ c ∈ net, run net x c.1 = min (x c.1) (x c.2) ∧ run net x c.2 = max (x c.1) (x c.2) := by
  induction net generalizing x with
  | nil => exact fun c hc => (nomatch hc)
  | cons d net ih =>
    obtain ⟨hhead, htail⟩ := pairwise_cons.1 hnet
    intro c hc
    rw [run_cons]
    rcases mem_cons.1 hc with rfl | hc
    · have hfst : ∀ e ∈ net, c.1 ≠ e.1 ∧ c.1 ≠ e.2 := fun e he =>
        ⟨(hhead e he).1, (hhead e he).2.1⟩
      have hsnd : ∀ e ∈ net, c.2 ≠ e.1 ∧ c.2 ≠ e.2 := fun e he =>
        ⟨(hhead e he).2.2.1, (hhead e he).2.2.2⟩
      rw [run_of_forall_ne hfst, run_of_forall_ne hsnd, exchange_fst, exchange_snd]
      exact ⟨rfl, rfl⟩
    · obtain ⟨h1, h2, h3, h4⟩ := hhead c hc
      have hrest := ih htail (exchange d x) c hc
      rw [exchange_of_ne h1.symm h3.symm, exchange_of_ne h2.symm h4.symm] at hrest
      exact hrest

theorem perm_of_involutive {γ : Type} {σ : ℕ → ℕ} {n : ℕ} (hσ : ∀ i < n, σ i < n ∧ σ (σ i) = i)
    (f : ℕ → γ) : ((range n).map (f ∘ σ)).Perm ((range n).map f) := by
  have hinj : ∀ i ∈ range n, ∀ j ∈ range n, σ i = σ j → i = j := by
    intro i hi j hj hij
    rw [← (hσ i (mem_range.1 hi)).2, hij, (hσ j (mem_range.1 hj)).2]
  have hrange : ((range n).map σ).Perm (range n) := by
    rw [perm_ext_iff_of_nodup (List.Nodup.map_on hinj nodup_range) nodup_range]
    intro i
    rw [mem_map]
    constructor
    · rintro ⟨j, hj, rfl⟩
      exact mem_range.2 (hσ j (mem_range.1 hj)).1
    · intro hi
      have hlt := hσ i (mem_range.1 hi)
      exact ⟨σ i, mem_range.2 hlt.1, hlt.2⟩
  rw [← map_map]
  exact hrange.map f

end Quadrants.Library.SortingNetwork
