import Mathlib.Data.List.Induction
import Mathlib.Data.List.MinMax
import Mathlib.Data.List.Perm.Basic
import Mathlib.Order.Basic

/-!
A priority queue of bounded size that a sequence is offered to, element by element. Whatever it does
with equal elements, it ends with elements none of which is greater than one that was left out.
-/

namespace Quadrants.Library.BoundedSelection

open List Option

variable {α ι : Type} [LinearOrder ι]

/-- What a queue hands out: a greatest element; which of several is its own choice. -/
structure PriorityQueue (key : α → ι) where
  top : List α → Option α
  top_mem : ∀ {q e}, top q = some e → e ∈ q
  le_top : ∀ {q e}, top q = some e → ∀ x ∈ q, key x ≤ key e
  top_isSome : ∀ {q}, q ≠ [] → (top q).isSome

def PriorityQueue.greatest (key : α → ι) : PriorityQueue key where
  top := argmax key
  top_mem h := argmax_mem h
  le_top h _ hx := le_of_mem_argmax hx h
  top_isSome {q} h := by
    rw [isSome_iff_ne_none]
    exact fun hnone => h (argmax_eq_none.1 hnone)

/-- Of the elements `seen`, the queue holds as many as it may, and no greater ones than those that
were dropped. -/
structure Selected (key : α → ι) (cnt : ℕ) (seen q dropped : List α) : Prop where
  perm : (q ++ dropped).Perm seen
  length : q.length = min cnt seen.length
  le : ∀ x ∈ q, ∀ y ∈ dropped, key x ≤ key y

namespace PriorityQueue

variable [DecidableEq α] {key : α → ι} (Q : PriorityQueue key) {cnt : ℕ} {seen q dropped : List α}

def pop (q : List α) : List α :=
  match Q.top q with
  | none => q
  | some e => q.erase e

def offer (cnt : ℕ) (q : List α) (e : α) : List α :=
  let q := if q.length = cnt ∧ (Q.top q).any (fun t => key e < key t) then Q.pop q else q
  if q.length < cnt then e :: q else q

/-- The elements in the order in which they are popped, `fuel` of them at most. -/
def popAll : ℕ → List α → List α
  | 0, _ => []
  | fuel + 1, q =>
    match Q.top q with
    | none => []
    | some e => e :: popAll fuel (q.erase e)

theorem popAll_perm {fuel : ℕ} {q : List α} (h : q.length = fuel) : (Q.popAll fuel q).Perm q := by
  induction fuel generalizing q with
  | zero => rw [length_eq_zero_iff.1 h, popAll]
  | succ fuel ih =>
    have hne : q ≠ [] := ne_nil_of_length_eq_add_one h
    obtain ⟨e, he⟩ := isSome_iff_exists.1 (Q.top_isSome hne)
    have hmem := Q.top_mem he
    simp only [popAll, he]
    refine List.Perm.trans ((ih ?_).cons e) (perm_cons_erase hmem).symm
    rw [length_erase_of_mem hmem, h, Nat.add_sub_cancel]

theorem offer_selected (h : Selected key cnt seen q dropped) (hcnt : cnt ≠ 0) (e : α) :
    ∃ dropped', Selected key cnt (seen ++ [e]) (Q.offer cnt q e) dropped' := by
  have hsnoc : (e :: (q ++ dropped)).Perm (seen ++ [e]) :=
    (h.perm.cons e).trans (perm_append_comm : ([e] ++ seen).Perm _)
  have hlength := h.length
  have hlen := h.perm.length_eq
  rw [length_append] at hlen
  by_cases hfull : q.length = cnt
  · obtain ⟨t, ht⟩ := isSome_iff_exists.1 (Q.top_isSome (q := q) (by
      rintro rfl
      exact hcnt hfull.symm))
    have hmem := Q.top_mem ht
    have herase := length_erase_of_mem hmem
    have hmove : (q.erase t ++ t :: dropped).Perm (q ++ dropped) :=
      perm_middle.trans ((perm_cons_erase hmem).symm.append_right dropped)
    by_cases hlt : key e < key t
    · have hreplace : Q.offer cnt q e = e :: q.erase t := by
        simp only [offer, hfull, ht, any_some, hlt, decide_true, and_self, if_true, pop]
        exact if_pos (by omega)
      rw [hreplace]
      have hbelow : ∀ x ∈ e :: q.erase t, key x ≤ key t := by
        intro x hx
        rcases mem_cons.1 hx with rfl | hx
        · exact hlt.le
        · exact Q.le_top ht x (mem_of_mem_erase hx)
      refine ⟨t :: dropped, (hmove.cons e).trans hsnoc, ?_, fun x hx y hy => ?_⟩
      · rw [length_cons, length_append]
        omega
      · rcases mem_cons.1 hy with rfl | hy
        · exact hbelow x hx
        · exact (hbelow x hx).trans (h.le t hmem y hy)
    · have hkeep : Q.offer cnt q e = q := by
        simp [offer, hfull, ht, hlt]
      rw [hkeep]
      refine ⟨e :: dropped, perm_middle.trans hsnoc, ?_, fun x hx y hy => ?_⟩
      · rw [length_append]
        omega
      · rcases mem_cons.1 hy with rfl | hy
        · exact (Q.le_top ht x hx).trans (not_lt.1 hlt)
        · exact h.le x hx y hy
  · -- the queue is not full, so that nothing was dropped
    have hnil : dropped = [] := eq_nil_of_length_eq_zero (by omega)
    subst hnil
    have hpush : Q.offer cnt q e = e :: q := by
      simp only [offer, hfull, false_and, if_false]
      exact if_pos (by omega)
    rw [hpush]
    refine ⟨[], hsnoc, ?_, fun _ _ y hy => absurd hy not_mem_nil⟩
    rw [length_cons, length_append, length_singleton]
    omega

/-- The queue at the end of the sequence -/
theorem foldl_offer (hcnt : cnt ≠ 0) (es : List α) :
    ∃ dropped, Selected key cnt es (es.foldl (Q.offer cnt) []) dropped := by
  induction es using reverseRecOn with
  | nil => exact ⟨[], .nil, by simp, fun _ h => absurd h not_mem_nil⟩
  | append_singleton es e ih =>
    obtain ⟨dropped, hsel⟩ := ih
    rw [foldl_append]
    exact Q.offer_selected hsel hcnt e

end PriorityQueue

end Quadrants.Library.BoundedSelection
