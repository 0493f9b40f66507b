import Mathlib.Data.List.Induction
import Mathlib.Tactic.Common

/-!
Tables filled from left to right, where an entry may look at the entries
before it.
-/

namespace Quadrants.Library.PrefixTable

variable {α β : Type}

def buildTable (f : List β → α → β) (xs : List α) : List β :=
  xs.foldl (fun table x => table ++ [f table x]) []

variable (f : List β → α → β)

theorem buildTable_append (xs : List α) (x : α) :
    buildTable f (xs ++ [x]) = buildTable f xs ++ [f (buildTable f xs) x] := by
  simp [buildTable]

theorem buildTable_length (xs : List α) : (buildTable f xs).length = xs.length := by
  induction xs using List.reverseRecOn with
  | nil => rfl
  | append_singleton xs x ih => simp [buildTable_append, ih]

theorem buildTable_getElem? {xs : List α} {i : Nat} {x : α}
    (h : xs[i]? = some x) : (buildTable f xs)[i]? = some (f ((buildTable f xs).take i) x) := by
  induction xs using List.reverseRecOn with
  | nil => simp at h
  | append_singleton xs y ih =>
    have hlen := buildTable_length f xs
    rw [buildTable_append]
    by_cases hi : i < xs.length
    · rw [List.getElem?_append_left hi] at h
      rw [List.getElem?_append_left (by omega), ih h, List.take_append_of_le_length (by omega)]
    · obtain ⟨hlt, hget⟩ := List.getElem?_eq_some_iff.mp h
      have heq : i = xs.length := by
        simp only [List.length_append, List.length_singleton] at hlt
        omega
      subst heq
      have hx : y = x := by simpa using hget
      rw [← hlen, List.getElem?_concat_length, List.take_left, hx]

end Quadrants.Library.PrefixTable
