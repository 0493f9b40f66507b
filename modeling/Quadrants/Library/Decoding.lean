import Mathlib.Data.List.Basic

namespace Quadrants.Library.Decoding

variable {α : Type}

def StartsIn (p : α → Prop) : List α → Prop
  | [] => False
  | c :: _ => p c

variable {p q sep : α → Prop} {u v x y : List α}

theorem StartsIn.exists_cons (h : StartsIn p x) : ∃ c r, x = c :: r ∧ p c := by
  cases x with
  | nil => exact absurd h id
  | cons c r => exact ⟨c, r, rfl, h⟩

theorem StartsIn.append (h : StartsIn p x) (y : List α) : StartsIn p (x ++ y) := by
  obtain ⟨c, r, rfl, hc⟩ := h.exists_cons
  exact hc

theorem StartsIn.mono (h : StartsIn p x) (hpq : ∀ c, p c → q c) : StartsIn q x := by
  obtain ⟨c, r, rfl, hc⟩ := h.exists_cons
  exact hpq c hc

theorem StartsIn.of_append_eq (hx : StartsIn p x)
    (hy : StartsIn q y) (h : x ++ u = y ++ v) : ∃ c, p c ∧ q c := by
  obtain ⟨c, r, rfl, hc⟩ := hx.exists_cons
  obtain ⟨c', r', rfl, hc'⟩ := hy.exists_cons
  obtain rfl : c = c' := (List.cons.inj h).1
  exact ⟨c, hc, hc'⟩

def Clear (sep : α → Prop) (u v : List α) : Prop :=
  ∀ c, sep c → ∀ r, u ≠ v ++ c :: r ∧ v ≠ u ++ c :: r

theorem Clear.append_inj (h : Clear sep u v)
    (hx : StartsIn sep x) (hy : StartsIn sep y) (heq : u ++ x = v ++ y) : u = v ∧ x = y := by
  obtain ⟨c, r, rfl, hc⟩ := hx.exists_cons
  obtain ⟨c', r', rfl, hc'⟩ := hy.exists_cons
  rcases List.append_eq_append_iff.mp heq with ⟨w, hv, hw⟩ | ⟨w, hu, hw⟩
  · cases w with
    | nil =>
      rw [List.append_nil] at hv
      exact ⟨hv.symm, hw⟩
    | cons d w =>
      obtain rfl : c = d := (List.cons.inj hw).1
      exact absurd hv (h c hc w).2
  · cases w with
    | nil =>
      rw [List.append_nil] at hu
      exact ⟨hu, hw.symm⟩
    | cons d w =>
      obtain rfl : c' = d := (List.cons.inj hw).1
      exact absurd hu (h c' hc' w).1

theorem clear_of_forall (hu : ∀ c ∈ u, ¬ sep c) (hv : ∀ c ∈ v, ¬ sep c) : Clear sep u v := by
  intro c hc r
  refine ⟨?_, ?_⟩
  · rintro rfl
    exact hu c (List.mem_append_right _ List.mem_cons_self) hc
  · rintro rfl
    exact hv c (List.mem_append_right _ List.mem_cons_self) hc

end Quadrants.Library.Decoding
