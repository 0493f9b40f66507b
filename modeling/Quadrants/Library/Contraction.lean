import Mathlib.Logic.Relation

/-!
Traces of the visible nodes on the walks of a graph, and contraction of a silent node: it goes
away, and its predecessors are joined to its successors.
-/

namespace Quadrants.Library.Contraction

variable {α : Type*} {edge edge' : α → α → Prop} {visible : α → Bool} {x a b : α} {l : List α}

def emit (visible : α → Bool) (a : α) : List α :=
  if visible a then [a] else []

theorem emit_silent (h : visible x = false) : emit visible x = [] := by
  simp [emit, h]

inductive Trace (edge : α → α → Prop) (visible : α → Bool) : α → α → List α → Prop where
  | stop (a : α) : Trace edge visible a a (emit visible a)
  | step {a b c : α} {l : List α} : edge a b → Trace edge visible b c l →
      Trace edge visible a c (emit visible a ++ l)

def Contract (edge : α → α → Prop) (x a b : α) : Prop :=
  a ≠ x ∧ b ≠ x ∧ (edge a b ∨ edge a x ∧ edge x b)

theorem Trace.congr (h : Trace edge visible a b l) (hedge : ∀ a b, edge a b → edge' a b) :
    Trace edge' visible a b l := by
  induction h with
  | stop a => exact .stop a
  | step hstep _ ih => exact .step (hedge _ _ hstep) ih

theorem trace_congr (hedge : ∀ a b, edge a b ↔ edge' a b) :
    Trace edge visible a b l ↔ Trace edge' visible a b l :=
  ⟨fun h => h.congr fun a b => (hedge a b).1, fun h => h.congr fun a b => (hedge a b).2⟩

theorem Trace.of_contract (hx : visible x = false) (h : Trace (Contract edge x) visible a b l) :
    Trace edge visible a b l := by
  induction h with
  | stop a => exact .stop a
  | @step a b c l hstep _ ih =>
    rcases hstep.2.2 with hdirect | ⟨hinto, hout⟩
    · exact .step hdirect ih
    · -- the walk goes through the silent node instead
      have hthrough := Trace.step hout ih
      rw [emit_silent hx] at hthrough
      exact .step hinto hthrough

theorem Trace.contract_aux (hx : visible x = false) (h : Trace edge visible a b l) (hb : b ≠ x) :
    (a ≠ x → Trace (Contract edge x) visible a b l) ∧
      (a = x → ∀ p, p ≠ x → edge p x →
        Trace (Contract edge x) visible p b (emit visible p ++ l)) := by
  induction h with
  | stop a => exact ⟨fun _ => .stop a, fun ha => absurd ha hb⟩
  | @step a b c l hstep _ ih =>
    obtain ⟨hother, hself⟩ := ih hb
    refine ⟨fun ha => ?_, ?_⟩
    · by_cases hbx : b = x
      · subst hbx
        exact hself rfl a ha hstep
      · exact .step ⟨ha, hbx, .inl hstep⟩ (hother hbx)
    · rintro rfl p hp hpx
      rw [emit_silent hx]
      by_cases hba : b = a
      · exact hself hba p hp hpx
      · exact .step ⟨hp, hba, .inr ⟨hpx, hstep⟩⟩ (hother hba)

theorem trace_contract_iff (hx : visible x = false) (ha : a ≠ x) (hb : b ≠ x) :
    Trace (Contract edge x) visible a b l ↔ Trace edge visible a b l :=
  ⟨fun h => h.of_contract hx, fun h => (h.contract_aux hx hb).1 ha⟩

end Quadrants.Library.Contraction
