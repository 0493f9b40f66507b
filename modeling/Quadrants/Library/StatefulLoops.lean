import Mathlib.Logic.Function.Iterate
import Mathlib.Tactic.Common

/-!
Fallible computations that thread a state, and the counted loop that keeps the
largest value its body returns.  The simulation rule relates two such loops
whose bodies may use different states and different error types.
-/

namespace Quadrants.Library.StatefulLoops

theorem bind_eq_ok {ε α β : Type} {x : Except ε α} {f : α → Except ε β} {b : β} :
    (x >>= f) = .ok b ↔ ∃ a, x = .ok a ∧ f a = .ok b := by
  cases x with
  | error e => simp [bind, Except.bind]
  | ok a => simp [bind, Except.bind]

theorem pure_eq_ok {ε α : Type} {a b : α} : (pure a : Except ε α) = .ok b ↔ a = b := by
  simp [pure, Except.pure]

variable {ε σ ι υ : Type} [LT υ] [DecidableLT υ]

/-- Run `body` at `count` successive indices and keep the largest value seen,
starting from `result`. -/
def maxLoop (next : ι → ι) (body : ι → σ → Except ε (υ × σ)) :
    Nat → ι → υ → σ → Except ε (υ × σ)
  | 0, _, result, st => .ok (result, st)
  | count + 1, i, result, st => do
      let (v, st) ← body i st
      maxLoop next body count (next i) (if result < v then v else result) st

/-- A loop whose body is simulated step by step is simulated: the second loop
returns the same value, and the relation holds of the final states.  The
relation may mention the number of iterations left and the current index. -/
theorem maxLoop_simulation {ε' σ' : Type} {next : ι → ι}
    {body : ι → σ → Except ε (υ × σ)} (body' : ι → σ' → Except ε' (υ × σ'))
    (R : Nat → ι → σ → σ' → Prop)
    (hbody : ∀ n i st st₁' v st₁, R (n + 1) i st st₁' → body i st = .ok (v, st₁) →
      ∃ st₂', body' i st₁' = .ok (v, st₂') ∧ R n (next i) st₁ st₂')
    {count : Nat} {i : ι} {result v : υ} {st st₁ : σ} (st' : σ') (hst : R count i st st')
    (hrun : maxLoop next body count i result st = .ok (v, st₁)) :
    ∃ st₁', maxLoop next body' count i result st' = .ok (v, st₁') ∧
      R 0 (next^[count] i) st₁ st₁' := by
  induction count generalizing i result st st' with
  | zero =>
    obtain ⟨rfl, rfl⟩ := hrun
    exact ⟨st', rfl, hst⟩
  | succ count ih =>
    simp only [maxLoop, bind_eq_ok] at hrun
    obtain ⟨⟨w, st₂⟩, hstep, hrest⟩ := hrun
    obtain ⟨st₂', hstep', hrel⟩ := hbody count i st st' w st₂ hst hstep
    obtain ⟨st₁', hrest', hfinal⟩ := ih st₂' hrel hrest
    refine ⟨st₁', ?_, hfinal⟩
    simp only [maxLoop, bind_eq_ok]
    exact ⟨(w, st₂'), hstep', hrest'⟩

end Quadrants.Library.StatefulLoops
