import Mathlib.Data.List.Basic

/-!
Programs that make calls and branch on the answers. A program is run against an environment
that answers each call, in the light of all the calls before it, and that cuts the program off
after a number of calls. Two programs that agree under every environment make the same sequence
of calls, whether or not they end.
-/

namespace Quadrants.Library.CallTrace

variable {ι ε α β : Type}

inductive Outcome (ι ε α : Type) where
  | done (result : α) (calls : List ι)
  | cutOff (calls : List ι)
  | fault (error : ε)
  deriving DecidableEq, Repr

structure Environment (ι : Type) where
  /-- The answer to the last of the calls. -/
  answer : List ι → Bool
  budget : ℕ

def Calls (ι ε α : Type) := Environment ι → List ι → Outcome ι ε α

namespace Calls

def bind (x : Calls ι ε α) (f : α → Calls ι ε β) : Calls ι ε β := fun env calls =>
  match x env calls with
  | .done result calls => f result env calls
  | .cutOff calls => .cutOff calls
  | .fault error => .fault error

instance : Monad (Calls ι ε) where
  pure result := fun _ calls => .done result calls
  bind := bind

def perform (call : ι) : Calls ι ε Bool := fun env calls =>
  if calls.length < env.budget then .done (env.answer (calls ++ [call])) (calls ++ [call])
  else .cutOff calls

def fail (error : ε) : Calls ι ε α := fun _ _ => .fault error

/-- `do { body } while (again)`, for at most `gas` passes. The body may end the loop, and the
program, by returning false. -/
def doWhile (exhausted : ε) (body : Calls ι ε Bool) (again : ι) : ℕ → Calls ι ε Bool
  | 0 => fail exhausted
  | gas + 1 => do
      if ← body then
        if ← perform again then doWhile exhausted body again gas
        else pure true
      else pure false

variable {env : Environment ι} {calls : List ι}

@[simp] theorem pure_apply (result : α) :
    (pure result : Calls ι ε α) env calls = .done result calls := rfl

theorem bind_apply (x : Calls ι ε α) (f : α → Calls ι ε β) : (x >>= f) env calls =
      match x env calls with
      | .done result calls => f result env calls
      | .cutOff calls => .cutOff calls
      | .fault error => .fault error := rfl

theorem bind_congr {x y : Calls ι ε α} {f g : α → Calls ι ε β} (hxy : x env calls = y env calls)
    (hfg : ∀ result calls', y env calls = .done result calls' →
      f result env calls' = g result env calls') :
    (x >>= f) env calls = (y >>= g) env calls := by
  rw [bind_apply, bind_apply, hxy]
  cases hy : y env calls with
  | done result calls' => exact hfg result calls' hy
  | cutOff calls' => rfl
  | fault error => rfl

theorem perform_eq_done {call : ι} {result : Bool} {calls' : List ι}
    (h : (perform call : Calls ι ε Bool) env calls = .done result calls') :
    calls.length < env.budget ∧ calls' = calls ++ [call] := by
  unfold perform at h
  split at h
  · rename_i hlt
    obtain ⟨-, rfl⟩ := Outcome.done.inj h
    exact ⟨hlt, rfl⟩
  · cases h

end Calls

/-- Run from calls in `I`, the program does not fail, adds to the calls, and ends with `Q` or is
cut off with `C`. -/
def Ensures (env : Environment ι) (I : List ι → Prop) (x : Calls ι ε α)
    (Q : α → List ι → Prop) (C : List ι → Prop) : Prop :=
  ∀ calls, I calls →
    match x env calls with
    | .done result calls' => calls <+: calls' ∧ Q result calls'
    | .cutOff calls' => calls <+: calls' ∧ C calls'
    | .fault _ => False

namespace Ensures

variable {env : Environment ι} {I C : List ι → Prop} {x : Calls ι ε α} {Q : α → List ι → Prop}

theorem le_length (h : Ensures env I x Q C) {calls calls' : List ι} {result : α} (hcalls : I calls)
    (hdone : x env calls = .done result calls') : calls.length ≤ calls'.length := by
  have hx := h calls hcalls
  rw [hdone] at hx
  exact hx.1.length_le

theorem pure {result : α} (h : ∀ calls, I calls → Q result calls) :
    Ensures env I (Pure.pure result : Calls ι ε α) Q C :=
  fun calls hcalls => ⟨List.prefix_rfl, h calls hcalls⟩

theorem bind {f : α → Calls ι ε β} {R : β → List ι → Prop} (hx : Ensures env I x Q C)
    (hf : ∀ result, Ensures env (Q result) (f result) R C) : Ensures env I (x >>= f) R C := by
  intro calls hcalls
  have h := hx calls hcalls
  rw [Calls.bind_apply]
  cases hout : x env calls with
  | done result calls' =>
    rw [hout] at h
    have h' := hf result calls' h.2
    show match f result env calls' with
      | .done result calls'' => calls <+: calls'' ∧ R result calls''
      | .cutOff calls'' => calls <+: calls'' ∧ C calls''
      | .fault _ => False
    cases hout' : f result env calls' with
    | done result' calls'' =>
      rw [hout'] at h'
      exact ⟨h.1.trans h'.1, h'.2⟩
    | cutOff calls'' =>
      rw [hout'] at h'
      exact ⟨h.1.trans h'.1, h'.2⟩
    | fault error =>
      rw [hout'] at h'
      exact h'.elim
  | cutOff calls' =>
    rw [hout] at h
    exact h
  | fault error =>
    rw [hout] at h
    exact h.elim

theorem perform {call : ι} {Q : Bool → List ι → Prop}
    (hmade : ∀ calls, I calls → Q (env.answer (calls ++ [call])) (calls ++ [call]))
    (hcut : ∀ calls, I calls → env.budget ≤ calls.length → C calls) :
    Ensures env I (Calls.perform call : Calls ι ε Bool) Q C := by
  intro calls hcalls
  unfold Calls.perform
  rcases Nat.lt_or_ge calls.length env.budget with hlt | hge
  · rw [if_pos hlt]
    exact ⟨List.prefix_append calls [call], hmade calls hcalls⟩
  · rw [if_neg (Nat.not_lt.mpr hge)]
    exact ⟨List.prefix_rfl, hcut calls hcalls hge⟩

theorem weaken {Q' : α → List ι → Prop} {C' : List ι → Prop} (hx : Ensures env I x Q C)
    (hQ : ∀ result calls, Q result calls → Q' result calls) (hC : ∀ calls, C calls → C' calls) :
    Ensures env I x Q' C' := by
  intro calls hcalls
  have h := hx calls hcalls
  cases hout : x env calls with
  | done result calls' =>
    rw [hout] at h
    exact ⟨h.1, hQ result calls' h.2⟩
  | cutOff calls' =>
    rw [hout] at h
    exact ⟨h.1, hC calls' h.2⟩
  | fault error =>
    rw [hout] at h
    exact h.elim

theorem frame {P : List ι → Prop} (hx : Ensures env I x Q C)
    (hP : ∀ calls calls', calls <+: calls' → P calls → P calls') :
    Ensures env (fun calls => I calls ∧ P calls) x (fun result calls => Q result calls ∧ P calls)
      C := by
  rintro calls ⟨hcalls, hframe⟩
  have h := hx calls hcalls
  cases hout : x env calls with
  | done result calls' =>
    rw [hout] at h
    exact ⟨h.1, h.2, hP calls calls' h.1 hframe⟩
  | cutOff calls' =>
    rw [hout] at h
    exact h
  | fault error =>
    rw [hout] at h
    exact h.elim

theorem doWhile {exhausted : ε} {body : Calls ι ε Bool} {again : ι} {F : List ι → Prop}
    (hbody : Ensures env I body (fun result => if result then I else F) C)
    (hagain : ∀ calls, I calls → I (calls ++ [again]))
    (hcut : ∀ calls, I calls → env.budget ≤ calls.length → C calls) (gas : ℕ) :
    Ensures env (fun calls => I calls ∧ env.budget - calls.length < gas)
      (Calls.doWhile exhausted body again gas) (fun result => if result then I else F) C := by
  induction gas with
  | zero =>
    rintro calls ⟨-, hgas⟩
    exact absurd hgas (Nat.not_lt_zero _)
  | succ gas ih =>
    have hframe := hbody.frame (P := fun calls => env.budget - calls.length < gas + 1)
      fun calls calls' hprefix hgas => by
        have := hprefix.length_le
        omega
    refine hframe.bind fun result => ?_
    cases result with
    | false => exact Ensures.pure fun calls h => h.1
    | true =>
      refine Ensures.bind (Q := fun result calls =>
        I calls ∧ (result = true → env.budget - calls.length < gas)) ?_ fun again => ?_
      · intro calls hcalls
        unfold Calls.perform
        rcases Nat.lt_or_ge calls.length env.budget with hlt | hge
        · rw [if_pos hlt]
          refine ⟨List.prefix_append calls [again], hagain calls hcalls.1, fun _ => ?_⟩
          rw [List.length_append, List.length_singleton]
          omega
        · rw [if_neg (Nat.not_lt.mpr hge)]
          exact ⟨List.prefix_rfl, hcut calls hcalls.1 hge⟩
      · cases again with
        | false => exact Ensures.pure fun calls h => h.1
        | true => exact fun calls hcalls => ih calls ⟨hcalls.1, hcalls.2 rfl⟩

end Ensures

end Quadrants.Library.CallTrace
