import Mathlib.Data.List.Basic
import Mathlib.Data.Int.Notation

/-!
Sequences of items with do-while loops around parts of them, nested to any depth, and their runs
over a state. A run gives up after a number of passes of a loop, so that a fact about every such
number is a fact about every run, ending or not.
-/

namespace Quadrants.Library.NestedLoops

variable {α β σ τ : Type}

inductive Nested (α : Type) where
  | done
  | item (a : α) (rest : Nested α)
  | loop (level : ℕ) (body rest : Nested α)

def repeatWhile (body : σ → σ × Bool) (again : σ → Bool) : ℕ → σ → σ × Bool
  | 0, s => (s, false)
  | n + 1, s =>
    if (body s).2 then
      if again (body s).1 then repeatWhile body again n (body s).1 else ((body s).1, true)
    else ((body s).1, false)

theorem repeatWhile_rel {body : σ → σ × Bool} {body' : τ → τ × Bool} {again : σ → Bool}
    {again' : τ → Bool} {R Q U : σ → τ → Prop} (hstop : ∀ s t, R s t → U s t)
    (hbody : ∀ s t, R s t → (body s).2 = (body' t).2 ∧
      ((body s).2 = true → Q (body s).1 (body' t).1) ∧
      ((body s).2 = false → U (body s).1 (body' t).1))
    (hagain : ∀ s t, Q s t → again s = again' t) (hback : ∀ s t, Q s t → R s t) :
    ∀ (n : ℕ) (s : σ) (t : τ), R s t →
      (repeatWhile body again n s).2 = (repeatWhile body' again' n t).2 ∧
      ((repeatWhile body again n s).2 = true →
        Q (repeatWhile body again n s).1 (repeatWhile body' again' n t).1) ∧
      ((repeatWhile body again n s).2 = false →
        U (repeatWhile body again n s).1 (repeatWhile body' again' n t).1) := by
  intro n
  induction n with
  | zero =>
    intro s t hst
    exact ⟨rfl, fun hfinished => (nomatch hfinished), fun _ => hstop s t hst⟩
  | succ n ih =>
    intro s t hst
    obtain ⟨hflag, hdone, hcut⟩ := hbody s t hst
    rw [repeatWhile, repeatWhile, ← hflag]
    cases hfinished : (body s).2 with
    | false => exact ⟨rfl, fun h => (nomatch h), fun _ => hcut hfinished⟩
    | true =>
      have hend := hdone hfinished
      rw [← hagain _ _ hend, if_pos rfl]
      cases again (body s).1 with
      | true => exact ih _ _ (hback _ _ hend)
      | false => exact ⟨rfl, fun _ => hend, fun h => (nomatch h)⟩

theorem repeatWhile_keeps {body : σ → σ × Bool} (again : σ → Bool) {I : σ → Prop}
    (hbody : ∀ s, I s → I (body s).1) : ∀ (n : ℕ) {s : σ}, I s → I (repeatWhile body again n s).1
  | 0, _, hs => hs
  | n + 1, s, hs => by
    rw [repeatWhile]
    split
    · split
      · exact repeatWhile_keeps again hbody n (hbody s hs)
      · exact hbody s hs
    · exact hbody s hs

namespace Nested

def flatten : Nested α → List α
  | done => []
  | item a rest => a :: rest.flatten
  | loop _ body rest => body.flatten ++ rest.flatten

def loops : Nested α → List ℕ
  | done => []
  | item _ rest => rest.loops
  | loop level body rest => level :: body.loops ++ rest.loops

def emit (as : List α) (p : Nested α) : Nested α :=
  as.foldr item p

def append : Nested α → Nested α → Nested α
  | done, q => q
  | item a rest, q => item a (rest.append q)
  | loop level body rest, q => loop level body (rest.append q)

def expand (f : α → List β) : Nested α → Nested β
  | done => done
  | item a rest => emit (f a) (rest.expand f)
  | loop level body rest => loop level (body.expand f) (rest.expand f)

def AtLevel (level : α → ℤ) : Nested α → ℤ → Prop
  | done, _ => True
  | item a rest, parent => level a = parent ∧ rest.AtLevel level parent
  | loop l body rest, parent => body.AtLevel level l ∧ rest.AtLevel level parent

@[simp] theorem flatten_emit (as : List α) (p : Nested α) :
    (emit as p).flatten = as ++ p.flatten := by
  induction as with
  | nil => rfl
  | cons a as ih =>
    change a :: (emit as p).flatten = _
    rw [ih]
    rfl

@[simp] theorem loops_emit (as : List α) (p : Nested α) : (emit as p).loops = p.loops := by
  induction as with
  | nil => rfl
  | cons a as ih => exact ih

theorem flatten_append (p q : Nested α) : (p.append q).flatten = p.flatten ++ q.flatten := by
  induction p with
  | done => rfl
  | item a rest ih => simp [append, flatten, ih]
  | loop level body rest _ ih => simp [append, flatten, ih]

theorem flatten_expand (f : α → List β) (p : Nested α) :
    (p.expand f).flatten = p.flatten.flatMap f := by
  induction p with
  | done => rfl
  | item a rest ih => simp [expand, flatten, ih]
  | loop level body rest ihbody ihrest => simp [expand, flatten, ihbody, ihrest]

theorem atLevel_emit {level : α → ℤ} {as : List α} {p : Nested α} {parent : ℤ} :
    (emit as p).AtLevel level parent ↔ (∀ a ∈ as, level a = parent) ∧ p.AtLevel level parent := by
  induction as with
  | nil => simp [emit]
  | cons a as ih =>
    change level a = parent ∧ (emit as p).AtLevel level parent ↔ _
    rw [ih]
    simp [and_assoc]

section Run

variable (step : α → σ → σ) (again : ℕ → σ → Bool) (n : ℕ)

def run : Nested α → σ → σ × Bool
  | done, s => (s, true)
  | item a rest, s => rest.run (step a s)
  | loop level body rest, s =>
    if (repeatWhile body.run (again level) n s).2 then
      rest.run (repeatWhile body.run (again level) n s).1
    else ((repeatWhile body.run (again level) n s).1, false)

variable {step again n}

theorem run_emit (as : List α) (p : Nested α) (s : σ) :
    (emit as p).run step again n s = p.run step again n (as.foldl (fun s a => step a s) s) := by
  induction as generalizing s with
  | nil => rfl
  | cons a as ih => exact ih (step a s)

theorem run_append (p q : Nested α) (s : σ) : (p.append q).run step again n s =
      if (p.run step again n s).2 then q.run step again n (p.run step again n s).1
      else ((p.run step again n s).1, false) := by
  induction p generalizing s with
  | done => rfl
  | item a rest ih => exact ih (step a s)
  | loop level body rest _ ih =>
    rw [append, run, run]
    split
    · exact ih _
    · simp

theorem run_keeps {I : σ → Prop} {p : Nested α}
    (hstep : ∀ a ∈ p.flatten, ∀ s, I s → I (step a s)) {s : σ} (hs : I s) :
    I (p.run step again n s).1 := by
  induction p generalizing s with
  | done => exact hs
  | item a rest ih =>
    exact ih (fun b hb => hstep b (List.mem_cons_of_mem a hb))
      (hstep a List.mem_cons_self s hs)
  | loop level body rest ihbody ihrest =>
    have hpass := repeatWhile_keeps (again level) (fun s hs => ihbody
      (fun b hb => hstep b (List.mem_append_left _ hb)) hs) n hs
    rw [run]
    split
    · exact ihrest (fun b hb => hstep b (List.mem_append_right _ hb)) hpass
    · exact hpass

theorem run_expand {step' : β → σ → σ} {f : α → List β} {p : Nested α}
    (hstep : ∀ a ∈ p.flatten, ∀ s, (f a).foldl (fun s b => step' b s) s = step a s) (s : σ) :
    (p.expand f).run step' again n s = p.run step again n s := by
  induction p generalizing s with
  | done => rfl
  | item a rest ih =>
    rw [expand, run_emit, hstep a List.mem_cons_self s]
    exact ih (fun b hb => hstep b (List.mem_cons_of_mem a hb)) _
  | loop level body rest ihbody ihrest =>
    have hbody : (body.expand f).run step' again n = body.run step again n :=
      funext (ihbody fun b hb => hstep b (List.mem_append_left _ hb))
    have hrest : (rest.expand f).run step' again n = rest.run step again n :=
      funext (ihrest fun b hb => hstep b (List.mem_append_right _ hb))
    rw [expand, run, run, hbody, hrest]

end Run

end Nested

end Quadrants.Library.NestedLoops
