import Mathlib.Data.List.Induction
import Mathlib.Data.List.Perm.Subperm
import Mathlib.Tactic.Common

/-!
The search that marks what is reached and keeps what is still to be followed on a stack.
-/

namespace Quadrants.Library.Worklist

open List

variable {α : Type} [DecidableEq α]

structure Marks (α : Type) where
  marked : List α
  stack : List α

variable (admits : α → Bool) (next : α → List α)

def push (m : Marks α) (x : α) : Marks α :=
  if admits x = true ∧ x ∉ m.marked then ⟨x :: m.marked, x :: m.stack⟩ else m

def drain : ℕ → Marks α → Marks α
  | 0, m => m
  | fuel + 1, m =>
    match m.stack with
    | [] => m
    | x :: rest => drain fuel ((next x).foldl (push admits) ⟨m.marked, rest⟩)

def search (fuel : ℕ) (seeds : List α) : List α :=
  (drain admits next fuel (seeds.foldl (push admits) ⟨[], []⟩)).marked

inductive Reaches (seeds : List α) : α → Prop
  | seed {x} (hx : x ∈ seeds) (hadmits : admits x = true) : Reaches seeds x
  | step {x y} (hx : Reaches seeds x) (hy : y ∈ next x) (hadmits : admits y = true) :
      Reaches seeds y

/-- Nothing that is marked is lost, and an element is followed unless it waits on the stack. -/
structure Sound (seeds : List α) (m : Marks α) : Prop where
  nodup : m.marked.Nodup
  reaches : ∀ x ∈ m.marked, Reaches admits next seeds x
  waits : ∀ x ∈ m.stack, x ∈ m.marked
  seeds : ∀ x ∈ seeds, admits x = true → x ∈ m.marked
  followed : ∀ x ∈ m.marked, x ∉ m.stack → ∀ y ∈ next x, admits y = true → y ∈ m.marked

variable {admits next}

theorem foldl_push (admits : α → Bool) (xs : List α) (m : Marks α) :
    ∃ new, xs.foldl (push admits) m = ⟨new ++ m.marked, new ++ m.stack⟩ ∧
      (∀ x ∈ new, x ∈ xs ∧ admits x = true) ∧
      (∀ x ∈ xs, admits x = true → x ∈ new ++ m.marked) ∧
      (m.marked.Nodup → (new ++ m.marked).Nodup) := by
  induction xs using List.reverseRecOn with
  | nil => exact ⟨[], rfl, nofun, nofun, id⟩
  | append_singleton xs x ih =>
    obtain ⟨new, heq, hnew, hall, hnodup⟩ := ih
    rw [foldl_append, heq, foldl_cons, push]
    split_ifs with hx
    · refine ⟨x :: new, rfl, ?_, ?_, fun h => nodup_cons.2 ⟨hx.2, hnodup h⟩⟩
      · rw [forall_mem_cons]
        exact ⟨⟨by simp, hx.1⟩, fun y hy => ⟨by simp [(hnew y hy).1], (hnew y hy).2⟩⟩
      · intro y hy hadmits
        rcases mem_append.1 hy with hy | hy
        · exact mem_cons_of_mem _ (hall y hy hadmits)
        · exact mem_singleton.1 hy ▸ mem_cons_self
    · refine ⟨new, rfl, fun y hy => ⟨by simp [(hnew y hy).1], (hnew y hy).2⟩, ?_, hnodup⟩
      intro y hy hadmits
      rcases mem_append.1 hy with hy | hy
      · exact hall y hy hadmits
      · obtain rfl := mem_singleton.1 hy
        by_contra hmem
        exact hx ⟨hadmits, hmem⟩

theorem sound_start (admits : α → Bool) (next : α → List α) (seeds : List α) :
    Sound admits next seeds (seeds.foldl (push admits) ⟨[], []⟩) := by
  obtain ⟨new, heq, hnew, hall, hnodup⟩ := foldl_push admits seeds ⟨[], []⟩
  rw [heq]
  constructor
  · exact hnodup nodup_nil
  · intro x hx
    rw [append_nil] at hx
    exact .seed (hnew x hx).1 (hnew x hx).2
  · exact fun x hx => hx
  · exact hall
  · exact fun x hx hnot => absurd hx hnot

variable {all seeds : List α} {x : α}

theorem Sound.pop {rest marked : List α} (h : Sound admits next seeds ⟨marked, x :: rest⟩) :
    Sound admits next seeds ((next x).foldl (push admits) ⟨marked, rest⟩) := by
  obtain ⟨new, heq, hnew, hall, hnodup⟩ := foldl_push admits (next x) ⟨marked, rest⟩
  have hx : x ∈ marked := h.waits x mem_cons_self
  rw [heq]
  constructor
  · exact hnodup h.nodup
  · intro y hy
    rcases mem_append.1 hy with hy | hy
    · exact .step (h.reaches x hx) (hnew y hy).1 (hnew y hy).2
    · exact h.reaches y hy
  · intro y hy
    refine mem_append.2 ((mem_append.1 hy).imp id fun hy => ?_)
    exact h.waits y (mem_cons_of_mem _ hy)
  · intro y hy hadmits
    exact mem_append_right _ (h.seeds y hy hadmits)
  · intro y hy hnot z hz hadmits
    rw [mem_append, not_or] at hnot
    rcases mem_append.1 hy with hy | hy
    · exact absurd hy hnot.1
    · by_cases hyx : y = x
      · subst hyx
        exact hall z hz hadmits
      · refine mem_append_right _ (h.followed y hy ?_ z hz hadmits)
        rw [mem_cons, not_or]
        exact ⟨hyx, hnot.2⟩

omit [DecidableEq α] in
theorem Reaches.admitted (h : Reaches admits next seeds x) : admits x = true := by
  cases h with
  | seed _ hadmits => exact hadmits
  | step _ _ hadmits => exact hadmits

omit [DecidableEq α] in
theorem Sound.length_le (hall : ∀ x, admits x = true → x ∈ all)
    {m : Marks α} (h : Sound admits next seeds m) : m.marked.length ≤ all.length :=
  (subperm_of_subset h.nodup fun x hx => hall x (h.reaches x hx).admitted).length_le

theorem drain_spec (hall : ∀ x, admits x = true → x ∈ all) {fuel : ℕ}
    {m : Marks α} (h : Sound admits next seeds m)
    (hfuel : all.length - m.marked.length + m.stack.length ≤ fuel) :
    Sound admits next seeds (drain admits next fuel m) ∧
      (drain admits next fuel m).stack = [] := by
  induction fuel generalizing m with
  | zero =>
    have hempty : m.stack.length = 0 := by omega
    exact ⟨h, length_eq_zero_iff.1 hempty⟩
  | succ fuel ih =>
    obtain ⟨marked, stack⟩ := m
    cases stack with
    | nil => exact ⟨h, rfl⟩
    | cons x rest =>
      have hpop := h.pop
      refine ih hpop ?_
      have hle := hpop.length_le hall
      obtain ⟨new, heq, -⟩ := foldl_push admits (next x) ⟨marked, rest⟩
      rw [heq] at hle ⊢
      simp only [length_append, length_cons] at hle hfuel ⊢
      omega

theorem mem_search (hall : ∀ x, admits x = true → x ∈ all) :
    x ∈ search admits next all.length seeds ↔ Reaches admits next seeds x := by
  have hstart := sound_start admits next seeds
  have hfuel : all.length - (seeds.foldl (push admits) ⟨[], []⟩).marked.length +
      (seeds.foldl (push admits) ⟨[], []⟩).stack.length ≤ all.length := by
    have hle := hstart.length_le hall
    obtain ⟨new, heq, -⟩ := foldl_push admits seeds ⟨[], []⟩
    rw [heq] at hle ⊢
    simp only [append_nil] at hle ⊢
    omega
  obtain ⟨hsound, hempty⟩ := drain_spec hall hstart hfuel
  constructor
  · exact hsound.reaches x
  · intro hx
    induction hx with
    | seed hx hadmits => exact hsound.seeds _ hx hadmits
    | step hx hy hadmits ih =>
      refine hsound.followed _ ih ?_ _ hy hadmits
      rw [hempty]
      exact not_mem_nil

end Quadrants.Library.Worklist
