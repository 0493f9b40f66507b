import Mathlib.Data.List.Perm.Basic
import Mathlib.Data.List.Nodup

/-!
Threads that come in groups and go through phases. The threads of a group wait for each other
between two phases, and nobody waits for another group. What a group sees of the state is changed by
its own threads only, so that a group ends as if its threads had run alone, phase by phase.
-/

namespace Quadrants.Library.BarrierRuns

open List

variable {ι γ σ : Type} [DecidableEq γ]

structure Grouped (group : ι → γ) (agree : γ → σ → σ → Prop) (threads : List ι)
    (step : ι → σ → σ) : Prop where
  keeps : ∀ i ∈ threads, ∀ g, group i ≠ g → ∀ s, agree g (step i s) s
  determined : ∀ i ∈ threads, ∀ s s', agree (group i) s s' →
    agree (group i) (step i s) (step i s')

theorem keeps_foldl {β : Type} {same : σ → σ → Prop} (hequiv : Equivalence same) {f : σ → β → σ}
    {l : List β} (h : ∀ x ∈ l, ∀ s, same (f s x) s) (s : σ) : same (l.foldl f s) s := by
  induction l generalizing s with
  | nil => exact hequiv.refl s
  | cons x l ih =>
    obtain ⟨hx, hl⟩ := forall_mem_cons.1 h
    exact hequiv.trans (ih hl (f s x)) (hx s)

theorem determined_foldl {β : Type} {same : σ → σ → Prop} {f : σ → β → σ} {l : List β}
    (h : ∀ x ∈ l, ∀ s s', same s s' → same (f s x) (f s' x)) {s s' : σ} (hs : same s s') :
    same (l.foldl f s) (l.foldl f s') := by
  induction l generalizing s s' with
  | nil => exact hs
  | cons x l ih =>
    obtain ⟨hx, hl⟩ := forall_mem_cons.1 h
    exact ih hl (hx s s' hs)

/-- An order of the steps of all threads that respects the barriers of the groups -/
structure Schedule (phases : ℕ) (threads : List ι) (group : ι → γ) where
  events : List (ℕ × ι)
  perm : events.Perm ((List.range phases).flatMap fun p => threads.map fun i => (p, i))
  waits : events.Pairwise fun e e' => group e.2 = group e'.2 → e.1 ≤ e'.1

variable {phases : ℕ} {threads : List ι} {group : ι → γ}

def Schedule.run (S : Schedule phases threads group) (step : ℕ → ι → σ → σ) (s : σ) : σ :=
  S.events.foldl (fun s e => step e.1 e.2 s) s

variable {agree : γ → σ → σ → Prop} {s s' : σ} {step : ℕ → ι → σ → σ}

omit [DecidableEq γ] in
theorem Schedule.run_eq (S : Schedule phases threads group) {β : Type} (f : σ → β)
    (h : ∀ p i s, f (step p i s) = f s) (s : σ) :
    f (S.run step s) = f s := by
  rw [Schedule.run]
  induction S.events generalizing s with
  | nil => rfl
  | cons e events ih => exact (ih _).trans (h e.1 e.2 s)

def Schedule.inOrder (phases : ℕ) (threads : List ι) (group : ι → γ) :
    Schedule phases threads group where
  events := (List.range phases).flatMap fun p => threads.map fun i => (p, i)
  perm := List.Perm.refl _
  waits := by
    suffices hsorted : ((List.range phases).flatMap fun p => threads.map fun i => (p, i)).Pairwise
        fun e e' => e.1 ≤ e'.1 by
      apply hsorted.imp
      intro e e' hle _
      exact hle
    refine pairwise_flatMap.2 ⟨?_, ?_⟩
    · intro p _
      exact pairwise_map.2 (pairwise_of_forall fun _ _ => Nat.le_refl p)
    · refine pairwise_lt_range.imp fun {p q} hpq e he e' he' => ?_
      obtain ⟨i, _, rfl⟩ := mem_map.1 he
      obtain ⟨j, _, rfl⟩ := mem_map.1 he'
      exact Nat.le_of_lt hpq

instance (phases : ℕ) (threads : List ι) (group : ι → γ) :
    Inhabited (Schedule phases threads group) :=
  ⟨Schedule.inOrder phases threads group⟩

section Sorted

variable {β : Type} {key : β → ℕ} {l : List β} {n : ℕ}

theorem filter_lt_append_filter_eq (hsorted : l.Pairwise fun x y => key x ≤ key y)
    (hlt : ∀ x ∈ l, key x < n + 1) :
    ((l.filter fun x => key x < n) ++ l.filter fun x => key x = n) = l := by
  induction l with
  | nil => rfl
  | cons x l ih =>
    obtain ⟨hx, hl⟩ := pairwise_cons.1 hsorted
    obtain ⟨hxn, hln⟩ := forall_mem_cons.1 hlt
    have hrest := ih hl hln
    rcases Nat.lt_or_ge (key x) n with hlow | hhigh
    · rw [filter_cons_of_pos (by simpa using hlow),
        filter_cons_of_neg (by simpa using Nat.ne_of_lt hlow), cons_append, hrest]
    · have hnone : (l.filter fun y => key y < n) = [] := by
        apply filter_eq_nil_iff.2
        intro y hy
        have hle := hx y hy
        simp only [decide_eq_true_eq]
        omega
      rw [hnone, nil_append] at hrest
      rw [filter_cons_of_neg (by simpa using hhigh), hnone, nil_append,
        filter_cons_of_pos (by simp only [decide_eq_true_eq]; omega), hrest]

theorem flatMap_filter_eq (hsorted : l.Pairwise fun x y => key x ≤ key y)
    (hlt : ∀ x ∈ l, key x < n) :
    ((List.range n).flatMap fun p => l.filter fun x => key x = p) = l := by
  induction n generalizing l with
  | zero =>
    have hnil : l = [] := by
      apply eq_nil_iff_forall_not_mem.2
      intro x hx
      exact Nat.not_lt_zero _ (hlt x hx)
    rw [hnil]
    rfl
  | succ n ih =>
    rw [range_succ, flatMap_append, flatMap_singleton]
    have hlow := ih (hsorted.filter fun x => key x < n)
      fun x hx => by simpa using (mem_filter.1 hx).2
    have hsame : ((List.range n).flatMap fun p => l.filter fun x => key x = p) =
        (List.range n).flatMap fun p =>
          (l.filter fun x => key x < n).filter fun x => key x = p := by
      apply flatMap_congr
      intro p hp
      rw [filter_filter]
      apply filter_congr
      intro x _
      have hpn := mem_range.1 hp
      rcases eq_or_ne (key x) p with hxp | hxp
      · simp [hxp, hpn]
      · simp [hxp]
    rw [hsame, hlow, filter_lt_append_filter_eq hsorted hlt]

theorem flatMap_ite_eq {p : ℕ} (hp : p < n) :
    ((List.range n).flatMap fun q => if q = p then l else []) = l := by
  induction n with
  | zero => exact absurd hp (Nat.not_lt_zero p)
  | succ n ih =>
    rw [range_succ, flatMap_append, flatMap_singleton]
    rcases Nat.eq_or_lt_of_le (Nat.le_of_lt_succ hp) with rfl | hlt
    · have hnone : ((List.range p).flatMap fun q => if q = p then l else []) = [] := by
        apply flatMap_eq_nil_iff.2
        intro q hq
        exact if_neg (Nat.ne_of_lt (mem_range.1 hq))
      rw [hnone, if_pos rfl, nil_append]
    · rw [ih hlt, if_neg (Nat.ne_of_gt hlt), append_nil]

end Sorted

theorem agree_foldl (hequiv : ∀ g, Equivalence (agree g))
    (hstep : ∀ p, Grouped group agree threads (step p)) (g : γ)
    {events : List (ℕ × ι)} (hevents : ∀ e ∈ events, e.2 ∈ threads) (h : agree g s s') :
    agree g (events.foldl (fun s e => step e.1 e.2 s) s)
      ((events.filter fun e => group e.2 = g).foldl (fun s e => step e.1 e.2 s) s') := by
  induction events generalizing s s' with
  | nil => exact h
  | cons e events ih =>
    obtain ⟨he, hrest⟩ := forall_mem_cons.1 hevents
    rcases eq_or_ne (group e.2) g with rfl | hne
    · rw [filter_cons_of_pos (by simp)]
      exact ih hrest ((hstep e.1).determined e.2 he s s' h)
    · rw [filter_cons_of_neg (by simpa using hne)]
      exact ih hrest ((hequiv g).trans ((hstep e.1).keeps e.2 he g hne s) h)

theorem Schedule.agree_run (S : Schedule phases threads group) (hequiv : ∀ g, Equivalence (agree g))
    (hstep : ∀ p, Grouped group agree threads (step p)) (g : γ) (s : σ) : ∃ order : ℕ → List ι,
      (∀ p < phases, (order p).Perm (threads.filter fun i => group i = g)) ∧
      agree g (S.run step s)
        ((List.range phases).foldl (fun s p => (order p).foldl (fun s i => step p i s) s) s) := by
  have hmem : ∀ e ∈ S.events, e.1 < phases ∧ e.2 ∈ threads := by
    intro e he
    obtain ⟨p, hp, hpe⟩ := mem_flatMap.1 (S.perm.mem_iff.1 he)
    obtain ⟨i, hi, rfl⟩ := mem_map.1 hpe
    exact ⟨mem_range.1 hp, hi⟩
  let own := S.events.filter fun e => group e.2 = g
  have hsorted : own.Pairwise fun e e' => e.1 ≤ e'.1 := by
    refine (S.waits.filter _).imp_of_mem fun {e e'} he he' hle => hle ?_
    have hge := (mem_filter.1 he).2
    have hge' := (mem_filter.1 he').2
    simp only [decide_eq_true_eq] at hge hge'
    rw [hge, hge']
  have hown := flatMap_filter_eq hsorted
    fun e he => (hmem e (mem_of_mem_filter he)).1
  refine ⟨fun p => (own.filter fun e => e.1 = p).map (·.2), ?_, ?_⟩
  · intro p hp
    have hperm := ((S.perm.filter fun e => group e.2 = g).filter fun e => e.1 = p).map (·.2)
    refine hperm.trans (List.Perm.of_eq ?_)
    rw [filter_filter, filter_flatMap, map_flatMap]
    have hphase : ∀ q, ((threads.map fun i => (q, i)).filter fun e =>
        decide (e.1 = p) && decide (group e.2 = g)).map (·.2) =
        if q = p then threads.filter fun i => group i = g else [] := by
      intro q
      rw [filter_map]
      split_ifs with hq
      · subst hq
        simp [Function.comp_def]
      · simp [Function.comp_def, hq]
    simp only [hphase]
    exact flatMap_ite_eq hp
  · have hrun := agree_foldl hequiv hstep g (fun e he => (hmem e he).2) ((hequiv g).refl s)
    refine (hequiv g).trans hrun (Eq.subst (motive := agree g _) ?_ ((hequiv g).refl _))
    refine (congrArg (List.foldl _ s) hown.symm).trans ?_
    rw [foldl_flatMap]
    apply foldl_ext
    intro s' p _
    rw [foldl_map]
    apply foldl_ext
    intro t e he
    rw [of_decide_eq_true (mem_filter.1 he).2]

end Quadrants.Library.BarrierRuns
