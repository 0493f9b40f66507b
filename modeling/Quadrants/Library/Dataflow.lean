import Mathlib.Algebra.BigOperators.Group.Finset.Basic
import Mathlib.Algebra.Order.BigOperators.Group.Finset
import Mathlib.Data.Finset.Union
import Mathlib.Logic.Relation
import Mathlib.Order.Bounds.Basic
import Mathlib.Tactic.Common

/-!
Gen/kill dataflow problems on finite graphs and the worklist algorithm. The nodes may be taken
from the worklist in any order.
-/

namespace Quadrants.Library.Dataflow

open List

variable {ν α : Type}

structure Problem (ν α : Type) where
  nodes : List ν
  sources : ν → List ν
  targets : ν → List ν
  gen : ν → Finset α
  keep : ν → α → Bool
  mem_targets : ∀ u v, v ∈ targets u ↔ u ∈ sources v
  closed : ∀ u v, v ∈ targets u → u ∈ nodes ∧ v ∈ nodes

structure State (ν α : Type) where
  input : ν → Finset α
  output : ν → Finset α
  worklist : List ν

def State.sets (s : State ν α) : (ν → Set α) × (ν → Set α) :=
  (fun v => ↑(s.input v), fun v => ↑(s.output v))

namespace Problem

variable (P : Problem ν α)

def Equations (p : (ν → Set α) × (ν → Set α)) : Prop :=
  ∀ v, p.1 v = {x | ∃ u ∈ P.sources v, x ∈ p.2 u} ∧
    p.2 v = {x | x ∈ P.gen v ∨ x ∈ p.1 v ∧ P.keep v x = true}

/-- The fact `x` leaves the node: it is generated there or on a path that keeps it. -/
inductive Flows (x : α) : ν → Prop
  | gen {v : ν} : x ∈ P.gen v → Flows x v
  | keep {u v : ν} : Flows x u → u ∈ P.sources v → P.keep v x = true → Flows x v

def flows : (ν → Set α) × (ν → Set α) :=
  (fun v => {x | ∃ u ∈ P.sources v, P.Flows x u}, fun v => {x | P.Flows x v})

theorem equations_flows : P.Equations P.flows := by
  refine fun v => ⟨rfl, Set.ext fun x => ⟨fun hx => ?_, ?_⟩⟩
  · cases hx with
    | gen hgen => exact Or.inl hgen
    | keep hflows hsource hkeep => exact Or.inr ⟨⟨_, hsource, hflows⟩, hkeep⟩
  · rintro (hgen | ⟨⟨u, hsource, hflows⟩, hkeep⟩)
    · exact .gen hgen
    · exact .keep hflows hsource hkeep

variable {P}

theorem Flows.mem_of_equations {p : (ν → Set α) × (ν → Set α)} (hp : P.Equations p) {x : α}
    {v : ν} (h : P.Flows x v) : x ∈ p.2 v := by
  induction h with
  | gen hgen =>
    rw [(hp _).2]
    exact Or.inl hgen
  | @keep u v _ hsource hkeep ih =>
    rw [(hp v).2]
    refine Or.inr ⟨?_, hkeep⟩
    rw [(hp v).1]
    exact ⟨u, hsource, ih⟩

variable (P) in
theorem isLeast_flows : IsLeast {p | P.Equations p} P.flows := by
  refine ⟨P.equations_flows, fun p hp => ⟨fun v x => ?_, fun v x => ?_⟩⟩
  · rintro ⟨u, hsource, hflows⟩
    rw [(hp v).1]
    exact ⟨u, hsource, hflows.mem_of_equations hp⟩
  · exact fun hflows => Flows.mem_of_equations hp hflows

section Worklist

variable [DecidableEq α]

variable (P) in
def transfer (v : ν) (input : Finset α) : Finset α :=
  P.gen v ∪ input.filter fun x => P.keep v x = true

variable {input : Finset α} {rest : List ν} {s' t : State ν α} {v : ν} {x : α}

theorem mem_transfer : x ∈ P.transfer v input ↔ x ∈ P.gen v ∨ x ∈ input ∧ P.keep v x = true := by
  simp [transfer]

theorem transfer_mono {input' : Finset α} (h : input ⊆ input') :
    P.transfer v input ⊆ P.transfer v input' :=
  Finset.union_subset_union_right (Finset.filter_subset_filter _ h)

variable [DecidableEq ν]

variable (P)

def incoming (s : State ν α) (v : ν) : Finset α :=
  (P.sources v).toFinset.biUnion s.output

def push (worklist : List ν) (v : ν) : List ν :=
  if v ∈ worklist then worklist else worklist ++ [v]

def start : State ν α :=
  ⟨fun _ => ∅, P.gen, P.nodes⟩

def visit (s : State ν α) (v : ν) (rest : List ν) : State ν α :=
  let input := P.incoming s v
  let output := P.transfer v input
  ⟨Function.update s.input v input, Function.update s.output v output,
    if output ≠ s.output v then (P.targets v).foldl push rest else rest⟩

inductive Step : State ν α → State ν α → Prop
  | take {s : State ν α} {earlier later : List ν} {v : ν} :
      s.worklist = earlier ++ v :: later → Step s (P.visit s v (earlier ++ later))

def run : ℕ → State ν α → State ν α
  | 0, s => s
  | fuel + 1, s =>
    match s.worklist with
    | [] => s
    | v :: rest => run fuel (P.visit s v rest)

def facts : Finset α :=
  P.nodes.toFinset.biUnion P.gen

structure Invariant (s : State ν α) : Prop where
  work : ∀ v ∈ s.worklist, v ∈ P.nodes
  grows : ∀ v, s.output v ⊆ P.transfer v (P.incoming s v)
  settled : ∀ v, v ∉ s.worklist →
    s.input v = P.incoming s v ∧ s.output v = P.transfer v (P.incoming s v)
  below : s.sets ≤ P.flows
  bounded : ∀ v ∈ P.nodes, s.output v ⊆ P.facts

variable {P} {s : State ν α} {v : ν}

theorem mem_incoming : x ∈ P.incoming s v ↔ ∃ u ∈ P.sources v, x ∈ s.output u := by
  simp [incoming]

theorem mem_foldl_push {targets : List ν} {w : ν} :
    w ∈ targets.foldl push rest ↔ w ∈ rest ∨ w ∈ targets := by
  induction targets generalizing rest with
  | nil => simp
  | cons u targets ih =>
    rw [foldl_cons, ih, mem_cons, push]
    split
    · next hmem =>
        constructor
        · rintro (h | h)
          · exact Or.inl h
          · exact Or.inr (Or.inr h)
        · rintro (h | rfl | h)
          · exact Or.inl h
          · exact Or.inl hmem
          · exact Or.inr h
    · rw [mem_append, mem_singleton, or_assoc]

theorem incoming_congr (h : ∀ u ∈ P.sources v, s'.output u = s.output u) :
    P.incoming s' v = P.incoming s v :=
  Finset.biUnion_congr rfl fun u hu => h u (mem_toFinset.1 hu)

theorem incoming_mono (h : ∀ u, s.output u ⊆ s'.output u) : P.incoming s v ⊆ P.incoming s' v :=
  Finset.biUnion_mono fun u _ => h u

theorem start_invariant : P.Invariant P.start where
  work _ hv := hv
  grows _ := Finset.subset_union_left
  settled v hv := by
    have hnone : P.incoming P.start v = ∅ := by
      refine Finset.eq_empty_of_forall_notMem fun x hx => ?_
      obtain ⟨u, hsource, -⟩ := mem_incoming.1 hx
      exact hv (P.closed u v ((P.mem_targets u v).2 hsource)).2
    rw [hnone]
    exact ⟨rfl, (Finset.union_empty _).symm⟩
  below := ⟨fun _ x hx => absurd hx (Finset.notMem_empty x), fun _ _ hx => .gen hx⟩
  bounded v hv x hx := Finset.mem_biUnion.2 ⟨v, mem_toFinset.2 hv, hx⟩

section Visit

variable {rest : List ν}

theorem output_visit_self : (P.visit s v rest).output v = P.transfer v (P.incoming s v) :=
  Function.update_self _ _ _

theorem output_visit_of_ne {u : ν} (h : u ≠ v) : (P.visit s v rest).output u = s.output u :=
  Function.update_of_ne h _ _

theorem output_subset_visit (h : P.Invariant s) (u : ν) :
    s.output u ⊆ (P.visit s v rest).output u := by
  rcases eq_or_ne u v with rfl | hne
  · rw [output_visit_self]
    exact h.grows u
  · rw [output_visit_of_ne hne]

theorem below_visit (h : P.Invariant s) : (P.visit s v rest).sets ≤ P.flows := by
  have hinput : ∀ x ∈ P.incoming s v, x ∈ P.flows.1 v := by
    intro x hx
    obtain ⟨u, hsource, hmem⟩ := mem_incoming.1 hx
    exact ⟨u, hsource, h.below.2 u hmem⟩
  constructor
  · intro w x hx
    rcases eq_or_ne w v with rfl | hne
    · refine hinput x ?_
      simpa [visit, State.sets] using hx
    · refine h.below.1 w ?_
      simpa [visit, State.sets, Function.update_of_ne hne] using hx
  · intro w x hx
    change x ∈ (P.visit s v rest).output w at hx
    rcases eq_or_ne w v with rfl | hne
    · rw [output_visit_self, mem_transfer] at hx
      rcases hx with hgen | ⟨hmem, hkeep⟩
      · exact .gen hgen
      · obtain ⟨u, hsource, hflows⟩ := hinput x hmem
        exact .keep hflows hsource hkeep
    · rw [output_visit_of_ne hne] at hx
      exact h.below.2 w hx

theorem bounded_visit (h : P.Invariant s) :
    ∀ w ∈ P.nodes, (P.visit s v rest).output w ⊆ P.facts := by
  intro w hw
  rcases eq_or_ne w v with rfl | hne
  · intro x hx
    rw [output_visit_self, mem_transfer] at hx
    rcases hx with hgen | ⟨hmem, -⟩
    · exact Finset.mem_biUnion.2 ⟨w, mem_toFinset.2 hw, hgen⟩
    · obtain ⟨u, hsource, hout⟩ := mem_incoming.1 hmem
      exact h.bounded u (P.closed u w ((P.mem_targets u w).2 hsource)).1 hout
  · rw [output_visit_of_ne hne]
    exact h.bounded w hw

theorem settled_visit (h : P.Invariant s) (hrest : ∀ w ∈ s.worklist, w = v ∨ w ∈ rest) {w : ν}
    (hw : w ∉ (P.visit s v rest).worklist) :
    (P.visit s v rest).input w = P.incoming (P.visit s v rest) w ∧
      (P.visit s v rest).output w = P.transfer w (P.incoming (P.visit s v rest) w) := by
  have hsame : w ∉ rest ∧ P.incoming (P.visit s v rest) w = P.incoming s w := by
    by_cases hchanged : P.transfer v (P.incoming s v) = s.output v
    · have hnot : w ∉ rest := by simpa [visit, hchanged] using hw
      refine ⟨hnot, incoming_congr fun u _ => ?_⟩
      rcases eq_or_ne u v with rfl | hne
      · rw [output_visit_self, hchanged]
      · rw [output_visit_of_ne hne]
    · have hnot : w ∉ (P.targets v).foldl push rest := by simpa [visit, hchanged] using hw
      rw [mem_foldl_push, not_or] at hnot
      refine ⟨hnot.1, incoming_congr fun u hu => output_visit_of_ne ?_⟩
      rintro rfl
      exact hnot.2 ((P.mem_targets u w).2 hu)
  rw [hsame.2]
  rcases eq_or_ne w v with rfl | hne
  · exact ⟨Function.update_self _ _ _, output_visit_self⟩
  · have hwork : w ∉ s.worklist := fun hmem => (hrest w hmem).elim hne hsame.1
    rw [output_visit_of_ne hne]
    exact ⟨(Function.update_of_ne hne _ _).trans (h.settled w hwork).1, (h.settled w hwork).2⟩

theorem invariant_visit (h : P.Invariant s) (hv : v ∈ P.nodes)
    (hrest : ∀ w ∈ s.worklist, w = v ∨ w ∈ rest) (hsub : ∀ w ∈ rest, w ∈ s.worklist) :
    P.Invariant (P.visit s v rest) where
  work w hw := by
    rw [visit] at hw
    split at hw
    · rcases mem_foldl_push.1 hw with hmem | hmem
      · exact h.work w (hsub w hmem)
      · exact (P.closed v w hmem).2
    · exact h.work w (hsub w hw)
  grows w := by
    have hmono : P.incoming s w ⊆ P.incoming (P.visit s v rest) w :=
      incoming_mono fun u => output_subset_visit h u
    rcases eq_or_ne w v with rfl | hne
    · rw [output_visit_self]
      exact transfer_mono hmono
    · rw [output_visit_of_ne hne]
      exact (h.grows w).trans (transfer_mono hmono)
  settled _ hw := settled_visit h hrest hw
  below := below_visit h
  bounded := bounded_visit h

end Visit

theorem step_invariant (h : P.Invariant s) (hstep : P.Step s t) : P.Invariant t := by
  obtain ⟨heq⟩ := hstep
  next earlier later v =>
  refine invariant_visit h (h.work v ?_) (fun w hw => ?_) fun w hw => ?_
  · rw [heq]
    exact mem_append_right _ mem_cons_self
  · rw [heq, mem_append, mem_cons] at hw
    rw [mem_append, or_left_comm]
    exact hw
  · rw [heq, mem_append, mem_cons]
    exact (mem_append.1 hw).imp_right Or.inr

theorem reaches_invariant (h : P.Invariant s)
    (hreach : Relation.ReflTransGen P.Step s t) : P.Invariant t := by
  induction hreach with
  | refl => exact h
  | tail _ hstep ih => exact step_invariant ih hstep

def room (P : Problem ν α) (s : State ν α) : ℕ :=
  ∑ v ∈ P.nodes.toFinset, (P.facts.card - (s.output v).card)

theorem room_visit_lt (h : P.Invariant s) (hv : v ∈ P.nodes)
    (hchanged : P.transfer v (P.incoming s v) ≠ s.output v) :
    P.room (P.visit s v rest) < P.room s := by
  refine Finset.sum_lt_sum (fun u _ => ?_) ⟨v, mem_toFinset.2 hv, ?_⟩
  · exact Nat.sub_le_sub_left (Finset.card_le_card (output_subset_visit h u)) _
  · have hlt : (s.output v).card < ((P.visit s v rest).output v).card := by
      rw [output_visit_self]
      exact Finset.card_lt_card ((h.grows v).ssubset_of_ne hchanged.symm)
    have hle : ((P.visit s v rest).output v).card ≤ P.facts.card :=
      Finset.card_le_card (bounded_visit h v hv)
    omega

theorem room_visit_eq (hsame : P.transfer v (P.incoming s v) = s.output v) :
    P.room (P.visit s v rest) = P.room s := by
  refine Finset.sum_congr rfl fun u _ => ?_
  rcases eq_or_ne u v with rfl | hne
  · rw [output_visit_self, hsame]
  · rw [output_visit_of_ne hne]

theorem step_decreases (h : P.Invariant s) (hstep : P.Step s t) :
    P.room t < P.room s ∨ P.room t = P.room s ∧ t.worklist.length < s.worklist.length := by
  obtain ⟨heq⟩ := hstep
  next earlier later v =>
  have hv : v ∈ P.nodes := h.work v (heq ▸ mem_append_right _ mem_cons_self)
  by_cases hchanged : P.transfer v (P.incoming s v) = s.output v
  · refine Or.inr ⟨room_visit_eq hchanged, ?_⟩
    have hrest : (P.visit s v (earlier ++ later)).worklist = earlier ++ later := by
      simp [visit, hchanged]
    rw [hrest, heq]
    simp
  · exact Or.inl (room_visit_lt h hv hchanged)

theorem terminates (h : P.Invariant s) : Acc (fun t s => P.Step s t) s := by
  generalize hm : P.room s = m
  induction m using Nat.strong_induction_on generalizing s with
  | _ m ihm =>
    generalize hn : s.worklist.length = n
    induction n using Nat.strong_induction_on generalizing s with
    | _ n ihn =>
      refine ⟨s, fun t hstep => ?_⟩
      have ht := step_invariant h hstep
      rcases step_decreases h hstep with hlt | ⟨heq, hlt⟩
      · exact ihm (P.room t) (hm ▸ hlt) ht rfl
      · exact ihn t.worklist.length (hn ▸ hlt) ht (heq.trans hm) rfl

theorem sets_eq_flows (h : P.Invariant s) (hdone : s.worklist = []) : s.sets = P.flows := by
  have hsettled : ∀ v, s.input v = P.incoming s v ∧
      s.output v = P.transfer v (P.incoming s v) := by
    intro v
    exact h.settled v (hdone ▸ not_mem_nil)
  have hequations : P.Equations s.sets := by
    refine fun v => ⟨Set.ext fun x => ?_, Set.ext fun x => ?_⟩
    · change x ∈ s.input v ↔ _
      rw [(hsettled v).1]
      exact mem_incoming
    · change x ∈ s.output v ↔ _ ∨ x ∈ s.input v ∧ _
      rw [(hsettled v).2, (hsettled v).1]
      exact mem_transfer
  exact le_antisymm h.below (P.isLeast_flows.2 hequations)

theorem run_reaches (fuel : ℕ) (s : State ν α) : Relation.ReflTransGen P.Step s (P.run fuel s) := by
  induction fuel generalizing s with
  | zero => exact .refl
  | succ fuel ih =>
    rw [run]
    split
    · exact .refl
    · next v rest heq =>
        have hstep : P.Step s (P.visit s v ([] ++ rest)) := .take heq
        exact .head hstep (ih _)

theorem exists_run_nil (h : P.Invariant s) : ∃ fuel, (P.run fuel s).worklist = [] := by
  induction terminates h with
  | intro s _ ih =>
    match hwork : s.worklist with
    | [] => exact ⟨0, hwork⟩
    | v :: rest =>
      have hstep : P.Step s (P.visit s v ([] ++ rest)) := .take hwork
      obtain ⟨fuel, hfuel⟩ := ih _ hstep (step_invariant h hstep)
      refine ⟨fuel + 1, ?_⟩
      rw [run, hwork]
      exact hfuel

variable (P) in
/-- No run goes on for ever, the queue runs empty, and a run that is over has found the least
solution, whose inputs hold the facts of `Expected`. -/
structure Exact (Expected : ν → α → Prop) : Prop where
  finite : Acc (fun t s => P.Step s t) P.start
  ends : ∃ fuel, (P.run fuel P.start).worklist = []
  reaches : ∀ fuel, Relation.ReflTransGen P.Step P.start (P.run fuel P.start)
  least : ∀ s, Relation.ReflTransGen P.Step P.start s → s.worklist = [] →
    IsLeast {p | P.Equations p} s.sets
  holds : ∀ s, Relation.ReflTransGen P.Step P.start s → s.worklist = [] →
    ∀ v x, Expected v x → x ∈ s.input v

theorem exact_of_flows (P : Problem ν α) {Expected : ν → α → Prop}
    (h : ∀ v x, Expected v x → ∃ u ∈ P.sources v, P.Flows x u) : P.Exact Expected where
  finite := terminates start_invariant
  ends := exists_run_nil start_invariant
  reaches fuel := run_reaches fuel P.start
  least s hreach hdone := by
    rw [sets_eq_flows (reaches_invariant start_invariant hreach) hdone]
    exact P.isLeast_flows
  holds s hreach hdone v x hx := by
    have hsets := sets_eq_flows (reaches_invariant start_invariant hreach) hdone
    have hinput : (↑(s.input v) : Set α) = P.flows.1 v := congrFun (congrArg Prod.fst hsets) v
    exact Finset.mem_coe.1 (hinput ▸ h v x hx)

end Worklist

end Problem

end Quadrants.Library.Dataflow
