import Quadrants.Library.TarjanCorrect
import Mathlib.Tactic.Ring
import Mathlib.Tactic.Linarith

/-!
Flow graphs with entry 0: dominance, reducibility in program order, and walks that
carry a count changed by every node they leave and never negative at a node.
-/

namespace Quadrants.Library.FlowGraph

open Quadrants.Library.Tarjan

section Dominance

variable (next : Nat → List Nat)

def Avoids (h : Nat) : Nat → Nat → Prop :=
  Relation.ReflTransGen (fun a b => b ∈ next a ∧ b ≠ h)

def Dominates (h u : Nat) : Prop := h = 0 ∨ ¬ Avoids next h 0 u

/-- Every edge goes forward in program order or returns to a dominator. -/
def Reducible : Prop := ∀ u v, v ∈ next u → u < v ∨ Dominates next v u

end Dominance

section Retreating

variable {next : Nat → List Nat} {n : Nat} {st : State}

variable {a b : Nat}

theorem avoids_of_climbs (hab : Climbs next st.index 0 a)
    (hlt : st.index a < st.index b) : Avoids next b 0 a := by
  induction hab with
  | refl => exact Relation.ReflTransGen.refl
  | tail _ hbc ih =>
    refine (ih (lt_trans hbc.2.2 hlt)).tail ⟨hbc.1, ?_⟩
    rintro rfl
    exact lt_irrefl _ hlt

theorem climb_lt (hr : Reducible next) (ha : Climbs next st.index 0 a)
    (hab : Climb next st.index a b) : a < b := by
  rcases hr a b hab.1 with hlt | hdom | hdom
  · exact hlt
  · subst hdom
    exact absurd hab.2.2 (not_lt.mpr ha.index_le)
  · exact absurd (avoids_of_climbs ha hab.2.2) hdom

theorem climbs_le (hr : Reducible next) (ha : Climbs next st.index 0 a)
    (hab : Climbs next st.index a b) : a ≤ b := by
  induction hab with
  | refl => exact le_refl _
  | tail hab hbc ih => exact le_trans ih (le_of_lt (climb_lt hr (ha.trans hab) hbc))

theorem retreating_dominates (hclosed : ∀ u, ∀ v ∈ next u, v < n)
    (hc : Condensation next n st) (hr : Reducible next) (h0 : 0 < n) {u v : Nat}
    (hu : Reach next 0 u) (hv : v ∈ next u) (hfin : ¬ st.finish v < st.finish u) :
    Dominates next v u := by
  rcases hc.finish_order u (hu.lt hclosed h0) v hv with hlt | hclimb
  · exact absurd hlt hfin
  · have hzero := hc.climbs_zero v h0 (hu.tail hv)
    have hle := climbs_le hr hzero hclimb
    exact (hr u v hv).resolve_left (not_lt.mpr hle)

end Retreating

section Walks

variable (next : Nat → List Nat) (inc : Nat → Int)

/-- Leave a node with its net increment, without falling below zero. -/
def Move (x y : Nat × Int) : Prop := y.1 ∈ next x.1 ∧ y.2 = x.2 + inc x.1 ∧ 0 ≤ y.2

def Walks : Nat × Int → Nat × Int → Prop := Relation.ReflTransGen (Move next inc)

def Reaches (u : Nat) (c : Int) : Prop := Walks next inc (0, 0) (u, c)

def ReachesBelow (b : Nat → Int) : Nat × Int → Prop :=
  Relation.ReflTransGen (fun x y => Move next inc x y ∧ y.2 ≤ b y.1) (0, 0)

/-- A cycle that a walk can enter and that gains every time it is gone round. -/
def PositiveCycle : Prop :=
  ∃ v c d, Reaches next inc v c ∧ Walks next inc (v, c) (v, d) ∧ c < d

end Walks

variable {next : Nat → List Nat} {inc : Nat → Int}

variable {b : Nat → Int} {c : Int} {u : Nat} {x : Nat × Int}

theorem ReachesBelow.reaches (h : ReachesBelow next inc b x) : Reaches next inc x.1 x.2 :=
  Relation.ReflTransGen.mono (fun _ _ hxy => hxy.1) _ _ h

theorem ReachesBelow.mono {b' : Nat → Int} (hb : ∀ u, b u ≤ b' u)
    (h : ReachesBelow next inc b x) : ReachesBelow next inc b' x :=
  Relation.ReflTransGen.mono (fun _ y hxy => ⟨hxy.1, le_trans hxy.2 (hb y.1)⟩) _ _ h

theorem Reaches.nonneg (h : Reaches next inc u c) : 0 ≤ c := by
  rcases Relation.ReflTransGen.cases_tail h with heq | ⟨y, -, hy⟩
  · exact le_of_eq (Prod.mk.inj heq).2.symm
  · exact hy.2.2

theorem Walks.reach {y : Nat × Int} (h : Walks next inc x y) : Reach next x.1 y.1 := by
  induction h with
  | refl => exact Relation.ReflTransGen.refl
  | tail _ hyz ih => exact ih.tail hyz.1

theorem ReachesBelow.passes (h0 : 0 ≤ b 0) {v : Nat}
    (h : ReachesBelow next inc b x) (hdom : Dominates next v x.1) :
    ∃ d, ReachesBelow next inc b (v, d) ∧ d ≤ b v ∧ Walks next inc (v, d) x := by
  by_cases hv : v = 0
  · subst hv
    exact ⟨0, Relation.ReflTransGen.refl, h0, h.reaches⟩
  have hsplit : (∃ d, ReachesBelow next inc b (v, d) ∧ d ≤ b v ∧ Walks next inc (v, d) x) ∨
      Avoids next v 0 x.1 := by
    clear hdom
    induction h with
    | refl => exact Or.inr Relation.ReflTransGen.refl
    | @tail y z hy hyz ih =>
      by_cases hz : z.1 = v
      · subst hz
        exact Or.inl ⟨z.2, hy.tail hyz, hyz.2, Relation.ReflTransGen.refl⟩
      · rcases ih with ⟨d, hd, hle, hw⟩ | hav
        · exact Or.inl ⟨d, hd, hle, hw.tail hyz.1⟩
        · exact Or.inr (hav.tail ⟨hyz.1.1, hz⟩)
  rcases hsplit with hpass | hav
  · exact hpass
  · rcases hdom with hd | hd
    · exact absurd hd hv
    · exact absurd hav hd

theorem Walks.shift {y : Nat × Int} (h : Walks next inc x y) {t : Int} (ht : 0 ≤ t) :
    Walks next inc (x.1, x.2 + t) (y.1, y.2 + t) := by
  induction h with
  | refl => exact Relation.ReflTransGen.refl
  | tail _ hyz ih =>
    obtain ⟨hmem, heq, hnn⟩ := hyz
    refine ih.tail ⟨hmem, ?_, ?_⟩
    · rw [heq]
      ring
    · omega

theorem PositiveCycle.unbounded (h : PositiveCycle next inc) :
    ∃ v, ∀ m : Nat, ∃ c, Reaches next inc v c ∧ (m : Int) ≤ c := by
  obtain ⟨v, c, d, hreach, hcycle, hlt⟩ := h
  refine ⟨v, fun m => ⟨c + m * (d - c), ?_, ?_⟩⟩
  · induction m with
    | zero => simpa using hreach
    | succ m ih =>
      have hround := hcycle.shift (t := (m : Int) * (d - c)) (mul_nonneg (by omega) (by omega))
      have heq : d + (m : Int) * (d - c) = c + ((m + 1 : Nat) : Int) * (d - c) := by
        push_cast
        ring
      have := ih.trans hround
      rwa [heq] at this
  · have h1 : (m : Int) * 1 ≤ m * (d - c) := mul_le_mul_of_nonneg_left (by omega) (by omega)
    have := hreach.nonneg
    omega

theorem Reaches.le_of_closed (h0 : 0 ≤ b 0)
    (hclosed : ∀ u v, 0 ≤ b u → v ∈ next u → b u + inc u ≤ b v)
    (h : Reaches next inc u c) : c ≤ b u := by
  unfold Reaches Walks at h
  generalize hx : (u, c) = x at h
  induction h generalizing u c with
  | refl =>
    obtain ⟨rfl, rfl⟩ := Prod.mk.inj hx
    exact h0
  | @tail y z hy hyz ih =>
    subst hx
    obtain ⟨hmem, heq, hnn⟩ := hyz
    have hle := ih (u := y.1) (c := y.2) rfl
    have hy0 : 0 ≤ y.2 := Reaches.nonneg hy
    have := hclosed y.1 u (by omega) hmem
    omega

theorem not_positiveCycle_of_closed (h0 : 0 ≤ b 0)
    (hclosed : ∀ u v, 0 ≤ b u → v ∈ next u → b u + inc u ≤ b v) : ¬ PositiveCycle next inc := by
  intro h
  obtain ⟨v, hv⟩ := h.unbounded
  obtain ⟨c, hc, hle⟩ := hv ((b v).toNat + 1)
  have := hc.le_of_closed h0 hclosed
  omega

theorem ReachesBelow.positiveCycle (h0 : 0 ≤ b 0) {v : Nat}
    (h : ReachesBelow next inc b (u, c)) (hv : v ∈ next u) (hdom : Dominates next v u)
    (hnn : 0 ≤ c + inc u) (hgain : b v < c + inc u) : PositiveCycle next inc := by
  obtain ⟨d, hd, hle, hw⟩ := h.passes h0 hdom
  refine ⟨v, d, c + inc u, hd.reaches, hw.tail ⟨hv, rfl, hnn⟩, ?_⟩
  omega

end Quadrants.Library.FlowGraph
