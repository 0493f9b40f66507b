import Mathlib.Data.Int.DivMod
import Mathlib.Data.List.Forall2
import Mathlib.Data.Set.BooleanAlgebra
import Mathlib.Data.Set.Disjoint
import Mathlib.Order.CompletePartialOrder
import Mathlib.Tactic.Common

namespace Quadrants.Library.PathRegion

structure Region (ρ α : Type) where
  root : ρ
  path : List α

variable {ρ α : Type}

namespace Region

def cells (r : Region ρ α) : Set (ρ × List α) := {cell | cell.1 = r.root ∧ r.path <+: cell.2}

theorem self_mem_cells (r : Region ρ α) : (r.root, r.path) ∈ r.cells :=
  ⟨rfl, List.prefix_rfl⟩

theorem not_disjoint_iff (a b : Region ρ α) :
    ¬Disjoint a.cells b.cells ↔ a.root = b.root ∧ (a.path <+: b.path ∨ b.path <+: a.path) := by
  rw [Set.not_disjoint_iff]
  constructor
  · rintro ⟨cell, ⟨hrootA, hpathA⟩, hrootB, hpathB⟩
    exact ⟨hrootA.symm.trans hrootB, List.prefix_or_prefix_of_prefix hpathA hpathB⟩
  · rintro ⟨hroot, hpath | hpath⟩
    · exact ⟨(b.root, b.path), ⟨hroot.symm, hpath⟩, b.self_mem_cells⟩
    · exact ⟨(a.root, a.path), a.self_mem_cells, hroot, hpath⟩

theorem cells_eq_iff (a b : Region ρ α) : a.cells = b.cells ↔ a = b := by
  constructor
  · intro h
    have ha : (a.root, a.path) ∈ b.cells := h ▸ a.self_mem_cells
    have hb : (b.root, b.path) ∈ a.cells := h.symm ▸ b.self_mem_cells
    obtain ⟨rootA, pathA⟩ := a
    obtain ⟨rootB, pathB⟩ := b
    obtain rfl : rootA = rootB := ha.1
    obtain rfl : pathB = pathA := List.IsPrefix.eq_of_length ha.2
      (Nat.le_antisymm ha.2.length_le hb.2.length_le)
    rfl
  · rintro rfl
    rfl

theorem path_eq_of_not_disjoint {a b : Region ρ α} (h : ¬Disjoint a.cells b.cells)
    (hlength : a.path.length = b.path.length) : a.path = b.path := by
  rcases ((not_disjoint_iff a b).mp h).2 with hpath | hpath
  · exact hpath.eq_of_length hlength
  · exact (hpath.eq_of_length hlength.symm).symm

end Region

def linearize (start : ℤ) : List ℕ → List ℤ → ℤ
  | size :: shape, index :: indices => linearize (start * size + index) shape indices
  | _, _ => start

def Within (indices : List ℤ) (shape : List ℕ) : Prop :=
  List.Forall₂ (fun (index : ℤ) (size : ℕ) => 0 ≤ index ∧ index < size) indices shape

theorem linearize_inj {shape : List ℕ} {indices1 indices2 : List ℤ} {start1 start2 : ℤ}
    (h1 : Within indices1 shape) (h2 : Within indices2 shape)
    (h : linearize start1 shape indices1 = linearize start2 shape indices2) :
    start1 = start2 ∧ indices1 = indices2 := by
  induction shape generalizing indices1 indices2 start1 start2 with
  | nil =>
    obtain rfl := List.forall₂_nil_right_iff.mp h1
    obtain rfl := List.forall₂_nil_right_iff.mp h2
    exact ⟨h, rfl⟩
  | cons size shape ih =>
    obtain ⟨index1, rest1, ⟨hlow1, hhigh1⟩, hrest1, rfl⟩ := List.forall₂_cons_right_iff.mp h1
    obtain ⟨index2, rest2, ⟨hlow2, hhigh2⟩, hrest2, rfl⟩ := List.forall₂_cons_right_iff.mp h2
    obtain ⟨hstart, rfl⟩ := ih hrest1 hrest2 h
    have hdiv : ∀ start index : ℤ, 0 ≤ index → index < size →
        (start * size + index) / size = start := by
      intro start index hlow hhigh
      rw [Int.add_comm, Int.add_mul_ediv_right _ _ (by omega), Int.ediv_eq_zero_of_lt hlow hhigh,
        Int.zero_add]
    have hstarts : start1 = start2 := by
      rw [← hdiv start1 index1 hlow1 hhigh1, hstart, hdiv start2 index2 hlow2 hhigh2]
    subst hstarts
    exact ⟨rfl, by rw [show index1 = index2 by omega]⟩

end Quadrants.Library.PathRegion
