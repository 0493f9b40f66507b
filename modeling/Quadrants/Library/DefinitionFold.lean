import Quadrants.Library.ScopedRuns
import Mathlib.Tactic.Common

/-!
What a recursion over the definitions of the operands computes. A definition is looked for among
the leaves, and its own operands among those before it.
-/

namespace Quadrants.Library.SsaBlocks

open List

variable {S K β : Type} [DecidableEq S]

def foldDefinitions (f : Stmt S K → (S → β) → Option β) (outside : S → β) :
    List (Stmt S K) → S → β
  | [], x => outside x
  | leaf :: before, x =>
    if x ∈ leaf.value then (f leaf (foldDefinitions f outside before)).getD (outside x)
    else foldDefinitions f outside before x

def ReadsOperands (f : Stmt S K → (S → β) → Option β) : Prop :=
  ∀ leaf g g', (∀ y ∈ leaf.operands, g y = g' y) → f leaf g = f leaf g'

variable {f : Stmt S K → (S → β) → Option β} {outside outside' : S → β}

theorem foldDefinitions_append {later before : List (Stmt S K)} {x : S}
    (h : x ∉ later.flatMap Stmt.value) :
    foldDefinitions f outside (later ++ before) x = foldDefinitions f outside before x := by
  induction later with
  | nil => rfl
  | cons leaf later ih =>
    rw [flatMap_cons, mem_append, not_or] at h
    rw [cons_append, foldDefinitions, if_neg h.1, ih h.2]

variable {leaves : List (Stmt S K)}

theorem foldDefinitions_of_notMem {x : S}
    (h : x ∉ leaves.flatMap Stmt.value) : foldDefinitions f outside leaves x = outside x := by
  have happend := @foldDefinitions_append _ _ _ _ f outside leaves [] x h
  rwa [append_nil] at happend

theorem foldDefinitions_eq (hf : ReadsOperands f) {values : List S}
    (hordered : LeavesOrdered values leaves) (hnodup : (leaves.flatMap Stmt.value).Nodup)
    (hvalues : values.Disjoint (leaves.flatMap Stmt.value)) {leaf : Stmt S K} {x : S}
    (hleaf : leaf ∈ leaves) (hx : x ∈ leaf.value) : foldDefinitions f outside leaves.reverse x =
      (f leaf (foldDefinitions f outside leaves.reverse)).getD (outside x) := by
  obtain ⟨before, after, rfl⟩ := append_of_mem hleaf
  have hoperands := hordered.operands_subset
  rw [flatMap_append] at hnodup hvalues
  have hsplit : (before ++ leaf :: after).reverse =
      (after.reverse ++ [leaf]) ++ before.reverse := by simp
  have hafter : x ∉ after.reverse.flatMap Stmt.value := by
    intro hmem
    rw [mem_flatMap] at hmem
    obtain ⟨leaf', hleaf', hx'⟩ := hmem
    exact disjoint_of_nodup_append hnodup.of_append_right hx
      (mem_flatMap.2 ⟨leaf', mem_reverse.1 hleaf', hx'⟩)
  have hrec : ∀ y ∈ leaf.operands, foldDefinitions f outside before.reverse y =
      foldDefinitions f outside (before ++ leaf :: after).reverse y := by
    intro y hy
    rw [hsplit, foldDefinitions_append]
    intro hmem
    have hlater : y ∈ leaf.value ++ after.flatMap Stmt.value := by
      obtain ⟨leaf', hleaf', hy'⟩ := mem_flatMap.1 hmem
      rcases mem_append.1 hleaf' with hin | hin
      · exact mem_append_right _ (mem_flatMap.2 ⟨leaf', mem_reverse.1 hin, hy'⟩)
      · exact mem_append_left _ (mem_singleton.1 hin ▸ hy')
    rcases mem_append.1 (hoperands hy) with hbefore | hvalue
    · exact disjoint_of_nodup_append hnodup hbefore hlater
    · exact hvalues hvalue (mem_append_right _ hlater)
  rw [← hf leaf _ _ hrec, hsplit, append_assoc, foldDefinitions_append hafter,
    singleton_append, foldDefinitions, if_pos hx]

theorem foldDefinitions_congr (hf : ReadsOperands f) {seen : S → Prop}
    (hclosed : ∀ leaf ∈ leaves, ∀ x ∈ leaf.value, seen x → ∀ y ∈ leaf.operands, seen y)
    (houtside : ∀ x, seen x → outside x = outside' x) :
    ∀ x, seen x → foldDefinitions f outside leaves x = foldDefinitions f outside' leaves x := by
  induction leaves with
  | nil => exact houtside
  | cons leaf before ih =>
    have hbefore := ih fun leaf hleaf => hclosed leaf (mem_cons_of_mem _ hleaf)
    intro x hx
    rw [foldDefinitions, foldDefinitions]
    split
    · next hmem =>
        rw [houtside x hx]
        exact congrArg (fun value => value.getD (outside' x)) (hf leaf _ _ fun y hy =>
          hbefore y (hclosed leaf mem_cons_self x hmem hx y hy))
    · exact hbefore x hx

end Quadrants.Library.SsaBlocks
