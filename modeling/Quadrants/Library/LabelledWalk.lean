import Mathlib.Data.Finset.Card

/-!
A depth-first walk of a graph with labelled edges that enters each inner node once and lists
the leaves it meets, each with the labels on the way to it.
-/

namespace Quadrants.Library.LabelledWalk

open List

variable {N L : Type}

structure Walked (N L : Type) where
  seen : List N
  found : List (N × List L)

section Walk

variable [DecidableEq N] (edges : N → List (L × N)) (isLeaf isInner : N → Bool)

def walkEdge (enter : N → List L → Walked N L → Walked N L) (path : List L) (w : Walked N L)
    (edge : L × N) : Walked N L :=
  if isLeaf edge.2 then { w with found := w.found ++ [(edge.2, path ++ [edge.1])] }
  else if isInner edge.2 then
    if edge.2 ∈ w.seen then w
    else enter edge.2 (path ++ [edge.1]) { w with seen := edge.2 :: w.seen }
  else w

def walk : ℕ → N → List L → Walked N L → Walked N L
  | 0, _, _, w => w
  | fuel + 1, node, path, w =>
    (edges node).foldl (walkEdge isLeaf isInner (walk fuel) path) w

inductive Leads : N → List L → N → Prop where
  | edge {node child : N} {label : L} : (label, child) ∈ edges node → Leads node [label] child
  | step {node child target : N} {label : L} {path : List L} : (label, child) ∈ edges node →
      isLeaf child = false → isInner child = true → Leads child path target →
      Leads node (label :: path) target

end Walk

variable {edges : N → List (L × N)} {isLeaf isInner : N → Bool}

namespace Walked

structure Extends (w w' : Walked N L) : Prop where
  seen : w.seen ⊆ w'.seen
  found : w.found <+: w'.found

theorem Extends.refl (w : Walked N L) : w.Extends w := ⟨List.Subset.refl _, prefix_rfl⟩

theorem Extends.trans {w w' w'' : Walked N L} (h : w.Extends w') (h' : w'.Extends w'') :
    w.Extends w'' :=
  ⟨List.Subset.trans h.seen h'.seen, h.found.trans h'.found⟩

end Walked

/-- The edge has been dealt with: a leaf is listed, an inner node has been seen. -/
def Handled (isLeaf isInner : N → Bool) (w : Walked N L) (child : N) : Prop :=
  (isLeaf child = true → ∃ path, (child, path) ∈ w.found) ∧
    (isLeaf child = false → isInner child = true → child ∈ w.seen)

theorem Handled.mono {w w' : Walked N L} {child : N} (h : Handled isLeaf isInner w child)
    (hext : w.Extends w') : Handled isLeaf isInner w' child := by
  refine ⟨fun hleaf => ?_, fun hleaf hinner => hext.seen (h.2 hleaf hinner)⟩
  obtain ⟨path, hpath⟩ := h.1 hleaf
  exact ⟨path, hext.found.subset hpath⟩

def Closed (edges : N → List (L × N)) (isLeaf isInner : N → Bool) (w : Walked N L) (node : N) :
    Prop :=
  ∀ edge ∈ edges node, Handled isLeaf isInner w edge.2

theorem Closed.mono {w w' : Walked N L} {node : N} (h : Closed edges isLeaf isInner w node)
    (hext : w.Extends w') : Closed edges isLeaf isInner w' node :=
  fun edge hedge => (h edge hedge).mono hext

structure Enters (edges : N → List (L × N)) (isLeaf isInner : N → Bool) (node : N)
    (w w' : Walked N L) : Prop where
  extends_ : w.Extends w'
  closed : Closed edges isLeaf isInner w' node
  closes : ∀ n ∈ w'.seen, n ∉ w.seen → Closed edges isLeaf isInner w' n

section Complete

variable [DecidableEq N] {bound : Finset N}

theorem foldl_walkEdge (hbound : ∀ n, isInner n = true → n ∈ bound) {fuel : ℕ}
    (hwalk : ∀ node path (w : Walked N L), (bound \ w.seen.toFinset).card < fuel →
      Enters edges isLeaf isInner node w (walk edges isLeaf isInner fuel node path w))
    (path : List L) (es : List (L × N)) (w : Walked N L)
    (hfuel : (bound \ w.seen.toFinset).card ≤ fuel) :
    let w' := es.foldl (walkEdge isLeaf isInner (walk edges isLeaf isInner fuel) path) w
    w.Extends w' ∧ (∀ edge ∈ es, Handled isLeaf isInner w' edge.2) ∧
      ∀ n ∈ w'.seen, n ∉ w.seen → Closed edges isLeaf isInner w' n := by
  induction es generalizing w with
  | nil => exact ⟨Walked.Extends.refl w, by simp, fun n hn hnot => absurd hn hnot⟩
  | cons edge es ih =>
    rw [foldl_cons]
    -- one edge, then the rest from where it leaves off
    have hone : ∀ w1, w.Extends w1 → Handled isLeaf isInner w1 edge.2 →
        (∀ n ∈ w1.seen, n ∉ w.seen → Closed edges isLeaf isInner w1 n) →
        let w' := es.foldl (walkEdge isLeaf isInner (walk edges isLeaf isInner fuel) path) w1
        w.Extends w' ∧ (∀ e ∈ edge :: es, Handled isLeaf isInner w' e.2) ∧
          ∀ n ∈ w'.seen, n ∉ w.seen → Closed edges isLeaf isInner w' n := by
      intro w1 hext hhandled hcloses
      have hfuel1 : (bound \ w1.seen.toFinset).card ≤ fuel := by
        refine Nat.le_trans (Finset.card_le_card ?_) hfuel
        apply Finset.sdiff_subset_sdiff (Finset.Subset.refl _)
        intro n hn
        exact mem_toFinset.mpr (hext.seen (mem_toFinset.mp hn))
      obtain ⟨hext', hhandled', hcloses'⟩ := ih w1 hfuel1
      refine ⟨hext.trans hext', ?_, ?_⟩
      · intro e he
        rcases mem_cons.mp he with rfl | he
        · exact hhandled.mono hext'
        · exact hhandled' e he
      · intro n hn hnot
        rcases Classical.em (n ∈ w1.seen) with hn1 | hn1
        · exact (hcloses n hn1 hnot).mono hext'
        · exact hcloses' n hn hn1
    rcases Bool.eq_false_or_eq_true (isLeaf edge.2) with hleaf | hleaf
    · have hstep : walkEdge isLeaf isInner (walk edges isLeaf isInner fuel) path w edge =
          { w with found := w.found ++ [(edge.2, path ++ [edge.1])] } := by
        rw [walkEdge, if_pos hleaf]
      rw [hstep]
      refine hone _ ⟨List.Subset.refl _, prefix_append _ _⟩ ⟨fun _ => ?_, fun h => ?_⟩ ?_
      · exact ⟨_, mem_append_right _ mem_cons_self⟩
      · rw [hleaf] at h
        cases h
      · exact fun n hn hnot => absurd hn hnot
    · rcases Bool.eq_false_or_eq_true (isInner edge.2) with hinner | hinner
      · rcases Classical.em (edge.2 ∈ w.seen) with hseen | hseen
        · have hstep : walkEdge isLeaf isInner (walk edges isLeaf isInner fuel) path w edge =
              w := by
            rw [walkEdge, if_neg (by simp [hleaf]), if_pos hinner, if_pos hseen]
          rw [hstep]
          refine hone _ (Walked.Extends.refl w) ⟨fun h => ?_, fun _ _ => hseen⟩ ?_
          · rw [hleaf] at h
            cases h
          · exact fun n hn hnot => absurd hn hnot
        · have hstep : walkEdge isLeaf isInner (walk edges isLeaf isInner fuel) path w edge =
              walk edges isLeaf isInner fuel edge.2 (path ++ [edge.1])
                { w with seen := edge.2 :: w.seen } := by
            rw [walkEdge, if_neg (by simp [hleaf]), if_pos hinner, if_neg hseen]
          rw [hstep]
          have hlt : (bound \ (edge.2 :: w.seen).toFinset).card < fuel := by
            refine Nat.lt_of_lt_of_le (Finset.card_lt_card ?_) hfuel
            refine Finset.ssubset_iff_subset_ne.mpr ⟨?_, ?_⟩
            · apply Finset.sdiff_subset_sdiff (Finset.Subset.refl _)
              intro n hn
              exact mem_toFinset.mpr (mem_cons_of_mem _ (mem_toFinset.mp hn))
            · intro heq
              have hmem : edge.2 ∈ bound \ w.seen.toFinset :=
                Finset.mem_sdiff.mpr ⟨hbound _ hinner, by simpa using hseen⟩
              rw [← heq] at hmem
              exact (Finset.mem_sdiff.mp hmem).2 (by simp)
          have henters := hwalk edge.2 (path ++ [edge.1])
            { w with seen := edge.2 :: w.seen } hlt
          have hchild : edge.2 ∈ (walk edges isLeaf isInner fuel edge.2 (path ++ [edge.1])
              { w with seen := edge.2 :: w.seen }).seen :=
            henters.extends_.seen mem_cons_self
          refine hone _ ?_ ⟨fun h => ?_, fun _ _ => hchild⟩ ?_
          · exact ⟨List.Subset.trans (subset_cons_self _ _) henters.extends_.seen,
              henters.extends_.found⟩
          · rw [hleaf] at h
            cases h
          · intro n hn hnot
            rcases eq_or_ne n edge.2 with rfl | hne
            · exact henters.closed
            · exact henters.closes n hn fun h => by
                rcases mem_cons.mp h with h | h
                · exact hne h
                · exact hnot h
      · have hstep : walkEdge isLeaf isInner (walk edges isLeaf isInner fuel) path w edge = w := by
          rw [walkEdge, if_neg (by simp [hleaf]), if_neg (by simp [hinner])]
        rw [hstep]
        refine hone _ (Walked.Extends.refl w) ⟨fun h => ?_, fun _ h => ?_⟩ ?_
        · rw [hleaf] at h
          cases h
        · rw [hinner] at h
          cases h
        · exact fun n hn hnot => absurd hn hnot

theorem walk_enters (hbound : ∀ n, isInner n = true → n ∈ bound) (fuel : ℕ) (node : N)
    (path : List L) (w : Walked N L) (hfuel : (bound \ w.seen.toFinset).card < fuel) :
    Enters edges isLeaf isInner node w (walk edges isLeaf isInner fuel node path w) := by
  induction fuel generalizing node path w with
  | zero => exact absurd hfuel (Nat.not_lt_zero _)
  | succ fuel ih =>
    obtain ⟨hext, hhandled, hcloses⟩ :=
      foldl_walkEdge hbound ih path (edges node) w (Nat.le_of_lt_succ hfuel)
    exact ⟨hext, hhandled, hcloses⟩

theorem walk_complete (hbound : ∀ n, isInner n = true → n ∈ bound) {fuel : ℕ}
    (hfuel : bound.card < fuel) {root leaf : N} {path : List L}
    (hleads : Leads edges isLeaf isInner root path leaf) (hleaf : isLeaf leaf = true) :
    ∃ path', (leaf, path') ∈ (walk edges isLeaf isInner fuel root [] ⟨[root], []⟩).found := by
  have hcard : (bound \ ([root] : List N).toFinset).card < fuel :=
    Nat.lt_of_le_of_lt (Finset.card_le_card Finset.sdiff_subset) hfuel
  have henters : Enters edges isLeaf isInner root ⟨[root], []⟩
      (walk edges isLeaf isInner fuel root [] ⟨[root], []⟩) :=
    walk_enters hbound fuel root [] ⟨[root], []⟩ hcard
  have hclosed : ∀ n ∈ (walk edges isLeaf isInner fuel root [] ⟨[root], []⟩).seen,
      Closed edges isLeaf isInner (walk edges isLeaf isInner fuel root [] ⟨[root], []⟩) n := by
    intro n hn
    rcases eq_or_ne n root with rfl | hne
    · exact henters.closed
    · exact henters.closes n hn (by simpa using hne)
  have hroot : root ∈ (walk edges isLeaf isInner fuel root [] ⟨[root], []⟩).seen :=
    henters.extends_.seen mem_cons_self
  generalize walk edges isLeaf isInner fuel root [] ⟨[root], []⟩ = w at hclosed hroot ⊢
  clear hcard henters
  induction hleads with
  | edge hedge => exact (hclosed _ hroot _ hedge).1 hleaf
  | step hedge hchild hinner _ ih => exact ih hleaf ((hclosed _ hroot _ hedge).2 hchild hinner)

end Complete

end Quadrants.Library.LabelledWalk
