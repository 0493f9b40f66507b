import Mathlib.Algebra.BigOperators.Group.Finset.Basic
import Mathlib.Algebra.BigOperators.Group.List.Basic
import Mathlib.Algebra.GroupWithZero.Nat
import Mathlib.Algebra.Order.BigOperators.Group.Finset
import Mathlib.Data.Finset.Max

/-!
Blocks of addresses and how many blocks of a collection hold an address. Cutting a block in two and
joining two neighbours leave that number as it is, and blocks are disjoint where it is at most one.
-/

namespace Quadrants.Library.Cover

structure Block where
  ptr : ℕ
  size : ℕ
  deriving DecidableEq

namespace Block

def Has (b : Block) (x : ℕ) : Prop :=
  b.ptr ≤ x ∧ x < b.ptr + b.size

instance (b : Block) (x : ℕ) : Decidable (b.Has x) :=
  inferInstanceAs (Decidable (_ ∧ _))

def Disjoint (b c : Block) : Prop :=
  ∀ x, b.Has x → ¬c.Has x

def Within (b c : Block) : Prop :=
  ∀ x, b.Has x → c.Has x

def count (b : Block) (x : ℕ) : ℕ :=
  if b.ptr ≤ x ∧ x < b.ptr + b.size then 1 else 0

variable {b : Block} {x : ℕ}

theorem count_of_has (h : b.Has x) : b.count x = 1 :=
  if_pos h

theorem count_pos_iff : 0 < b.count x ↔ b.Has x := by
  unfold count
  split
  · next h => exact iff_of_true (by decide) h
  · next h => exact iff_of_false (by decide) h

@[simp] theorem count_empty (p x : ℕ) : (Block.mk p 0).count x = 0 := by
  refine if_neg fun h => ?_
  exact absurd h.2 (Nat.not_lt.2 h.1)

theorem count_add (p m n x : ℕ) :
    (Block.mk p (m + n)).count x = (Block.mk p m).count x + (Block.mk (p + m) n).count x := by
  simp only [count]
  split <;> split <;> split <;> omega

theorem disjoint_of_count_le {c : Block} (h : ∀ x, b.count x + c.count x ≤ 1) : b.Disjoint c := by
  intro x hb hc
  have hle := h x
  rw [count_of_has hb, count_of_has hc] at hle
  omega

end Block

def cover (l : List Block) (x : ℕ) : ℕ :=
  (l.map fun b => b.count x).sum

@[simp] theorem cover_nil (x : ℕ) : cover [] x = 0 :=
  rfl

@[simp] theorem cover_cons (b : Block) (l : List Block) (x : ℕ) :
    cover (b :: l) x = b.count x + cover l x := by
  simp [cover]

@[simp] theorem cover_append (l l' : List Block) (x : ℕ) :
    cover (l ++ l') x = cover l x + cover l' x := by
  simp [cover]

variable {b : Block} {l : List Block}

theorem count_le_cover (h : b ∈ l) (x : ℕ) : b.count x ≤ cover l x :=
  List.single_le_sum (fun _ _ => Nat.zero_le _) _ (List.mem_map.2 ⟨b, h, rfl⟩)

theorem cover_pos_iff {x : ℕ} : 0 < cover l x ↔ ∃ b ∈ l, b.Has x := by
  induction l with
  | nil => simp
  | cons b l ih =>
    rw [cover_cons, Nat.add_pos_iff_pos_or_pos, Block.count_pos_iff, ih]
    simp

theorem cover_set {i : ℕ} (hi : i < l.length) (b : Block) (x : ℕ) :
    cover (l.set i b) x + l[i].count x = cover l x + b.count x := by
  induction l generalizing i with
  | nil => simp at hi
  | cons c l ih =>
    cases i with
    | zero =>
      simp only [List.set_cons_zero, cover_cons, List.getElem_cons_zero]
      omega
    | succ i =>
      have htail := ih (Nat.lt_of_succ_lt_succ hi)
      simp only [List.set_cons_succ, cover_cons, List.getElem_cons_succ]
      omega

theorem cover_le_one_of_disjoint (hl : ∀ x, cover l x ≤ 1)
    (h : ∀ c ∈ l, b.Disjoint c) (x : ℕ) : cover (b :: l) x ≤ 1 := by
  rw [cover_cons]
  by_cases hb : b.Has x
  · have hzero : ¬0 < cover l x := by
      rw [cover_pos_iff]
      rintro ⟨c, hc, hx⟩
      exact h c hc x hb hx
    rw [Block.count_of_has hb]
    omega
  · have hle := hl x
    have hzero : ¬0 < b.count x := Block.count_pos_iff.not.2 hb
    omega

theorem pairwise_disjoint_of_cover (h : ∀ x, cover l x ≤ 1) : l.Pairwise Block.Disjoint := by
  induction l with
  | nil => exact List.Pairwise.nil
  | cons b l ih =>
    simp only [cover_cons] at h
    refine List.pairwise_cons.2 ⟨fun c hc => ?_, ih fun x => by have := h x; omega⟩
    refine Block.disjoint_of_count_le fun x => ?_
    have := h x
    have := count_le_cover hc x
    omega

section Sets

variable {α : Type} [DecidableEq α]

def coverSet (block : α → Block) (s : Finset α) (x : ℕ) : ℕ :=
  ∑ a ∈ s, (block a).count x

variable {block : α → Block} {s : Finset α} {a b : α}

theorem coverSet_erase (h : a ∈ s) (x : ℕ) :
    (block a).count x + coverSet block (s.erase a) x = coverSet block s x :=
  Finset.add_sum_erase s (fun a => (block a).count x) h

theorem coverSet_insert (h : a ∉ s) (x : ℕ) :
    coverSet block (insert a s) x = (block a).count x + coverSet block s x :=
  Finset.sum_insert h

theorem count_le_coverSet (h : a ∈ s) (x : ℕ) : (block a).count x ≤ coverSet block s x := by
  rw [← coverSet_erase h]
  exact Nat.le_add_right _ _

variable {x : ℕ}

theorem coverSet_pos_iff : 0 < coverSet block s x ↔ ∃ a ∈ s, (block a).Has x := by
  constructor
  · intro hpos
    obtain ⟨a, ha, hne⟩ := Finset.exists_ne_zero_of_sum_ne_zero (Nat.pos_iff_ne_zero.1 hpos)
    exact ⟨a, ha, Block.count_pos_iff.1 (Nat.pos_of_ne_zero hne)⟩
  · rintro ⟨a, ha, hx⟩
    exact lt_of_lt_of_le (Block.count_pos_iff.2 hx) (count_le_coverSet ha x)

theorem disjoint_of_coverSet (h : ∀ x, coverSet block s x ≤ 1) (ha : a ∈ s) (hb : b ∈ s)
    (hne : a ≠ b) : (block a).Disjoint (block b) := by
  refine Block.disjoint_of_count_le fun x => ?_
  have hle := h x
  rw [← coverSet_erase ha] at hle
  have := @count_le_coverSet _ _ block (s.erase a) b (Finset.mem_erase.2 ⟨hne.symm, hb⟩) x
  omega

theorem not_mem_of_cover (hx : (block a).Has x)
    (h : coverSet block s x + (block a).count x ≤ 1) : a ∉ s := by
  intro ha
  have := @count_le_coverSet _ _ block s a ha x
  rw [Block.count_of_has hx] at h this
  omega

end Sets

section Searches

variable {α : Type} [LinearOrder α]

def lowerBound (s : Finset α) (key : α) : Option α :=
  if h : (s.filter (key ≤ ·)).Nonempty then some ((s.filter (key ≤ ·)).min' h) else none

def lastBelow (s : Finset α) (key : α) : Option α :=
  if h : (s.filter (· < key)).Nonempty then some ((s.filter (· < key)).max' h) else none

variable {a key : α} {s : Finset α}

theorem lowerBound_eq_some (h : lowerBound s key = some a) : a ∈ s ∧ key ≤ a := by
  unfold lowerBound at h
  split at h
  · cases h
    exact Finset.mem_filter.1 (Finset.min'_mem _ _)
  · cases h

theorem lastBelow_eq_some (h : lastBelow s key = some a) : a ∈ s ∧ a < key := by
  unfold lastBelow at h
  split at h
  · cases h
    exact Finset.mem_filter.1 (Finset.max'_mem _ _)
  · cases h

end Searches

end Quadrants.Library.Cover
