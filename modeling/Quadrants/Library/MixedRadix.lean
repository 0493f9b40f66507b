import Mathlib.Algebra.BigOperators.Group.List.Basic
import Mathlib.Algebra.Order.BigOperators.GroupWithZero.List
import Mathlib.Algebra.Order.Ring.Nat
import Mathlib.Data.Nat.Notation
import Mathlib.Tactic.Ring
import Mathlib.Tactic.Common

/-!
Numbers with one digit for each member of a list, the last digit varying fastest, and grids whose
cells are split along several axes again and again. The shapes of the levels are listed from the
outermost one.
-/

namespace Quadrants.Library.MixedRadix

open List Nat

section Digits

variable {ι : Type} {s d : ι → ℕ} {l : List ι} {i : ι}

def capacity (s : ι → ℕ) (l : List ι) : ℕ :=
  (l.map s).prod

def value (s d : ι → ℕ) (l : List ι) : ℕ :=
  l.foldl (fun acc i => acc * s i + d i) 0

@[simp] theorem capacity_nil (s : ι → ℕ) : capacity s [] = 1 := rfl

@[simp] theorem capacity_cons (s : ι → ℕ) (i : ι) (l : List ι) :
    capacity s (i :: l) = s i * capacity s l := by
  simp [capacity]

theorem capacity_pos (hpos : ∀ i ∈ l, 0 < s i) : 0 < capacity s l := by
  apply prod_pos
  intro n hn
  obtain ⟨i, hi, rfl⟩ := mem_map.1 hn
  exact hpos i hi

theorem capacity_one (l : List ι) : capacity (fun _ => 1) l = 1 := by
  simp [capacity]

theorem foldl_value (s d : ι → ℕ) (l : List ι) (n : ℕ) :
    l.foldl (fun acc i => acc * s i + d i) n = n * capacity s l + value s d l := by
  induction l generalizing n with
  | nil => simp [value]
  | cons i l ih =>
    have hvalue : value s d (i :: l) = (0 * s i + d i) * capacity s l + value s d l := ih _
    rw [foldl_cons, ih, capacity_cons, hvalue]
    ring

@[simp] theorem value_nil (s d : ι → ℕ) : value s d [] = 0 := rfl

@[simp] theorem value_cons (s d : ι → ℕ) (i : ι) (l : List ι) :
    value s d (i :: l) = d i * capacity s l + value s d l := by
  rw [value, foldl_cons, foldl_value, Nat.zero_mul, Nat.zero_add]

theorem value_congr {d' : ι → ℕ} (h : ∀ i ∈ l, d i = d' i) : value s d l = value s d' l := by
  induction l with
  | nil => rfl
  | cons i l ih =>
    rw [value_cons, value_cons, h i mem_cons_self, ih fun j hj => h j (mem_cons_of_mem _ hj)]

theorem value_lt (h : ∀ i ∈ l, d i < s i) : value s d l < capacity s l := by
  induction l with
  | nil => simp
  | cons i l ih =>
    have htail := ih fun j hj => h j (mem_cons_of_mem _ hj)
    rw [value_cons]
    calc d i * capacity s l + value s d l
        < d i * capacity s l + capacity s l := by omega
      _ = (d i + 1) * capacity s l := by ring
      _ ≤ s i * capacity s l := Nat.mul_le_mul_right _ (h i mem_cons_self)

theorem value_filter {p : ι → Bool} (hs : ∀ i ∈ l, p i = false → s i = 1 ∧ d i = 0) :
    value s d (l.filter p) = value s d l ∧ capacity s (l.filter p) = capacity s l := by
  induction l with
  | nil => exact ⟨rfl, rfl⟩
  | cons i l ih =>
    obtain ⟨hvalue, hcapacity⟩ := ih fun j hj => hs j (mem_cons_of_mem _ hj)
    cases hp : p i with
    | true => simp [hp, hvalue, hcapacity]
    | false =>
      obtain ⟨hone, hzero⟩ := hs i mem_cons_self hp
      simp [hp, hone, hzero, hvalue, hcapacity]

theorem mod_mul_div_add_mod (n w r : ℕ) : n % (r * w) / w * w + n % w = n % (r * w) := by
  rw [Nat.mul_comm r w, ← mod_mul_right_mod n w r, div_add_mod']

variable {r w : ℕ}

theorem mul_add_mod_mul_div {k m : ℕ} (hk : k < r) (hm : m < w) :
    (k * w + m) % (r * w) / w = k := by
  have hlt : k * w + m < r * w :=
    calc k * w + m < (k + 1) * w := by rw [Nat.add_mul]; omega
      _ ≤ r * w := Nat.mul_le_mul_right _ hk
  rw [mod_eq_of_lt hlt, Nat.mul_comm, mul_add_div (by omega), div_eq_of_lt hm,
    Nat.add_zero]

theorem mod_mul_div_lt {n : ℕ} (hr : 0 < r) : n % (r * w) / w < r := by
  rcases Nat.eq_zero_or_pos w with rfl | hw
  · simpa using hr
  · exact Nat.div_lt_of_lt_mul (Nat.mul_comm r w ▸ mod_lt _ (Nat.mul_pos hr hw))

variable [DecidableEq ι]

def place (s : ι → ℕ) : List ι → ι → ℕ
  | [], _ => 1
  | j :: l, i => if i = j then capacity s l else place s l i

def digit (s : ι → ℕ) (l : List ι) (n : ℕ) (i : ι) : ℕ :=
  n % (s i * place s l i) / place s l i

theorem place_one (l : List ι) (i : ι) : place (fun _ => 1) l i = 1 := by
  induction l with
  | nil => rfl
  | cons j l ih =>
    rw [place, capacity_one, ih, ite_self]

theorem digit_cons_self (s : ι → ℕ) (i : ι) (l : List ι) (n : ℕ) :
    digit s (i :: l) n i = n % (s i * capacity s l) / capacity s l := by
  rw [digit, place, if_pos rfl]

theorem digit_cons_of_ne {j : ι} (h : i ≠ j) (n : ℕ) : digit s (j :: l) n i = digit s l n i := by
  rw [digit, digit, place, if_neg h]

theorem digit_lt (h : 0 < s i) (n : ℕ) : digit s l n i < s i :=
  mod_mul_div_lt h

theorem place_dvd (h : i ∈ l) : s i * place s l i ∣ capacity s l := by
  induction l with
  | nil => exact absurd h not_mem_nil
  | cons j l ih =>
    rw [place, capacity_cons]
    split
    · next heq => rw [heq]
    · next hne =>
        have hmem := (mem_cons.1 h).resolve_left hne
        exact (ih hmem).trans (Dvd.intro_left _ rfl)

theorem digit_mul_capacity_add (h : i ∈ l) (k n : ℕ) :
    digit s l (k * capacity s l + n) i = digit s l n i := by
  obtain ⟨q, hq⟩ := place_dvd (s := s) h
  have hmod : (k * capacity s l + n) % (s i * place s l i) = n % (s i * place s l i) := by
    rw [hq, show k * (s i * place s l i * q) + n = n + s i * place s l i * (k * q) by ring,
      add_mul_mod_self_left]
  rw [digit, digit, hmod]

theorem digit_value (hnodup : l.Nodup) (hlt : ∀ j ∈ l, d j < s j) (h : i ∈ l) :
    digit s l (value s d l) i = d i := by
  induction l with
  | nil => exact absurd h not_mem_nil
  | cons j l ih =>
    have htail : ∀ j ∈ l, d j < s j := fun k hk => hlt k (mem_cons_of_mem _ hk)
    obtain ⟨hj, hl⟩ := nodup_cons.1 hnodup
    rw [value_cons]
    rcases mem_cons.1 h with rfl | hmem
    · rw [digit_cons_self]
      exact mul_add_mod_mul_div (hlt i mem_cons_self) (value_lt htail)
    · have hne : i ≠ j := fun heq => hj (heq ▸ hmem)
      rw [digit_cons_of_ne hne, digit_mul_capacity_add hmem, ih hl htail hmem]

theorem value_digit (hnodup : l.Nodup) (n : ℕ) : value s (digit s l n) l = n % capacity s l := by
  induction l with
  | nil => simp [mod_one]
  | cons i l ih =>
    obtain ⟨hi, hl⟩ := nodup_cons.1 hnodup
    have hcongr : value s (digit s (i :: l) n) l = value s (digit s l n) l :=
      value_congr fun j hj => digit_cons_of_ne (ne_of_mem_of_not_mem hj hi) n
    rw [value_cons, digit_cons_self, hcongr, ih hl, mod_mul_div_add_mod, capacity_cons]

theorem mul_place_eq_capacity {outer inner : List ι} (hnot : i ∉ outer)
    (hone : ∀ j ∈ outer, s j = 1) :
    s i * place s (outer ++ i :: inner) i = capacity s (outer ++ i :: inner) := by
  induction outer with
  | nil => rw [nil_append, place, if_pos rfl, capacity_cons]
  | cons j outer ih =>
    obtain ⟨hne, htail⟩ := not_or.1 (mt mem_cons.2 hnot)
    rw [cons_append, place, if_neg hne, capacity_cons, hone j mem_cons_self, Nat.one_mul]
    exact ih htail fun k hk => hone k (mem_cons_of_mem _ hk)

end Digits

section Levels

variable {κ : Type} {axes : List κ} {levels : List (κ → ℕ)} {a : κ}

def extent (levels : List (κ → ℕ)) (a : κ) : ℕ :=
  (levels.map fun shape => shape a).prod

@[simp] theorem extent_nil (a : κ) : extent [] a = 1 := rfl

@[simp] theorem extent_cons (shape : κ → ℕ) (inner : List (κ → ℕ)) (a : κ) :
    extent (shape :: inner) a = shape a * extent inner a := by
  simp [extent]

theorem extent_append (levels levels' : List (κ → ℕ)) (a : κ) :
    extent (levels ++ levels') a = extent levels a * extent levels' a := by
  simp [extent]

def Positive (levels : List (κ → ℕ)) : Prop :=
  ∀ shape ∈ levels, ∀ a, 0 < shape a

variable {inner : List (κ → ℕ)} {shape x : κ → ℕ}

theorem Positive.head (h : Positive (shape :: inner)) : ∀ a, 0 < shape a :=
  h shape mem_cons_self

theorem Positive.tail (h : Positive (shape :: inner)) : Positive inner :=
  fun shape hshape => h shape (mem_cons_of_mem _ hshape)

theorem Positive.extent_pos (h : Positive levels) (a : κ) : 0 < extent levels a := by
  apply prod_pos
  intro n hn
  obtain ⟨shape, hshape, rfl⟩ := mem_map.1 hn
  exact h shape hshape a

def coordinate (shape : κ → ℕ) (inner : List (κ → ℕ)) (x : κ → ℕ) (a : κ) : ℕ :=
  x a % (shape a * extent inner a) / extent inner a

def cells (axes : List κ) : List (κ → ℕ) → (κ → ℕ) → List ℕ
  | [], _ => []
  | shape :: inner, x => value shape (coordinate shape inner x) axes :: cells axes inner x

def volume (axes : List κ) (levels : List (κ → ℕ)) : ℕ :=
  (levels.map fun shape => capacity shape axes).prod

def rank (axes : List κ) : List (κ → ℕ) → List ℕ → ℕ
  | _ :: inner, cell :: rest => cell * volume axes inner + rank axes inner rest
  | _, _ => 0

@[simp] theorem volume_nil (axes : List κ) : volume axes [] = 1 := rfl

@[simp] theorem volume_cons (axes : List κ) (shape : κ → ℕ) (inner : List (κ → ℕ)) :
    volume axes (shape :: inner) = capacity shape axes * volume axes inner := by
  simp [volume]

theorem coordinate_lt (h : 0 < shape a) (inner : List (κ → ℕ)) (x : κ → ℕ) :
    coordinate shape inner x a < shape a :=
  mod_mul_div_lt h

theorem cells_length (axes : List κ) (levels : List (κ → ℕ)) (x : κ → ℕ) :
    (cells axes levels x).length = levels.length := by
  induction levels with
  | nil => rfl
  | cons shape inner ih => simp [cells, ih]

theorem cells_lt (h : Positive levels) (x : κ → ℕ) :
    List.Forall₂ (fun shape cell => cell < capacity shape axes) levels (cells axes levels x) := by
  induction levels with
  | nil => exact .nil
  | cons shape inner ih =>
    exact .cons (value_lt fun a _ => coordinate_lt (h.head a) inner x) (ih h.tail)

theorem cells_congr {x' : κ → ℕ} (h : ∀ a ∈ axes, x a % extent levels a = x' a % extent levels a) :
    cells axes levels x = cells axes levels x' := by
  induction levels with
  | nil => rfl
  | cons shape inner ih =>
    have hhead : ∀ a ∈ axes, coordinate shape inner x a = coordinate shape inner x' a := by
      intro a ha
      rw [coordinate, coordinate, ← extent_cons, h a ha]
    have htail : ∀ a ∈ axes, x a % extent inner a = x' a % extent inner a := by
      intro a ha
      have heq := congrArg (· % extent inner a) (h a ha)
      simpa only [extent_cons, mod_mul_left_mod] using heq
    rw [cells, cells, value_congr hhead, ih htail]

theorem rank_lt {ncells : List ℕ}
    (h : List.Forall₂ (fun shape cell => cell < capacity shape axes) levels ncells) :
    rank axes levels ncells < volume axes levels := by
  induction h with
  | nil => simp [rank]
  | @cons shape cell inner rest hcell hrest ih =>
    calc cell * volume axes inner + rank axes inner rest
        < cell * volume axes inner + volume axes inner := by omega
      _ = (cell + 1) * volume axes inner := by ring
      _ ≤ capacity shape axes * volume axes inner := Nat.mul_le_mul_right _ hcell

variable [DecidableEq κ]

def refine (axes : List κ) (shape y : κ → ℕ) (cell : ℕ) (a : κ) : ℕ :=
  y a * shape a + digit shape axes cell a

def refineAll (axes : List κ) : List (κ → ℕ) → List ℕ → (κ → ℕ) → κ → ℕ
  | shape :: inner, cell :: rest, y => refineAll axes inner rest (refine axes shape y cell)
  | _, _, y => y

def point (axes : List κ) : List (κ → ℕ) → ℕ → κ → ℕ
  | [], _, _ => 0
  | shape :: inner, n, a =>
    digit shape axes (n % (capacity shape axes * volume axes inner) / volume axes inner) a *
      extent inner a + point axes inner n a

theorem refineAll_cells (hnodup : axes.Nodup) (hpos : Positive levels) (x y : κ → ℕ)
    (ha : a ∈ axes) : refineAll axes levels (cells axes levels x) y a =
      y a * extent levels a + x a % extent levels a := by
  induction levels generalizing y with
  | nil => simp [refineAll, mod_one]
  | cons shape inner ih =>
    have hdigit : digit shape axes (value shape (coordinate shape inner x) axes) a =
        coordinate shape inner x a :=
      digit_value hnodup (fun b _ => coordinate_lt (hpos.head b) inner x) ha
    have hsplit := mod_mul_div_add_mod (x a) (extent inner a) (shape a)
    rw [cells, refineAll, ih hpos.tail, refine, hdigit, coordinate, extent_cons, Nat.add_mul,
      Nat.add_assoc, hsplit, Nat.mul_assoc]

theorem refineAll_lt (hpos : Positive levels) (ncells : List ℕ) (y : κ → ℕ)
    (hlen : ncells.length = levels.length) :
    refineAll axes levels ncells y a < (y a + 1) * extent levels a := by
  induction levels generalizing ncells y with
  | nil =>
    rw [refineAll.eq_2 _ _ _ _ (by simp), extent_nil]
    omega
  | cons shape inner ih =>
    match ncells, hlen with
    | cell :: rest, hlen =>
      have hstep : refine axes shape y cell a + 1 ≤ (y a + 1) * shape a := by
        have := digit_lt (l := axes) (hpos.head a) cell
        rw [refine, Nat.add_mul]
        omega
      rw [extent_cons, ← Nat.mul_assoc]
      exact (ih hpos.tail rest _ (by simpa using hlen)).trans_le
        (Nat.mul_le_mul_right _ hstep)

theorem point_lt (h : Positive levels) (n : ℕ) : point axes levels n a < extent levels a := by
  induction levels with
  | nil => simp [point]
  | cons shape inner ih =>
    have hdigit := digit_lt (l := axes) (h.head a)
      (n % (capacity shape axes * volume axes inner) / volume axes inner)
    calc _ < _ * extent inner a + extent inner a := Nat.add_lt_add_left (ih h.tail) _
      _ = (_ + 1) * extent inner a := by ring
      _ ≤ shape a * extent inner a := Nat.mul_le_mul_right _ hdigit

theorem point_mul_volume_add (levels : List (κ → ℕ)) (k n : ℕ) (a : κ) :
    point axes levels (k * volume axes levels + n) a = point axes levels n a := by
  induction levels generalizing k with
  | nil => rfl
  | cons shape inner ih =>
    have htail := ih (k * capacity shape axes)
    rw [point, point, ← volume_cons, mul_add_mod_self_right]
    rw [Nat.mul_assoc, ← volume_cons] at htail
    rw [htail]

theorem point_rank_cells (hnodup : axes.Nodup) (hpos : Positive levels) (x : κ → ℕ)
    (ha : a ∈ axes) :
    point axes levels (rank axes levels (cells axes levels x)) a = x a % extent levels a := by
  induction levels with
  | nil => simp [point, mod_one]
  | cons shape inner ih =>
    have hcoord : ∀ b ∈ axes, coordinate shape inner x b < shape b :=
      fun b _ => coordinate_lt (hpos.head b) inner x
    rw [cells, rank, point, point_mul_volume_add, ih hpos.tail,
      mul_add_mod_mul_div (value_lt hcoord) (rank_lt (cells_lt hpos.tail x)),
      digit_value hnodup hcoord ha, coordinate, mod_mul_div_add_mod, extent_cons]

theorem rank_cells_point (hnodup : axes.Nodup) (hpos : Positive levels) (n : ℕ) :
    rank axes levels (cells axes levels (point axes levels n)) = n % volume axes levels := by
  induction levels with
  | nil => simp [rank, mod_one]
  | cons shape inner ih =>
    have hhead : ∀ a ∈ axes, coordinate shape inner (point axes (shape :: inner) n) a =
        digit shape axes
          (n % (capacity shape axes * volume axes inner) / volume axes inner) a := by
      intro a _
      exact mul_add_mod_mul_div (digit_lt (hpos.head a) _) (point_lt hpos.tail n)
    have htail : cells axes inner (point axes (shape :: inner) n) =
        cells axes inner (point axes inner n) := by
      refine cells_congr fun a _ => ?_
      rw [point, mul_add_mod_self_right]
    have hcell : n % (capacity shape axes * volume axes inner) / volume axes inner <
        capacity shape axes :=
      mod_mul_div_lt (capacity_pos fun a _ => hpos.head a)
    rw [cells, rank, value_congr hhead, value_digit hnodup, mod_eq_of_lt hcell, htail,
      ih hpos.tail, mod_mul_div_add_mod, volume_cons]

theorem existsUnique_point (hnodup : axes.Nodup) (hpos : Positive levels)
    (hx : ∀ a ∈ axes, x a < extent levels a) :
    ∃! n, n < volume axes levels ∧ ∀ a ∈ axes, point axes levels n a = x a := by
  refine ⟨rank axes levels (cells axes levels x), ⟨rank_lt (cells_lt hpos x), ?_⟩, ?_⟩
  · intro a ha
    rw [point_rank_cells hnodup hpos x ha, mod_eq_of_lt (hx a ha)]
  · rintro n ⟨hn, hpoint⟩
    have hcells : cells axes levels (point axes levels n) = cells axes levels x :=
      cells_congr fun a ha => by rw [hpoint a ha]
    rw [← hcells, rank_cells_point hnodup hpos, mod_eq_of_lt hn]

end Levels

end Quadrants.Library.MixedRadix
