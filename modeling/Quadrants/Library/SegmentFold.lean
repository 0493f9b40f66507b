import Mathlib.Algebra.Order.Group.Int
import Mathlib.Tactic.Common
import Mathlib.Tactic.SplitIfs

namespace Quadrants.Library.SegmentFold

structure BinOp (α : Type) where
  op : α → α → α
  ident : α
  assoc : ∀ x y z, op (op x y) z = op x (op y z)
  ident_op : ∀ x, op ident x = x
  op_ident : ∀ x, op x ident = x

variable {α : Type}

def BinOp.least (key : α → ℤ) (top : α) (hinj : Function.Injective key)
    (htop : ∀ x, key x ≤ key top) : BinOp α where
  op x y := if key x ≤ key y then x else y
  ident := top
  assoc x y z := by
    split_ifs <;> first | rfl | omega
  ident_op x := by
    split_ifs with h
    · exact hinj (le_antisymm h (htop x))
    · rfl
  op_ident x := if_pos (htop x)

theorem BinOp.least_comm (key : α → ℤ) (top : α) (hinj : Function.Injective key)
    (htop : ∀ x, key x ≤ key top) (x y : α) :
    (BinOp.least key top hinj htop).op x y = (BinOp.least key top hinj htop).op y x := by
  change (if key x ≤ key y then x else y) = if key y ≤ key x then y else x
  split_ifs with hxy hyx hyx
  · exact hinj (le_antisymm hxy hyx)
  · rfl
  · rfl
  · omega

variable (o : BinOp α)

def BinOp.fold (f : ℕ → α) (a : ℕ) : ℕ → α
  | 0 => o.ident
  | n + 1 => o.op (BinOp.fold f a n) (f (a + n))

variable (f : ℕ → α)

@[simp] theorem fold_zero (a : ℕ) : o.fold f a 0 = o.ident := rfl

theorem fold_succ (a n : ℕ) : o.fold f a (n + 1) = o.op (o.fold f a n) (f (a + n)) := rfl

@[simp] theorem fold_one (a : ℕ) : o.fold f a 1 = f a := o.ident_op _

theorem fold_congr {f g : ℕ → α} {a b n : ℕ} (h : ∀ i < n, f (a + i) = g (b + i)) :
    o.fold f a n = o.fold g b n := by
  induction n with
  | zero => rfl
  | succ n ih =>
    rw [fold_succ, fold_succ, ih fun i hi => h i (by omega), h n (by omega)]

theorem fold_add (a m n : ℕ) : o.fold f a (m + n) = o.op (o.fold f a m) (o.fold f (a + m) n) := by
  induction n with
  | zero => exact (o.op_ident _).symm
  | succ n ih =>
    rw [← Nat.add_assoc, fold_succ, ih, fold_succ, o.assoc, Nat.add_assoc a m n]

theorem fold_tiles (w a n : ℕ) :
    o.fold (fun b => o.fold f (a + b * w) w) 0 n = o.fold f a (n * w) := by
  induction n with
  | zero => simp
  | succ n ih =>
    rw [fold_succ, ih, Nat.succ_mul, fold_add, Nat.zero_add]

def BinOp.pad (f : ℕ → α) (n : ℕ) (i : ℕ) : α := if i < n then f i else o.ident

def BinOp.ofLanes {w : ℕ} (v : Fin w → α) (i : ℕ) : α := if h : i < w then v ⟨i, h⟩ else o.ident

theorem ofLanes_of_lt {w i : ℕ} (v : Fin w → α) (h : i < w) : o.ofLanes v i = v ⟨i, h⟩ := dif_pos h

theorem fold_pad_of_le {n a k : ℕ} (h : a + k ≤ n) : o.fold (o.pad f n) a k = o.fold f a k := by
  apply fold_congr
  intro i hi
  rw [BinOp.pad, if_pos (by omega)]

theorem fold_pad_add (n k : ℕ) : o.fold (o.pad f n) 0 (n + k) = o.fold f 0 n := by
  have htail : ∀ k, o.fold (o.pad f n) n k = o.ident := by
    intro k
    induction k with
    | zero => rfl
    | succ k ih =>
      rw [fold_succ, ih, BinOp.pad, if_neg (by omega), o.op_ident]
  rw [fold_add, Nat.zero_add, htail, o.op_ident, fold_pad_of_le o f (by omega)]

end Quadrants.Library.SegmentFold
