import Quadrants.Library.WordFields
import Mathlib.Data.List.Count
import Mathlib.Data.Nat.Count
import Mathlib.Logic.Function.Basic

/-!
Atomic updates of shared cells by threads that come in any order, and the bit counts of words.
-/

namespace Quadrants.Library.AtomicRounds

open WordFields

section Updates

variable {ι X A : Type} [DecidableEq X]

def atomics (op : A → A → A) (cell : ι → X) (operand : ι → A) (order : List ι)
    (m : X → A) : X → A :=
  order.foldl (fun m i => Function.update m (cell i) (op (m (cell i)) (operand i))) m

theorem atomics_cons (op : A → A → A) (cell : ι → X) (operand : ι → A) (i : ι) (order : List ι)
    (m : X → A) : atomics op cell operand (i :: order) m =
      atomics op cell operand order
        (Function.update m (cell i) (op (m (cell i)) (operand i))) := rfl

theorem atomics_add_one {w : ℕ} (cell : ι → X) (order : List ι) (m : X → BitVec w) (x : X) :
    atomics (· + ·) cell (fun _ => 1) order m x =
      m x + BitVec.ofNat w (order.countP fun i => cell i = x) := by
  induction order generalizing m with
  | nil => exact (BitVec.add_zero _).symm
  | cons i order ih =>
    rw [atomics_cons, ih, List.countP_cons]
    rcases eq_or_ne (cell i) x with rfl | hne
    · rw [Function.update_self, if_pos (decide_eq_true rfl), BitVec.ofNat_add, BitVec.add_assoc,
        BitVec.add_comm 1]
      rfl
    · rw [Function.update_of_ne hne.symm, if_neg (by simpa using hne), Nat.add_zero]

theorem atomics_or {w : ℕ} (cell : ι → X) (operand : ι → BitVec w) (order : List ι)
    (m : X → BitVec w) (x : X) (bit : ℕ) :
    (atomics (· ||| ·) cell operand order m x).getLsbD bit = true ↔
      (m x).getLsbD bit = true ∨ ∃ i ∈ order, cell i = x ∧ (operand i).getLsbD bit = true := by
  induction order generalizing m with
  | nil => simp [atomics]
  | cons i order ih =>
    rw [atomics_cons, ih, List.exists_mem_cons_iff, ← or_assoc]
    rcases eq_or_ne (cell i) x with rfl | hne
    · simp
    · simp [Function.update_of_ne hne.symm, hne]

def clear {w : ℕ} (cells : List X) (m : X → BitVec w) : X → BitVec w :=
  cells.foldl (fun m x => Function.update m x 0) m

theorem clear_of_mem {w : ℕ} {cells : List X} (m : X → BitVec w) {x : X} (h : x ∈ cells) :
    clear cells m x = 0 := by
  have hkeeps : ∀ (cells : List X) (m : X → BitVec w), m x = 0 → clear cells m x = 0 := by
    intro cells
    induction cells with
    | nil => exact fun m hm => hm
    | cons y cells ih =>
      intro m hm
      refine ih _ ?_
      rcases eq_or_ne x y with rfl | hne
      · exact Function.update_self _ _ _
      · exact (Function.update_of_ne hne _ _).trans hm
  induction cells generalizing m with
  | nil => exact absurd h List.not_mem_nil
  | cons y cells ih =>
    rcases List.mem_cons.1 h with rfl | h
    · exact hkeeps cells _ (Function.update_self _ _ _)
    · exact ih _ h

end Updates

section Bits

variable {w : ℕ} (x : BitVec w)

theorem cpopNatRec_eq_count (n acc : ℕ) :
    x.cpopNatRec n acc = acc + Nat.count (fun i => x.getLsbD i = true) n := by
  induction n generalizing acc with
  | zero => rfl
  | succ n ih =>
    rw [BitVec.cpopNatRec_succ, ih, Nat.count_succ]
    rcases hbit : x.getLsbD n with _ | _
    · simp
    · simp only [Bool.toNat_true, if_true]
      omega

theorem toNat_cpop : x.cpop.toNat = Nat.count (fun i => x.getLsbD i = true) w := by
  have hle : Nat.count (fun i => x.getLsbD i = true) w ≤ w := Nat.count_le _
  rw [BitVec.cpop, cpopNatRec_eq_count, Nat.zero_add, BitVec.toNat_ofNat,
    Nat.mod_eq_of_lt (Nat.lt_of_le_of_lt hle Nat.lt_two_pow_self)]

variable {x}

theorem toNat_clz {bit : ℕ} (hbit : x.getLsbD bit = true)
    (habove : ∀ i, bit < i → x.getLsbD i = false) : x.clz.toNat = w - 1 - bit := by
  have hlt : bit < w := BitVec.lt_of_getLsbD hbit
  have hrec : ∀ n, bit ≤ n → (x.clzAuxRec n).toNat = w - 1 - bit := by
    intro n hn
    induction n with
    | zero =>
      obtain rfl := Nat.le_zero.1 hn
      rw [BitVec.clzAuxRec_zero, if_pos hbit, BitVec.toNat_ofNat,
        Nat.mod_eq_of_lt (Nat.lt_of_le_of_lt (Nat.sub_le w 1) Nat.lt_two_pow_self), Nat.sub_zero]
    | succ n ih =>
      rw [BitVec.clzAuxRec_succ]
      rcases Nat.eq_or_lt_of_le hn with rfl | hlt'
      · rw [if_pos hbit, BitVec.toNat_ofNat, Nat.mod_eq_of_lt]
        exact Nat.lt_of_le_of_lt (Nat.le_trans (Nat.sub_le _ _) (Nat.sub_le w 1))
          Nat.lt_two_pow_self
      · rw [habove (n + 1) hlt']
        exact ih (Nat.le_of_lt_succ hlt')
  exact hrec (w - 1) (by omega)

theorem getLsbD_lanemask_le {lane : ℕ} (hlane : lane < w) (bit : ℕ) :
    ((1#w <<< lane) ||| ((1#w <<< lane) - 1#w)).getLsbD bit = true ↔ bit ≤ lane := by
  rw [BitVec.getLsbD_or, ← BitVec.twoPow_eq, BitVec.getLsbD_twoPow, BitVec.twoPow_eq,
    getLsbD_lowMask hlane]
  simp only [Bool.or_eq_true, Bool.and_eq_true, decide_eq_true_eq]
  omega

end Bits

end Quadrants.Library.AtomicRounds
