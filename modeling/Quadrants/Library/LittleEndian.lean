import Mathlib.Data.Nat.Notation
import Mathlib.Tactic.Ring

/-!
Numbers as little-endian byte strings, and byte strings in a memory.
-/

namespace Quadrants.Library.LittleEndian

def toBytes : ℕ → ℕ → List UInt8
  | 0, _ => []
  | width + 1, n => UInt8.ofNat n :: toBytes width (n / 256)

def ofBytes : List UInt8 → ℕ
  | [] => 0
  | byte :: bytes => byte.toNat + 256 * ofBytes bytes

@[simp]
theorem length_toBytes (width : ℕ) : ∀ n, (toBytes width n).length = width := by
  induction width with
  | zero => exact fun n => rfl
  | succ width ih => intro n; rw [toBytes, List.length_cons, ih]

theorem ofBytes_toBytes {width : ℕ} : ∀ {n : ℕ}, n < 256 ^ width → ofBytes (toBytes width n) = n := by
  induction width with
  | zero =>
    intro n hn
    rw [toBytes, ofBytes]
    omega
  | succ width ih =>
    intro n hn
    have hdiv : n / 256 < 256 ^ width := by
      omega
    rw [toBytes, ofBytes, ih hdiv, UInt8.toNat_ofNat']
    omega

theorem ofBytes_lt (bytes : List UInt8) : ofBytes bytes < 256 ^ bytes.length := by
  induction bytes with
  | nil => exact Nat.one_pos
  | cons byte bytes ih =>
    have hbyte := byte.toNat_lt
    rw [ofBytes, List.length_cons]
    omega

theorem toBytes_ofBytes (bytes : List UInt8) : toBytes bytes.length (ofBytes bytes) = bytes := by
  induction bytes with
  | nil => rfl
  | cons byte bytes ih =>
    have hbyte := byte.toNat_lt
    have hdiv : (byte.toNat + 256 * ofBytes bytes) / 256 = ofBytes bytes := by omega
    have hmod : (byte.toNat + 256 * ofBytes bytes) % 256 = byte.toNat := by omega
    rw [List.length_cons, ofBytes, toBytes, hdiv]
    congr 1
    apply UInt8.toNat_inj.1
    exact hmod

def slice (mem : ℕ → UInt8) (pos n : ℕ) : List UInt8 :=
  (List.range n).map fun i => mem (pos + i)

variable (mem : ℕ → UInt8)

@[simp]
theorem length_slice (pos n : ℕ) : (slice mem pos n).length = n := by
  simp [slice]

theorem slice_add (pos m n : ℕ) :
    slice mem pos (m + n) = slice mem pos m ++ slice mem (pos + m) n := by
  simp [slice, List.range_add, Nat.add_assoc]

def Holds (mem : ℕ → UInt8) (pos : ℕ) (bytes : List UInt8) : Prop :=
  slice mem pos bytes.length = bytes

theorem Holds.append_iff {mem : ℕ → UInt8} {pos : ℕ} {bytes rest : List UInt8} :
    Holds mem pos (bytes ++ rest) ↔ Holds mem pos bytes ∧ Holds mem (pos + bytes.length) rest := by
  unfold Holds
  rw [List.length_append, slice_add]
  constructor
  · intro h
    exact List.append_inj h (length_slice mem pos bytes.length)
  · rintro ⟨hbytes, hrest⟩
    rw [hbytes, hrest]

end Quadrants.Library.LittleEndian
