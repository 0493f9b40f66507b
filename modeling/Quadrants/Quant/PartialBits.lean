import Quadrants.Library.WordFields

/-!
Writes of a part of a word (`DEFINE_SET_PARTIAL_BITS` of `runtime.cpp`, compiled to LLVM) and
`extract_quant_int` of `codegen_llvm_quant.cpp`.
-/

namespace Quadrants.Quant

open Library.WordFields BitVec

inductive PhysicalWidth where
  | b8
  | b16
  | b32
  | b64
  deriving DecidableEq, Repr

def PhysicalWidth.N : PhysicalWidth → ℕ
  | b8 => 8
  | b16 => 16
  | b32 => 32
  | b64 => 64

section Promotion

variable {N : ℕ}

def promoted (N : ℕ) : ℕ :=
  max N 32

def promote (x : BitVec N) : BitVec (promoted N) :=
  x.setWidth (promoted N)

def narrow (N : ℕ) (x : BitVec (promoted N)) : BitVec N :=
  x.setWidth N

def shiftRight (N : ℕ) (x : BitVec (promoted N)) (amount : ℕ) : BitVec (promoted N) :=
  if N < 32 then x.sshiftRight amount else x >>> amount

def toU64 (N : ℕ) (x : BitVec (promoted N)) : BitVec 64 :=
  if N < 32 then x.signExtend 64 else x.setWidth 64

end Promotion

section Macro

variable (N : ℕ)

def setMask (ptr : BitVec N) (mask : BitVec 64) (value : BitVec N) : BitVec N :=
  let maskN := mask.setWidth N
  (toU64 N (promote ptr &&& ~~~promote maskN) ||| (value.setWidth 64 &&& mask)).setWidth N

/-- The last round of a loop over `__atomic_compare_exchange` gives the old and the new value; the
rounds before read words that were not there any more. -/
def compareExchangeLoop (newValue : BitVec N → BitVec N) :
    List (BitVec N) → BitVec N → BitVec N × BitVec N
  | [], ptr => (ptr, newValue ptr)
  | _ :: failed, ptr => compareExchangeLoop newValue failed ptr

def atomicSetMask (failed : List (BitVec N)) (ptr : BitVec N) (mask : BitVec 64)
    (value : BitVec N) : BitVec N :=
  let maskN := mask.setWidth N
  (compareExchangeLoop N (fun oldValue =>
    (toU64 N (promote oldValue &&& ~~~promote maskN) |||
      (value.setWidth 64 &&& mask)).setWidth N) failed ptr).2

def partialMask (offset bits : ℕ) : BitVec N :=
  narrow N (shiftRight N (~~~promote (0 : BitVec N) <<< (N - bits)) (N - offset - bits))

def setPartialBits (ptr : BitVec N) (offset bits : ℕ) (value : BitVec N) : BitVec N :=
  let mask := partialMask N offset bits
  setMask N ptr (mask.setWidth 64) (narrow N (promote value <<< offset))

def atomicSetPartialBits (failed : List (BitVec N)) (ptr : BitVec N) (offset bits : ℕ)
    (value : BitVec N) : BitVec N :=
  let mask := partialMask N offset bits
  atomicSetMask N failed ptr (mask.setWidth 64) (narrow N (promote value <<< offset))

def atomicAddPartialBits (failed : List (BitVec N)) (ptr : BitVec N) (offset bits : ℕ)
    (value : BitVec N) : BitVec N × BitVec N :=
  let mask := partialMask N offset bits
  compareExchangeLoop N (fun oldValue =>
    let newValue := narrow N (promote oldValue + promote value <<< offset)
    narrow N ((promote oldValue &&& ~~~promote mask) ||| (promote newValue &&& promote mask)))
    failed ptr

def extractQuantInt (physicalValue : BitVec N) (bitOffset numBits : ℕ) (isSigned : Bool)
    (computeBits : ℕ) : BitVec computeBits :=
  let bitEnd := bitOffset + numBits
  let left := N - bitEnd
  let right := N - numBits
  let step1 := physicalValue <<< left
  if isSigned then (step1.sshiftRight right).signExtend computeBits
  else (step1 >>> right).setWidth computeBits

def storeQuantInt {valueBits : ℕ} (ptr : BitVec N) (bitOffset numBits : ℕ)
    (value : BitVec valueBits) : BitVec N :=
  setPartialBits N ptr bitOffset numBits (value.setWidth N)

def atomicAddQuantInt {valueBits : ℕ} (failed : List (BitVec N)) (ptr : BitVec N)
    (bitOffset numBits : ℕ) (value : BitVec valueBits) (valueIsSigned : Bool) :
    BitVec N × BitVec N :=
  atomicAddPartialBits N failed ptr bitOffset numBits
    (if valueIsSigned then value.signExtend N else value.setWidth N)

end Macro

section Bits

variable {N : ℕ} {offset bits : ℕ}

theorem getLsbD_promote (x : BitVec N) (i : ℕ) : (promote x).getLsbD i = x.getLsbD i := by
  rw [promote, getLsbD_setWidth]
  by_cases hi : i < promoted N
  · rw [decide_eq_true hi, Bool.true_and]
  · rw [getLsbD_of_ge x i (by unfold promoted at hi; omega), Bool.and_false]

variable {i : ℕ}

theorem getLsbD_narrow (hi : i < N) (x : BitVec (promoted N)) :
    (narrow N x).getLsbD i = x.getLsbD i := by
  rw [narrow, getLsbD_setWidth, decide_eq_true hi, Bool.true_and]

theorem lt_promoted (hi : i < N) : i < promoted N := by
  unfold promoted
  omega

theorem getLsbD_ones_shiftLeft (N amount i : ℕ) : (~~~promote (0 : BitVec N) <<< amount).getLsbD i =
      (decide (i < promoted N) && decide (amount ≤ i)) := by
  have hzero : (0 : BitVec N).getLsbD (i - amount) = false := getLsbD_zero
  rw [getLsbD_shiftLeft, getLsbD_not, getLsbD_promote, hzero, Bool.not_false, Bool.and_true]
  by_cases hi : i < promoted N
  · have hback : i - amount < promoted N := by omega
    rw [decide_eq_true hi, decide_eq_true hback, Bool.and_true, ← decide_not]
    exact decide_eq_decide.2 Nat.not_lt
  · rw [decide_eq_false hi, Bool.false_and, Bool.false_and, Bool.false_and]

theorem getLsbD_partialMask (hbits : 1 ≤ bits) (hfit : offset + bits ≤ N) (hi : i < N) :
    (partialMask N offset bits).getLsbD i =
      (decide (offset ≤ i) && (decide (N < 32) || decide (i < offset + bits))) := by
  rw [partialMask, getLsbD_narrow hi, shiftRight, ← Bool.decide_or, ← Bool.decide_and]
  split
  · next hN =>
      have hint : promoted N = 32 := max_eq_right (by omega)
      have hmsb : (~~~promote (0 : BitVec N) <<< (N - bits)).msb = true := by
        rw [msb_eq_getLsbD_last, getLsbD_ones_shiftLeft, ← Bool.decide_and, decide_eq_true_iff]
        omega
      rw [getLsbD_sshiftRight, hmsb, getLsbD_ones_shiftLeft, decide_eq_false (by omega),
        Bool.not_false, ← Bool.decide_and]
      split
      · exact decide_eq_decide.2 (by omega)
      · exact (decide_eq_true (by omega)).symm
  · next hN =>
      have hself : promoted N = N := max_eq_left (by omega)
      rw [getLsbD_ushiftRight, getLsbD_ones_shiftLeft, ← Bool.decide_and]
      exact decide_eq_decide.2 (by omega)

theorem getLsbD_setMask (hN : N ≤ 64) (hi : i < N) (ptr value mask : BitVec N) :
    (setMask N ptr (mask.setWidth 64) value).getLsbD i =
      if mask.getLsbD i then value.getLsbD i else ptr.getLsbD i := by
  have h64 : i < 64 := by omega
  have hmask : ((mask.setWidth 64).setWidth N).getLsbD i = mask.getLsbD i := by
    rw [getLsbD_setWidth, getLsbD_setWidth, decide_eq_true hi, decide_eq_true h64,
      Bool.true_and, Bool.true_and]
  have htoU64 : ∀ x : BitVec (promoted N), (toU64 N x).getLsbD i = x.getLsbD i := by
    intro x
    rw [toU64]
    split
    · rw [getLsbD_signExtend, decide_eq_true h64, Bool.true_and, if_pos (lt_promoted hi)]
    · rw [getLsbD_setWidth, decide_eq_true h64, Bool.true_and]
  rw [setMask, getLsbD_setWidth, decide_eq_true hi, Bool.true_and, getLsbD_or, htoU64, getLsbD_and,
    getLsbD_not, getLsbD_promote, getLsbD_promote, hmask, decide_eq_true (lt_promoted hi),
    Bool.true_and, getLsbD_and, getLsbD_setWidth, getLsbD_setWidth, decide_eq_true h64,
    Bool.true_and]
  cases mask.getLsbD i <;> simp

theorem compareExchangeLoop_eq (newValue : BitVec N → BitVec N) (failed : List (BitVec N))
    (ptr : BitVec N) : compareExchangeLoop N newValue failed ptr = (ptr, newValue ptr) := by
  induction failed with
  | nil => rfl
  | cons _ failed ih => exact ih

theorem narrow_shiftLeft (value : BitVec N) (offset : ℕ) :
    narrow N (promote value <<< offset) = value <<< offset := by
  apply eq_of_getLsbD_eq
  intro i hi
  rw [getLsbD_narrow hi, getLsbD_shiftLeft, getLsbD_promote, getLsbD_shiftLeft,
    decide_eq_true hi, decide_eq_true (lt_promoted hi)]

theorem narrow_add (x y : BitVec N) (offset : ℕ) :
    narrow N (promote x + promote y <<< offset) = x + y <<< offset := by
  have hle : N ≤ promoted N := Nat.le_max_left N 32
  rw [narrow, setWidth_add _ _ hle]
  have hx : (promote x).setWidth N = x := by
    rw [promote, setWidth_setWidth_of_le _ hle, setWidth_eq]
  have hy : (promote y <<< offset).setWidth N = y <<< offset := narrow_shiftLeft y offset
  rw [hx, hy]

theorem getLsbD_setPartialBits (hN : N ≤ 64) (hi : i < N) (ptr value : BitVec N) :
    (setPartialBits N ptr offset bits value).getLsbD i =
      if (partialMask N offset bits).getLsbD i then (value <<< offset).getLsbD i
      else ptr.getLsbD i := by
  rw [setPartialBits, getLsbD_setMask hN hi, narrow_shiftLeft]

variable (failed : List (BitVec N))

theorem atomicSetMask_eq (ptr : BitVec N) (mask : BitVec 64)
    (value : BitVec N) : atomicSetMask N failed ptr mask value = setMask N ptr mask value := by
  rw [atomicSetMask, compareExchangeLoop_eq]
  rfl

theorem atomicSetPartialBits_eq (ptr value : BitVec N) :
    atomicSetPartialBits N failed ptr offset bits value =
      setPartialBits N ptr offset bits value := by
  rw [atomicSetPartialBits, atomicSetMask_eq]
  rfl

theorem atomicAddPartialBits_fst (ptr value : BitVec N) :
    (atomicAddPartialBits N failed ptr offset bits value).1 = ptr := by
  rw [atomicAddPartialBits, compareExchangeLoop_eq]

theorem getLsbD_atomicAddPartialBits (hi : i < N)
    (ptr value : BitVec N) : (atomicAddPartialBits N failed ptr offset bits value).2.getLsbD i =
      if (partialMask N offset bits).getLsbD i then (ptr + value <<< offset).getLsbD i
      else ptr.getLsbD i := by
  rw [atomicAddPartialBits, compareExchangeLoop_eq]
  rw [getLsbD_narrow hi, getLsbD_merge, narrow_add, getLsbD_promote, getLsbD_promote,
    getLsbD_promote]

end Bits

section Reads

variable {N : ℕ} {offset bits : ℕ}

def readAs (isSigned : Bool) (computeBits : ℕ) (x : BitVec bits) : BitVec computeBits :=
  BitVec.ofInt computeBits (reading isSigned x)

theorem getLsbD_shiftLeft_top (hfit : offset + bits ≤ N) (word : BitVec N) {i : ℕ} (hi : i < bits) :
    (word <<< (N - (offset + bits))).getLsbD (N - bits + i) = word.getLsbD (offset + i) := by
  have hback : N - bits + i - (N - (offset + bits)) = offset + i := by omega
  rw [getLsbD_shiftLeft, hback, decide_eq_true (by omega), decide_eq_false (by omega),
    Bool.not_false, Bool.true_and, Bool.true_and]

theorem msb_shiftLeft_top (hbits : 1 ≤ bits) (hfit : offset + bits ≤ N) (word : BitVec N) :
    (word <<< (N - (offset + bits))).msb = (field word offset bits).msb := by
  have hlast : N - 1 = N - bits + (bits - 1) := by omega
  rw [msb_eq_getLsbD_last, hlast, getLsbD_shiftLeft_top hfit word (by omega),
    msb_eq_getLsbD_last, getLsbD_field, decide_eq_true (by omega), Bool.true_and]

theorem extractQuantInt_eq (hbits : 1 ≤ bits) (hfit : offset + bits ≤ N) (word : BitVec N)
    (isSigned : Bool) (computeBits : ℕ) : extractQuantInt N word offset bits isSigned computeBits =
      readAs isSigned computeBits (field word offset bits) := by
  rw [extractQuantInt, readAs, reading]
  cases isSigned with
  | true =>
    change _ = (field word offset bits).signExtend computeBits
    apply eq_of_getLsbD_eq
    intro i hi
    have hmsb := msb_shiftLeft_top hbits hfit word
    rw [if_pos rfl, getLsbD_signExtend, getLsbD_signExtend,
      getLsbD_sshiftRight, msb_sshiftRight, hmsb, decide_eq_true hi, Bool.true_and,
      Bool.true_and]
    rcases Nat.lt_or_ge i bits with hlt | hge
    · rw [if_pos (by omega), if_pos (by omega), if_pos hlt, decide_eq_false (by omega),
        getLsbD_shiftLeft_top hfit word hlt, getLsbD_field, decide_eq_true hlt, Bool.not_false,
        Bool.true_and]
    · rw [if_neg (by omega : ¬N - bits + i < N), if_neg (by omega : ¬i < bits)]
      split
      · rw [decide_eq_false (by omega), Bool.not_false, Bool.true_and]
      · rfl
  | false =>
    rw [if_neg Bool.false_ne_true, if_neg Bool.false_ne_true, ofInt_natCast, ofNat_toNat]
    apply eq_of_getLsbD_eq
    intro i hi
    rw [getLsbD_setWidth, getLsbD_setWidth,
      getLsbD_ushiftRight, decide_eq_true hi, Bool.true_and, Bool.true_and, getLsbD_field]
    rcases Nat.lt_or_ge i bits with hlt | hge
    · rw [getLsbD_shiftLeft_top hfit word hlt, decide_eq_true hlt, Bool.true_and]
    · rw [getLsbD_of_ge _ _ (by omega), decide_eq_false (by omega), Bool.false_and]

end Reads

section Layouts

/-- What the functions promise for a field: the bits outside of it stay, the field becomes the
value or is moved by it, and it is read with its sign. -/
structure WritesField (w : PhysicalWidth) (offset bits : ℕ) : Prop where
  set : ∀ word value : BitVec w.N,
    AgreeOutside offset bits (setPartialBits w.N word offset bits value) word ∧
      field (setPartialBits w.N word offset bits value) offset bits = value.setWidth bits
  atomicSet : ∀ (failed : List (BitVec w.N)) (word value : BitVec w.N),
    AgreeOutside offset bits (atomicSetPartialBits w.N failed word offset bits value) word ∧
      field (atomicSetPartialBits w.N failed word offset bits value) offset bits =
        value.setWidth bits
  atomicAdd : ∀ (failed : List (BitVec w.N)) (word value : BitVec w.N),
    AgreeOutside offset bits (atomicAddPartialBits w.N failed word offset bits value).2 word ∧
      field (atomicAddPartialBits w.N failed word offset bits value).2 offset bits =
        field word offset bits + value.setWidth bits ∧
      (atomicAddPartialBits w.N failed word offset bits value).1 = word
  extract : ∀ (word : BitVec w.N) (isSigned : Bool) (computeBits : ℕ),
    extractQuantInt w.N word offset bits isSigned computeBits =
      readAs isSigned computeBits (field word offset bits)

theorem PhysicalWidth.N_le (w : PhysicalWidth) : w.N ≤ 64 := by
  cases w <;> decide

variable {w : PhysicalWidth} {offset bits : ℕ}

theorem partialMask_iff (hbits : 1 ≤ bits) (hfit : offset + bits ≤ w.N)
    (h : 32 ≤ w.N ∨ offset + bits = w.N) {i : ℕ} (hi : i < w.N) :
    (partialMask w.N offset bits).getLsbD i = true ↔ InField offset bits i := by
  rw [getLsbD_partialMask hbits hfit hi, ← Bool.decide_or, ← Bool.decide_and, decide_eq_true_iff,
    InField]
  omega

theorem takes_field (hbits : 1 ≤ bits) (hfit : offset + bits ≤ w.N)
    (h : 32 ≤ w.N ∨ offset + bits = w.N) {old new result : BitVec w.N}
    (hresult : ∀ i < w.N, result.getLsbD i =
      if (partialMask w.N offset bits).getLsbD i then new.getLsbD i else old.getLsbD i) :
    AgreeOutside offset bits result old ∧
      field result offset bits = field new offset bits := by
  constructor
  · intro i hout
    rcases Nat.lt_or_ge i w.N with hi | hi
    · rw [hresult i hi, if_neg ((partialMask_iff hbits hfit h hi).not.2 hout)]
    · rw [getLsbD_of_ge _ _ hi, getLsbD_of_ge _ _ hi]
  · apply eq_of_getLsbD_eq
    intro i hi
    have hin : InField offset bits (offset + i) := ⟨Nat.le_add_right _ _, by omega⟩
    have hlt : offset + i < w.N := by omega
    rw [getLsbD_field, getLsbD_field, hresult _ hlt,
      if_pos ((partialMask_iff hbits hfit h hlt).2 hin)]

theorem field_shiftLeft (hfit : offset + bits ≤ w.N) (value : BitVec w.N) :
    field (value <<< offset) offset bits = value.setWidth bits := by
  have hadd := field_add_shiftLeft hfit 0 value
  have hzero : field (0 : BitVec w.N) offset bits = 0 := by
    have hword : ∀ i, (0 : BitVec w.N).getLsbD i = false := fun i => getLsbD_zero
    apply eq_of_getLsbD_eq
    intro i _
    rw [getLsbD_field, hword, Bool.and_false]
    exact getLsbD_zero.symm
  rwa [zero_add, hzero, zero_add] at hadd

theorem writesField_of_mask (hbits : 1 ≤ bits) (hfit : offset + bits ≤ w.N)
    (h : 32 ≤ w.N ∨ offset + bits = w.N) : WritesField w offset bits := by
  have hset : ∀ word value : BitVec w.N,
      AgreeOutside offset bits (setPartialBits w.N word offset bits value) word ∧
        field (setPartialBits w.N word offset bits value) offset bits = value.setWidth bits := by
    intro word value
    rw [← field_shiftLeft hfit value]
    exact takes_field hbits hfit h fun i hi => getLsbD_setPartialBits w.N_le hi word value
  constructor
  case set => exact hset
  case atomicSet =>
      intro failed word value
      rw [atomicSetPartialBits_eq]
      exact hset word value
  case atomicAdd =>
      intro failed word value
      have htakes := takes_field hbits hfit h fun i hi =>
        getLsbD_atomicAddPartialBits failed hi word value
      rw [field_add_shiftLeft hfit] at htakes
      exact ⟨htakes.1, htakes.2, atomicAddPartialBits_fst failed word value⟩
  case extract => exact extractQuantInt_eq hbits hfit

/-- A store to a field, or an atomic addition with the words at which its exchange fails. -/
structure FieldOp (w : PhysicalWidth) where
  offset : ℕ
  bits : ℕ
  value : BitVec 64
  addition : Option (List (BitVec w.N) × Bool)

def FieldOp.exec (word : BitVec w.N) (op : FieldOp w) : BitVec w.N :=
  match op.addition with
  | none => storeQuantInt w.N word op.offset op.bits op.value
  | some (failed, isSigned) =>
    (atomicAddQuantInt w.N failed word op.offset op.bits op.value isSigned).2

/-- On a number that has the bits of the field to itself. -/
def FieldOp.update (number : BitVec bits) (op : FieldOp w) : BitVec bits :=
  match op.addition with
  | none => (op.value.setWidth w.N).setWidth bits
  | some (_, isSigned) =>
    number + (if isSigned then op.value.signExtend w.N else op.value.setWidth w.N).setWidth bits

theorem FieldOp.exec_spec {op : FieldOp w} (h : WritesField w op.offset op.bits)
    (word : BitVec w.N) : AgreeOutside op.offset op.bits (op.exec word) word ∧
      field (op.exec word) op.offset op.bits = op.update (field word op.offset op.bits) := by
  rw [exec, update]
  split
  · exact h.set word _
  · next failed isSigned _ =>
      exact ⟨(h.atomicAdd failed word _).1, (h.atomicAdd failed word _).2.1⟩

/-- After any stores and additions to fields of a word that are the same or apart, each field reads
as a number of its own would. -/
theorem extract_foldl_exec (hw : 32 ≤ w.N) (hbits : 1 ≤ bits) (hfit : offset + bits ≤ w.N)
    {ops : List (FieldOp w)} (hops : ∀ op ∈ ops, 1 ≤ op.bits ∧ op.offset + op.bits ≤ w.N ∧
      (op.offset = offset ∧ op.bits = bits ∨ op.offset + op.bits ≤ offset ∨
        offset + bits ≤ op.offset)) (word : BitVec w.N) (isSigned : Bool) (computeBits : ℕ) :
    extractQuantInt w.N (ops.foldl FieldOp.exec word) offset bits isSigned computeBits =
      readAs isSigned computeBits (ops.foldl (fun number op =>
        if op.offset = offset ∧ op.bits = bits then op.update number else number)
          (field word offset bits)) := by
  rw [extractQuantInt_eq hbits hfit]
  congr 1
  induction ops generalizing word with
  | nil => rfl
  | cons op ops ih =>
    obtain ⟨⟨hpos, hle, hapart⟩, hops⟩ := List.forall_mem_cons.1 hops
    have hexec := FieldOp.exec_spec (writesField_of_mask hpos hle (.inl hw)) word
    rw [List.foldl_cons, List.foldl_cons, ih hops]
    congr 1
    split
    · next hsame =>
        obtain ⟨rfl, rfl⟩ := hsame
        exact hexec.2
    · next hother =>
        apply eq_of_getLsbD_eq
        intro i hi
        rw [getLsbD_field, getLsbD_field, hexec.1 (offset + i) fun hin => ?_]
        obtain ⟨hlow, hhigh⟩ := hin
        omega

theorem extract_foldl_exec_two : extractQuantInt 32 ([⟨0, 5, 9, none⟩, ⟨5, 3, 7, some ([], true)⟩,
    ⟨0, 5, 30, some ([3], true)⟩].foldl (@FieldOp.exec .b32) 0) 0 5 true 32 = 7 :=
  extract_foldl_exec (w := .b32) (by decide) (by decide) (by decide) (by decide) 0 true 32

theorem not_writesField (hbits : 1 ≤ bits) (hlt : offset + bits < w.N) (hnarrow : w.N < 32) :
    ¬WritesField w offset bits := by
  intro h
  have hbit := (h.set 0 (BitVec.twoPow w.N bits)).1 (offset + bits) fun hin => by
    have hend := hin.2
    omega
  have hback : offset + bits - offset = bits := by omega
  rw [getLsbD_setPartialBits w.N_le hlt, getLsbD_partialMask hbits hlt.le hlt,
    decide_eq_true (Nat.le_add_right _ _), decide_eq_true hnarrow, Bool.true_or, Bool.true_and,
    getLsbD_shiftLeft, hback, getLsbD_twoPow] at hbit
  have hfalse : (0 : BitVec w.N).getLsbD (offset + bits) = false := getLsbD_zero
  rw [hfalse, decide_eq_true hlt, decide_eq_true (by omega : bits < w.N), decide_eq_true rfl,
    decide_eq_false (by omega)] at hbit
  exact absurd hbit (by decide)

/-- The functions write a field exactly where the mask is not computed in `int`, or the field ends
the word. -/
theorem writesField_iff (w : PhysicalWidth) {offset bits : ℕ} (hbits : 1 ≤ bits)
    (hfit : offset + bits ≤ w.N) : WritesField w offset bits ↔ 32 ≤ w.N ∨ offset + bits = w.N := by
  constructor
  · intro h
    by_contra hnot
    exact not_writesField hbits (by omega) (by omega) h
  · exact writesField_of_mask hbits hfit

theorem writesField_iff_word : 1 ≤ 5 ∧ 3 + 5 ≤ PhysicalWidth.N .b32 ∧
    (WritesField .b32 3 5 ↔ 32 ≤ PhysicalWidth.N .b32 ∨ 3 + 5 = PhysicalWidth.N .b32) :=
  ⟨by decide, by decide, writesField_iff .b32 (by decide) (by decide)⟩

theorem not_writesField_byte : ¬WritesField .b8 0 4 :=
  not_writesField (by decide) (by decide) (by decide)

end Layouts

end Quadrants.Quant
