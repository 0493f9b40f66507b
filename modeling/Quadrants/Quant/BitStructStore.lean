import Quadrants.Quant.PartialBits

/-!
Stores of members of a bit struct and their reads, as `codegen_llvm_quant.cpp` generates them. A
value of the program is its bit pattern; the conversions of fixed-point numbers are floating-point
arithmetic and stay parameters.
-/

namespace Quadrants.Quant

structure QuantInt where
  numBits : ℕ
  isSigned : Bool
  computeBits : ℕ

inductive MemberKind where
  | quantInt
  | quantFixed
  | quantFloat
  deriving DecidableEq, Repr

structure Member where
  kind : MemberKind
  qit : QuantInt
  bitOffset : ℕ
  exponent : Option ℕ
  exponentUsers : List ℕ

def Member.numBits (m : Member) : ℕ :=
  m.qit.numBits

def Member.digitBits (m : Member) : ℕ :=
  m.qit.numBits - m.qit.isSigned.toNat

structure BitStruct where
  physicalType : PhysicalWidth
  numMembers : ℕ
  member : ℕ → Member
  one_le_numBits : ∀ i < numMembers, 1 ≤ (member i).numBits
  inOrder : ∀ j < numMembers, ∀ i < j,
    (member i).bitOffset + (member i).numBits ≤ (member j).bitOffset
  fits : ∀ i < numMembers, (member i).bitOffset + (member i).numBits ≤ physicalType.N
  mem_users_of_exponent : ∀ u < numMembers, ∀ e ∈ (member u).exponent,
    u ∈ (member e).exponentUsers
  exponent_of_mem : ∀ e < numMembers, ∀ u ∈ (member e).exponentUsers,
    u < numMembers ∧ (member u).exponent = some e
  users_nodup : ∀ e < numMembers, (member e).exponentUsers.Nodup
  exponent_iff : ∀ u < numMembers, (member u).kind = .quantFloat ↔ ((member u).exponent).isSome
  -- exponents are unsigned
  exponent_type : ∀ u < numMembers, ∀ e ∈ (member u).exponent,
    e < numMembers ∧ (member e).kind = .quantInt ∧ (member e).numBits ≤ 8
  digits_le : ∀ u < numMembers, (member u).kind = .quantFloat → (member u).digitBits ≤ 23

structure FixedPoint where
  toQuantFixed : ℕ → BitVec 64 → BitVec 64
  reconstructQuantFixed : ℕ → BitVec 64 → BitVec 64

namespace BitStruct

variable (L : BitStruct)

def N : ℕ :=
  L.physicalType.N

def ownsSharedExponent (i : ℕ) : Bool :=
  match (L.member i).exponent with
  | none => false
  | some e => decide (1 < (L.member e).exponentUsers.length)

end BitStruct

section Floats

def maxU32 (a b : BitVec 32) : BitVec 32 :=
  if b < a then a else b

def minU32 (a b : BitVec 32) : BitVec 32 :=
  if a < b then a else b

def maxI32 (a b : BitVec 32) : BitVec 32 :=
  if b.slt a then a else b

def exponentConversionOffset (bits : ℕ) : BitVec 32 :=
  127 - (1#32 <<< (bits - 1)) + 1

def getExponentOffset (exponent : BitVec 32) (bits : ℕ) : BitVec 32 :=
  if exponent ≠ 0 then exponentConversionOffset bits else 0

def extractExponentFromF32 (f : BitVec 32) : BitVec 32 :=
  (f >>> 23) &&& 0xFF

def extractDigitsFromF32 (f : BitVec 32) (full : Bool) : BitVec 32 :=
  let digits := f &&& (1#32 <<< 23 - 1#32)
  if full then digits ||| (1#32 <<< 23) else digits

def extractDigitsFromF32WithSharedExponent (f sharedExp : BitVec 32) : BitVec 32 :=
  let exp := extractExponentFromF32 f
  let expOffset := sharedExp - exp
  let implicitBit : BitVec 32 := (if exp ≠ 0 then 1 else 0) <<< 23
  let digits := extractDigitsFromF32 f true ||| implicitBit
  digits >>> (minU32 expOffset 31).toNat

variable (digits : Member) (exponentBits : ℕ)

def f32ToQuantFloat (f32 : BitVec 32) : BitVec 32 × BitVec 32 :=
  let f32Bits := if digits.digitBits < 23 then f32 + 1#32 <<< (22 - digits.digitBits) else f32
  let exponent := (f32Bits.sshiftRight 23) &&& 0xFF
  let valueBits := f32Bits.sshiftRight (23 - digits.digitBits)
  let digitBits := valueBits &&& (1#32 <<< digits.digitBits - 1#32)
  let digitBits :=
    if digits.qit.isSigned then
      digitBits ||| ((f32Bits &&& 0x80000000#32) >>> (31 - digits.digitBits))
    else digitBits
  let exponent := maxI32 (exponent - getExponentOffset exponent exponentBits) 0
  -- zero where the exponent is
  (exponent, if exponent ≠ 0 then digitBits else 0)

def digitsToStore (f maxExpBits : BitVec 32) : BitVec 32 :=
  let rightShiftBits := 24 - digits.digitBits
  let rounded := extractDigitsFromF32WithSharedExponent f maxExpBits + 1#32 <<< (rightShiftBits - 1)
  let compressed := minU32 rounded (1#32 <<< 24 - 1#32) >>> rightShiftBits
  if digits.qit.isSigned then
    compressed ||| ((f &&& 1#32 <<< 31) >>> (31 - digits.digitBits))
  else compressed

def reconstructQuantFloat (sharedExponent : Bool) (inputDigits inputExponentVal : BitVec 32) :
    BitVec 32 :=
  let digitBits := digits.digitBits
  let exponentOffset :=
    if exponentBits < 8 then
      if inputExponentVal ≠ 0 then exponentConversionOffset exponentBits else 0
    else exponentConversionOffset exponentBits
  let d := inputDigits &&& (1#32 <<< digits.numBits - 1#32)
  if sharedExponent then
    let signBit := if digits.qit.isSigned then d &&& 1#32 <<< digitBits else 0
    let d := if digits.qit.isSigned then (d ^^^ signBit) <<< 1 else d
    let extraShift := BitVec.ofNat 32 (31 - digitBits) - d.clz
    let exponentOffset := exponentOffset + extraShift
    let exponentOffset := if digits.qit.isSigned then exponentOffset else exponentOffset + 1
    let digitsShift := BitVec.ofNat 32 (23 - digitBits) - extraShift
    let fractionBits := d <<< digitsShift.toNat &&& (1#32 <<< 23 - 1#32)
    let f32Bits := (inputExponentVal + exponentOffset) <<< 23 ||| fractionBits
    let f32Bits := if inputExponentVal = 0 ∨ inputDigits = 0 then 0 else f32Bits
    f32Bits ||| signBit <<< (31 - digitBits)
  else
    let d := d <<< (23 - digitBits)
    let f32Bits := (inputExponentVal + exponentOffset) <<< 23 ||| (d &&& (1#32 <<< 23 - 1#32))
    if digits.qit.isSigned then f32Bits ||| (d &&& 1#32 <<< 23) <<< (31 - 23) else f32Bits

end Floats

section Reads

variable (L : BitStruct) (fp : FixedPoint) (physicalValue : BitVec L.N)

def extractMember (i computeBits : ℕ) : BitVec computeBits :=
  extractQuantInt L.N physicalValue (L.member i).bitOffset (L.member i).numBits
    (L.member i).qit.isSigned computeBits

def extractQuantFloat (digitsId exponentId : ℕ) : BitVec 32 :=
  reconstructQuantFloat (L.member digitsId) (L.member exponentId).numBits
    (L.ownsSharedExponent digitsId) (extractMember L physicalValue digitsId 32)
    (extractMember L physicalValue exponentId 32)

def decode (i : ℕ) : BitVec 64 :=
  match (L.member i).kind, (L.member i).exponent with
  | .quantFloat, some e => (extractQuantFloat L physicalValue i e).setWidth 64
  | .quantFixed, _ => fp.reconstructQuantFixed i
      ((extractMember L physicalValue i (L.member i).qit.computeBits).setWidth 64)
  | _, _ => (extractMember L physicalValue i (L.member i).qit.computeBits).setWidth 64

end Reads

/-- `BitStructStoreStmt`: the members, none of them an exponent, and their values -/
structure BitStructStore (L : BitStruct) where
  stores : List (ℕ × BitVec 64)
  nonempty : stores ≠ []
  nodup : (stores.map (·.1)).Nodup
  isMember : ∀ s ∈ stores, s.1 < L.numMembers ∧ (L.member s.1).exponentUsers = []

/-- `is_atomic`, `quant_opt_atomic_demotion`, and the words that failed compare-exchanges read -/
structure StoreFlags (N : ℕ) where
  isAtomic : Bool
  quantOptAtomicDemotion : Bool
  failed : List (BitVec N)
  failedShared : List (BitVec N)

section Stores

variable (L : BitStruct) (fp : FixedPoint)

abbrev Pieces (L : BitStruct) : Type :=
  List (ℕ × BitVec L.N)

def quantIntOrQuantFixedToBits (ch : ℕ) (val : BitVec 64) : BitVec L.N :=
  let qit := (L.member ch).qit
  let val := (if (L.member ch).kind = .quantFixed then fp.toQuantFixed ch val else val).setWidth
    qit.computeBits
  let val :=
    if qit.numBits < qit.computeBits then
      val &&& BitVec.ofNat qit.computeBits (1 <<< qit.numBits - 1)
    else val
  val.setWidth L.N

def bitStructVal (pieces : Pieces L) : BitVec L.N :=
  pieces.foldl (fun bits (piece : ℕ × BitVec L.N) =>
    bits ||| piece.2 <<< (L.member piece.1).bitOffset) 0

def updateMask (mask : BitVec 64) (numBits offset : ℕ) : Option (BitVec 64) :=
  let newMask := (~~~(0 : BitVec 64) <<< (64 - numBits)) >>> (64 - offset - numBits)
  if mask &&& newMask = 0 then some (mask ||| newMask) else none

def storeMask (pieces : Pieces L) : Option (BitVec 64) :=
  pieces.foldlM (fun mask piece =>
    updateMask mask (L.member piece.1).numBits (L.member piece.1).bitOffset) 0

def storeMasked (isAtomic demotion : Bool) (failed : List (BitVec L.N)) (word : BitVec L.N)
    (mask : BitVec 64) (value : BitVec L.N) : BitVec L.N :=
  let fullMask := ~~~(0 : BitVec 64) >>> (64 - L.N)
  if mask = 0 then word
  else if (!isAtomic || demotion) ∧ mask &&& fullMask = fullMask then value
  else if isAtomic then atomicSetMask L.N failed word mask value
  else setMask L.N word mask value

def memberPieces (s : ℕ × BitVec 64) : Pieces L :=
  match (L.member s.1).kind, (L.member s.1).exponent with
  | .quantFloat, some e =>
    let stored := f32ToQuantFloat (L.member s.1) (L.member e).numBits (s.2.setWidth 32)
    [(e, stored.1.setWidth L.N), (s.1, stored.2.setWidth L.N)]
  | _, _ => [(s.1, quantIntOrQuantFixedToBits L fp s.1 s.2)]

variable (stores : List (ℕ × BitVec 64))

def bitStructPieces : Pieces L :=
  stores.flatMap fun s => if L.ownsSharedExponent s.1 then [] else memberPieces L fp s

def sharedFloat (physicalValue : BitVec L.N) (exponentId user : ℕ) : BitVec 32 :=
  match stores.find? (·.1 = user) with
  | some s => s.2.setWidth 32
  | none => extractQuantFloat L physicalValue user exponentId

def groupPieces (physicalValue : BitVec L.N) (i : ℕ) : Pieces L :=
  let users := (L.member i).exponentUsers
  let floats := users.map (sharedFloat L stores physicalValue i)
  let maxExpBits := (floats.map extractExponentFromF32).foldl maxU32 0
  let maxExpBitsToStore :=
    maxI32 (maxExpBits - getExponentOffset maxExpBits (L.member i).numBits) 0
  (i, maxExpBitsToStore.setWidth L.N) :: users.map fun user =>
    (user, (digitsToStore (L.member user) (sharedFloat L stores physicalValue i user)
      maxExpBits).setWidth L.N)

def sharedPieces (physicalValue : BitVec L.N) : Pieces L :=
  (List.range L.numMembers).flatMap fun i =>
    if (L.member i).exponentUsers.length < 2 then [] else groupPieces L stores physicalValue i

def storeQuantFloatsWithSharedExponents (isAtomic : Bool) (flags : StoreFlags L.N)
    (word : BitVec L.N) : Option (BitVec L.N) := do
  let pieces := sharedPieces L stores word
  let mask ← storeMask L pieces
  pure (storeMasked L isAtomic flags.quantOptAtomicDemotion flags.failedShared word mask
    (bitStructVal L pieces))

def numNonExponentChildren : ℕ :=
  ((List.range L.numMembers).filter fun i => (L.member i).exponentUsers.isEmpty).length

def visitBitStructStore (stmt : BitStructStore L) (flags : StoreFlags L.N) (word : BitVec L.N) :
    Option (BitVec L.N) := do
  let storeAllComponents := flags.quantOptAtomicDemotion &&
    decide (stmt.stores.length = numNonExponentChildren L)
  let isAtomic := flags.isAtomic && !storeAllComponents
  let hasSharedExponent := stmt.stores.any fun s => L.ownsSharedExponent s.1
  let floatsStored :=
    if hasSharedExponent then
      storeQuantFloatsWithSharedExponents L stmt.stores isAtomic flags word
    else some word
  let word ← floatsStored
  let pieces := bitStructPieces L fp stmt.stores
  if storeAllComponents && !hasSharedExponent then pure (bitStructVal L pieces)
  else
    let mask ← storeMask L pieces
    pure (storeMasked L isAtomic flags.quantOptAtomicDemotion flags.failed word mask
      (bitStructVal L pieces))

end Stores

end Quadrants.Quant
