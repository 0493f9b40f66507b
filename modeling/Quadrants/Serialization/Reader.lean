import Quadrants.Library.LittleEndian

/-!
The types that the binary serializer takes, their values, and what is written for a value.
-/

namespace Quadrants.Serialization

open Library.LittleEndian

/-- A struct with `io` is the chain of its fields. An enum is a scalar of its underlying type. -/
inductive Ty where
  | scalar (size : ℕ)
  | string
  | array (length : ℕ) (elem : Ty)
  | vector (elem : Ty)
  | pair (first second : Ty)
  | map (key value : Ty)
  | unorderedMap (key value : Ty)
  | optional (elem : Ty)
  | uniquePtr (elem : Ty)
  | noField
  | field (first rest : Ty)
  deriving DecidableEq, Repr

namespace Ty

/-- Scalars are their bytes, maps the entries in the order of iteration, pointers the address with
what it points to. An array without elements is one whose elements were destroyed. -/
@[reducible]
def Val : Ty → Type
  | scalar _ => List UInt8
  | string => List UInt8
  | array _ elem => Option (List elem.Val)
  | vector elem => List elem.Val
  | pair first second => first.Val × second.Val
  | map key value => List (key.Val × value.Val)
  | unorderedMap key value => List (key.Val × value.Val)
  | optional elem => Option elem.Val
  | uniquePtr elem => Option (ℕ × elem.Val)
  | noField => Unit
  | field first rest => first.Val × rest.Val

def decEq : (t : Ty) → DecidableEq t.Val
  | scalar _ => inferInstanceAs (DecidableEq (List UInt8))
  | string => inferInstanceAs (DecidableEq (List UInt8))
  | array _ elem => have := elem.decEq; inferInstanceAs (DecidableEq (Option (List elem.Val)))
  | vector elem => have := elem.decEq; inferInstanceAs (DecidableEq (List elem.Val))
  | pair first second =>
    have := first.decEq; have := second.decEq
    inferInstanceAs (DecidableEq (first.Val × second.Val))
  | map key value =>
    have := key.decEq; have := value.decEq
    inferInstanceAs (DecidableEq (List (key.Val × value.Val)))
  | unorderedMap key value =>
    have := key.decEq; have := value.decEq
    inferInstanceAs (DecidableEq (List (key.Val × value.Val)))
  | optional elem => have := elem.decEq; inferInstanceAs (DecidableEq (Option elem.Val))
  | uniquePtr elem => have := elem.decEq; inferInstanceAs (DecidableEq (Option (ℕ × elem.Val)))
  | noField => inferInstanceAs (DecidableEq Unit)
  | field first rest =>
    have := first.decEq; have := rest.decEq
    inferInstanceAs (DecidableEq (first.Val × rest.Val))

instance (t : Ty) : DecidableEq t.Val :=
  t.decEq

def isTrivial : Ty → Bool
  | scalar _ | noField => true
  | array _ elem | optional elem => elem.isTrivial
  | pair first second | field first second => first.isTrivial && second.isTrivial
  | string | vector _ | map _ _ | unorderedMap _ _ | uniquePtr _ => false

def isPlain : Ty → Bool
  | scalar _ | string | noField => true
  | array _ elem => elem.isTrivial && elem.isPlain
  | vector elem | optional elem => elem.isPlain
  | pair first second | field first second | map first second | unorderedMap first second =>
    first.isPlain && second.isPlain
  | uniquePtr _ => false

def hasUnordered : Ty → Bool
  | unorderedMap _ _ => true
  | scalar _ | string | noField => false
  | array _ elem | vector elem | optional elem | uniquePtr elem => elem.hasUnordered
  | pair first second | field first second | map first second =>
    first.hasUnordered || second.hasUnordered

def isLegal : Ty → Bool
  | scalar _ | string | noField => true
  | array _ elem | vector elem | optional elem | uniquePtr elem => elem.isLegal
  | pair first second | field first second => first.isLegal && second.isLegal
  | map key value | unorderedMap key value =>
    key.isPlain && !key.hasUnordered && key.isLegal && value.isLegal

end Ty

/-- The standard library: what a default constructor gives, the order of the keys of a map, and the
address of a new object. -/
structure Env where
  make : (t : Ty) → t.Val
  less : (t : Ty) → t.Val → t.Val → Bool
  address : ℕ

/-- `std::map` asks for a strict order of its keys, in which only equal keys are equivalent. -/
structure Env.Orders (env : Env) (key : Ty) : Prop where
  irrefl : ∀ a, env.less key a a = false
  trans : ∀ a b c, env.less key a b = true → env.less key b c = true → env.less key a c = true
  total : ∀ a b, env.less key a b = false → env.less key b a = false → a = b

def Env.OrdersKeys (env : Env) : Ty → Prop
  | .scalar _ | .string | .noField => True
  | .array _ elem | .vector elem | .optional elem | .uniquePtr elem => env.OrdersKeys elem
  | .pair first second | .field first second | .unorderedMap first second =>
    env.OrdersKeys first ∧ env.OrdersKeys second
  | .map key value => env.Orders key ∧ env.OrdersKeys key ∧ env.OrdersKeys value

section Containers

variable {α β : Type}

def Fits (n : ℕ) : Prop :=
  n < 256 ^ 8

def SizedOk (ok : α → Prop) (items : List α) : Prop :=
  Fits items.length ∧ ∀ item ∈ items, ok item

def ArrayOk (ok : α → Prop) (length : ℕ) (items : Option (List α)) : Prop :=
  ∃ l, items = some l ∧ l.length = length ∧ ∀ item ∈ l, ok item

def PairOk (ok : α → Prop) (ok' : β → Prop) (v : α × β) : Prop :=
  ok v.1 ∧ ok' v.2

def Ascending (less : α → α → Bool) (entries : List (α × β)) : Prop :=
  entries.Pairwise fun a b => less a.1 b.1 = true

def DistinctKeys (entries : List (α × β)) : Prop :=
  (entries.map Prod.fst).Nodup

def OptionalOk (ok : α → Prop) (content : Option α) : Prop :=
  ∀ v, content = some v → ok v

def PointerOk (ok : α → Prop) (content : Option (ℕ × α)) : Prop :=
  ∀ address v, content = some (address, v) → 0 < address ∧ Fits address ∧ ok v

def writeSized (f : α → List UInt8) (items : List α) : List UInt8 :=
  toBytes 8 items.length ++ items.flatMap f

def writePair (f : α → List UInt8) (g : β → List UInt8) (v : α × β) : List UInt8 :=
  f v.1 ++ g v.2

def writeOptional (f : α → List UInt8) : Option α → List UInt8
  | none => toBytes 1 0
  | some v => toBytes 1 1 ++ f v

def writePointer (f : α → List UInt8) : Option (ℕ × α) → List UInt8
  | none => toBytes 8 0
  | some (address, v) => toBytes 8 address ++ f v

end Containers

def Ok (env : Env) : (t : Ty) → t.Val → Prop
  | .scalar size, bytes => List.length bytes = size
  | .string, chars => SizedOk (fun _ => True) chars
  | .array length elem, items => ArrayOk (Ok env elem) length items
  | .vector elem, items => SizedOk (Ok env elem) items
  | .pair first second, v => PairOk (Ok env first) (Ok env second) v
  | .map key value, entries =>
    SizedOk (PairOk (Ok env key) (Ok env value)) entries ∧ Ascending (env.less key) entries
  | .unorderedMap key value, entries =>
    SizedOk (PairOk (Ok env key) (Ok env value)) entries ∧ DistinctKeys entries
  | .optional elem, content => OptionalOk (Ok env elem) content
  | .uniquePtr elem, content => PointerOk (Ok env elem) content
  | .noField, _ => True
  | .field first rest, v => PairOk (Ok env first) (Ok env rest) v

def write : (t : Ty) → t.Val → List UInt8
  | .scalar _, bytes => bytes
  | .string, chars => writeSized (fun char => [char]) chars
  | .array _ elem, items => (Option.getD items []).flatMap (write elem)
  | .vector elem, items => writeSized (write elem) items
  | .pair first second, v => writePair (write first) (write second) v
  | .map key value, entries => writeSized (writePair (write key) (write value)) entries
  | .unorderedMap key value, entries => writeSized (writePair (write key) (write value)) entries
  | .optional elem, content => writeOptional (write elem) content
  | .uniquePtr elem, content => writePointer (write elem) content
  | .noField, _ => []
  | .field first rest, v => writePair (write first) (write rest) v

def writeToBinary (t : Ty) (v : t.Val) : List UInt8 :=
  toBytes 8 (8 + (write t v).length) ++ write t v

end Quadrants.Serialization

/-!
What is read back, into a new object or into one that has a value already.
-/

namespace Quadrants.Serialization

open Library.LittleEndian

structure Reader where
  head : ℕ
  reads : List (ℕ × ℕ)
  deriving DecidableEq, Repr

section Parts

variable (mem : ℕ → UInt8) {α β : Type}

def Reader.copy (r : Reader) (n : ℕ) : List UInt8 × Reader :=
  (slice mem r.head n, ⟨r.head + n, r.reads ++ [(r.head, n)]⟩)

def Reader.size (r : Reader) : ℕ × Reader :=
  (ofBytes (r.copy mem 8).1, (r.copy mem 8).2)

def readEach (f : α → Reader → α × Reader) : List α → Reader → List α × Reader
  | [], r => ([], r)
  | target :: targets, r =>
    ((f target r).1 :: (readEach f targets (f target r).2).1, (readEach f targets (f target r).2).2)

def resize (make : α) (targets : List α) (n : ℕ) : List α :=
  targets.take n ++ List.replicate (n - targets.length) make

def readSized (f : α → Reader → α × Reader) (make : α) (targets : List α) (r : Reader) :
    List α × Reader :=
  readEach f (resize make targets (r.size mem).1) (r.size mem).2

def readChar (r : Reader) : UInt8 × Reader :=
  (mem r.head, (r.copy mem 1).2)

def readArray (f : α → Reader → α × Reader) (make : α) (isTrivial : Bool) (length : ℕ)
    (r : Reader) : Option (List α) × Reader :=
  (if isTrivial then some (readEach f (List.replicate length make) r).1 else none,
    (readEach f (List.replicate length make) r).2)

def readPair (f : α → Reader → α × Reader) (g : β → Reader → β × Reader) (target : α × β)
    (r : Reader) : (α × β) × Reader :=
  (((f target.1 r).1, (g target.2 (f target.1 r).2).1), (g target.2 (f target.1 r).2).2)

def insertOrdered (less : α → α → Bool) (entry : α × β) : List (α × β) → List (α × β)
  | [] => [entry]
  | other :: entries =>
    if less entry.1 other.1 then entry :: other :: entries
    else if less other.1 entry.1 then other :: insertOrdered less entry entries
    else other :: entries

def insertHashed [DecidableEq α] (entry : α × β) (entries : List (α × β)) : List (α × β) :=
  if entry.1 ∈ entries.map Prod.fst then entries else entries ++ [entry]

def readMap (insert : α → List α → List α) (f : α → Reader → α × Reader) (make : α) (r : Reader) :
    List α × Reader :=
  ((readEach f (List.replicate (r.size mem).1 make) (r.size mem).2).1.foldl
      (fun entries entry => insert entry entries) [],
    (readEach f (List.replicate (r.size mem).1 make) (r.size mem).2).2)

def readOptional (f : α → Reader → α × Reader) (make : α) (r : Reader) : Option α × Reader :=
  if ofBytes (r.copy mem 1).1 = 0 then (none, (r.copy mem 1).2)
  else (some (f make (r.copy mem 1).2).1, (f make (r.copy mem 1).2).2)

def readPointer (f : α → Reader → α × Reader) (make : α) (address : ℕ)
    (target : Option (ℕ × α)) (r : Reader) : Option (ℕ × α) × Reader :=
  if (r.size mem).1 = 0 then (target, (r.size mem).2)
  else (some (address, (f make (r.size mem).2).1), (f make (r.size mem).2).2)

end Parts

def read (env : Env) (mem : ℕ → UInt8) : (t : Ty) → t.Val → Reader → t.Val × Reader
  | .scalar size, _, r => r.copy mem size
  | .string, _, r => readSized mem (fun _ => readChar mem) 0 [] r
  | .array length elem, _, r =>
    readArray (read env mem elem) (env.make elem) elem.isTrivial length r
  | .vector elem, targets, r => readSized mem (read env mem elem) (env.make elem) targets r
  | .pair first second, target, r => readPair (read env mem first) (read env mem second) target r
  | .map key value, _, r =>
    readMap mem (insertOrdered (env.less key)) (readPair (read env mem key) (read env mem value))
      (env.make key, env.make value) r
  | .unorderedMap key value, _, r =>
    readMap mem insertHashed (readPair (read env mem key) (read env mem value))
      (env.make key, env.make value) r
  | .optional elem, _, r => readOptional mem (read env mem elem) (env.make elem) r
  | .uniquePtr elem, target, r =>
    readPointer mem (read env mem elem) (env.make elem) env.address target r
  | .noField, _, r => ((), r)
  | .field first rest, target, r => readPair (read env mem first) (read env mem rest) target r

structure Outcome (α : Type) where
  success : Bool
  value : α
  reads : List (ℕ × ℕ)

def memory (bytes : List UInt8) (outside : ℕ → UInt8) : ℕ → UInt8 :=
  fun i => bytes.getD i (outside i)

def readFromBinary (env : Env) (outside : ℕ → UInt8) (t : Ty) (target : t.Val)
    (bytes : List UInt8) (matchAll : Bool) : Outcome t.Val :=
  let mem := memory bytes outside
  let length := Reader.size mem ⟨0, []⟩
  if bytes.length ≠ length.1 then ⟨false, target, length.2.reads⟩
  else
    let result := read env mem t target ⟨8, length.2.reads⟩
    ⟨if matchAll then result.2.head = bytes.length else result.2.head ≤ bytes.length, result.1,
      result.2.reads⟩

end Quadrants.Serialization
