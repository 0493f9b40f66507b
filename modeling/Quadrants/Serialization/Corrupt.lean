import Mathlib.Data.List.Nodup
import Quadrants.Serialization.RoundTrip

/-!
When a target, new or used before, ends up with the value that was written.
-/

namespace Quadrants.Serialization

open Library.LittleEndian List

section Parts

variable {α β : Type}

def SameArray (same : α → α → Prop) (a b : Option (List α)) : Prop :=
  ∃ items items', a = some items ∧ b = some items' ∧ List.Forall₂ same items items'

def SamePair (same : α → α → Prop) (same' : β → β → Prop) (a b : α × β) : Prop :=
  same a.1 b.1 ∧ same' a.2 b.2

/-- `operator==` of unordered maps: as many entries, and each is found in the other. -/
def SameEntries (same : β → β → Prop) (a b : List (α × β)) : Prop :=
  a.length = b.length ∧ ∀ e ∈ a, ∃ e' ∈ b, e.1 = e'.1 ∧ same e.2 e'.2

def SameOptional (same : α → α → Prop) : Option α → Option α → Prop
  | none, none => True
  | some v, some v' => same v v'
  | _, _ => False

def SamePointer (same : α → α → Prop) : Option (ℕ × α) → Option (ℕ × α) → Prop
  | none, none => True
  | some (_, v), some (_, v') => same v v'
  | _, _ => False

def NullOnNull (compatible : α → Prop) (target : Option (ℕ × α)) : Option (ℕ × α) → Prop
  | none => target = none
  | some (_, v) => compatible v

end Parts

def Same : (t : Ty) → t.Val → t.Val → Prop
  | .scalar _, a, b => a = b
  | .string, a, b => a = b
  | .array _ elem, a, b => SameArray (Same elem) a b
  | .vector elem, a, b => List.Forall₂ (Same elem) a b
  | .pair first second, a, b => SamePair (Same first) (Same second) a b
  | .map key value, a, b => List.Forall₂ (SamePair (Same key) (Same value)) a b
  | .unorderedMap _ value, a, b => SameEntries (Same value) a b
  | .optional elem, a, b => SameOptional (Same elem) a b
  | .uniquePtr elem, a, b => SamePointer (Same elem) a b
  | .noField, _, _ => True
  | .field first rest, a, b => SamePair (Same first) (Same rest) a b

/-- Null pointers of the value meet null pointers only, in the target or in the objects that are
made for its parts, and the elements of arrays can be copied by their bytes. -/
def Compatible (env : Env) : (t : Ty) → t.Val → t.Val → Prop
  | .scalar _, _, _ => True
  | .string, _, _ => True
  | .array _ elem, _, items =>
    elem.isTrivial = true ∧ ∀ v ∈ Option.getD items [], Compatible env elem (env.make elem) v
  | .vector elem, targets, items =>
    List.Forall₂ (Compatible env elem) (resize (env.make elem) targets (List.length items)) items
  | .pair first second, target, v =>
    Compatible env first target.1 v.1 ∧ Compatible env second target.2 v.2
  | .map _ value, _, entries =>
    List.Forall (fun e => Compatible env value (env.make value) e.2) entries
  | .unorderedMap _ value, _, entries =>
    List.Forall (fun e => Compatible env value (env.make value) e.2) entries
  | .optional elem, _, content =>
    ∀ v, content = some v → Compatible env elem (env.make elem) v
  | .uniquePtr elem, target, content =>
    NullOnNull (Compatible env elem (env.make elem)) target content
  | .noField, _, _ => True
  | .field first rest, target, v =>
    Compatible env first target.1 v.1 ∧ Compatible env rest target.2 v.2

section Parts

variable {α β : Type}

theorem forall₂_zipWith {f : α → α → α} {same compatible : α → α → Prop} {items : List α} :
    ∀ {targets : List α}, targets.length = items.length →
    (∀ item ∈ items, ∀ target, same (f target item) item ↔ compatible target item) →
    (List.Forall₂ same (List.zipWith f targets items) items ↔
      List.Forall₂ compatible targets items) := by
  induction items with
  | nil =>
    intro targets hlength _
    rw [length_eq_zero_iff.1 hlength]
    simp
  | cons item items ih =>
    intro targets hlength h
    obtain ⟨target, targets, rfl⟩ := exists_cons_of_length_eq_add_one hlength
    rw [zipWith_cons_cons, forall₂_cons, forall₂_cons, h item (mem_cons_self ..),
      ih (Nat.succ.inj hlength) fun item' hmem => h item' (mem_cons_of_mem _ hmem)]

theorem forall₂_map {f : α → α} {same : α → α → Prop} {compatible : α → Prop} {items : List α}
    (h : ∀ item ∈ items, same (f item) item ↔ compatible item) :
    List.Forall₂ same (items.map f) items ↔ ∀ item ∈ items, compatible item := by
  induction items with
  | nil => simp
  | cons item items ih =>
    rw [map_cons, forall₂_cons, h item (mem_cons_self ..),
      ih fun item' hmem => h item' (mem_cons_of_mem _ hmem), forall_mem_cons]

theorem sameEntries_map {f : β → β} {same : β → β → Prop} {compatible : β → Prop}
    {entries : List (α × β)} (hkeys : DistinctKeys entries)
    (h : ∀ e ∈ entries, same (f e.2) e.2 ↔ compatible e.2) :
    SameEntries same (entries.map fun e => (e.1, f e.2)) entries ↔
      ∀ e ∈ entries, compatible e.2 := by
  constructor
  · rintro ⟨-, hfound⟩ e he
    obtain ⟨e', he', hkey, hsame⟩ := hfound (e.1, f e.2) (mem_map_of_mem he)
    have heq : e = e' := inj_on_of_nodup_map hkeys he he' hkey
    subst heq
    exact (h e he).1 hsame
  · intro hall
    refine ⟨length_map _, fun e he => ?_⟩
    obtain ⟨e', he', rfl⟩ := mem_map.1 he
    exact ⟨e', he', rfl, (h e' he').2 (hall e' he')⟩

end Parts

theorem forall₂_of_length {α : Type} {compatible : α → α → Prop} {items : List α}
    (h : ∀ item ∈ items, ∀ target, compatible target item) : ∀ {targets : List α},
    targets.length = items.length → List.Forall₂ compatible targets items := by
  induction items with
  | nil =>
    intro targets hlength
    rw [length_eq_zero_iff.1 hlength]
    exact .nil
  | cons item items ih =>
    intro targets hlength
    obtain ⟨target, targets, rfl⟩ := exists_cons_of_length_eq_add_one hlength
    exact .cons (h item (mem_cons_self ..) target)
      (ih (fun item' hmem => h item' (mem_cons_of_mem _ hmem)) (Nat.succ.inj hlength))

theorem compatible_of_isPlain (env : Env) : ∀ (t : Ty), t.isPlain = true → ∀ (v target : t.Val),
    Ok env t v → Compatible env t target v := by
  intro t
  induction t with
  | scalar size => exact fun _ v target _ => trivial
  | string => exact fun _ v target _ => trivial
  | noField => exact fun _ v target _ => trivial
  | uniquePtr elem => intro h; cases h
  | array length elem ih =>
    intro h v target hok
    obtain ⟨htrivial, hplain⟩ := Bool.and_eq_true_iff.1 h
    obtain ⟨items, rfl, -, hitems⟩ := hok
    exact ⟨htrivial, fun v hv => ih hplain v _ (hitems v hv)⟩
  | vector elem ih =>
    intro h v target hok
    exact forall₂_of_length (fun item hitem target => ih h item target (hok.2 item hitem))
      (length_resize _ _ _)
  | optional elem ih => exact fun h v target hok v' hv' => ih h v' _ (hok v' hv')
  | pair first second ihf ihs =>
    intro h v target hok
    obtain ⟨hfirst, hsecond⟩ := Bool.and_eq_true_iff.1 h
    exact ⟨ihf hfirst v.1 target.1 hok.1, ihs hsecond v.2 target.2 hok.2⟩
  | field first second ihf ihs =>
    intro h v target hok
    obtain ⟨hfirst, hsecond⟩ := Bool.and_eq_true_iff.1 h
    exact ⟨ihf hfirst v.1 target.1 hok.1, ihs hsecond v.2 target.2 hok.2⟩
  | map key value ihk ihv =>
    intro h v target hok
    exact forall_iff_forall_mem.2 fun e he =>
      ihv (Bool.and_eq_true_iff.1 h).2 e.2 _ (hok.1.2 e he).2
  | unorderedMap key value ihk ihv =>
    intro h v target hok
    exact forall_iff_forall_mem.2 fun e he =>
      ihv (Bool.and_eq_true_iff.1 h).2 e.2 _ (hok.1.2 e he).2

theorem same_restore_iff {env : Env} : ∀ (t : Ty), t.isLegal = true → ∀ (v target : t.Val),
    Ok env t v → (Same t (restore env t target v) v ↔ Compatible env t target v) := by
  intro t
  induction t with
  | scalar size => exact fun _ v target _ => iff_of_true rfl trivial
  | string => exact fun _ v target _ => iff_of_true rfl trivial
  | noField => exact fun _ v target _ => iff_of_true trivial trivial
  | array length elem ih =>
    intro hlegal v target hok
    obtain ⟨items, rfl, -, hitems⟩ := hok
    have hall := forall₂_map fun item hitem =>
      ih hlegal item (env.make elem) (hitems item hitem)
    change SameArray (Same elem)
      (if elem.isTrivial then some (items.map (restore env elem (env.make elem))) else none)
      (some items) ↔ elem.isTrivial = true ∧ ∀ v ∈ items, Compatible env elem (env.make elem) v
    rw [← hall]
    constructor
    · rintro ⟨restored, items', hrestored, hitems', hsame⟩
      cases hitems'
      by_cases htrivial : elem.isTrivial = true
      · rw [if_pos htrivial] at hrestored
        cases hrestored
        exact ⟨htrivial, hsame⟩
      · rw [if_neg htrivial] at hrestored
        cases hrestored
    · rintro ⟨htrivial, hsame⟩
      rw [if_pos htrivial]
      exact ⟨_, _, rfl, rfl, hsame⟩
  | vector elem ih =>
    intro hlegal v target hok
    exact forall₂_zipWith (length_resize _ _ _) fun item hitem target =>
      ih hlegal item target (hok.2 item hitem)
  | pair first second ihf ihs =>
    intro hlegal v target hok
    obtain ⟨hfirst, hsecond⟩ := Bool.and_eq_true_iff.1 hlegal
    exact and_congr (ihf hfirst v.1 target.1 hok.1) (ihs hsecond v.2 target.2 hok.2)
  | field first second ihf ihs =>
    intro hlegal v target hok
    obtain ⟨hfirst, hsecond⟩ := Bool.and_eq_true_iff.1 hlegal
    exact and_congr (ihf hfirst v.1 target.1 hok.1) (ihs hsecond v.2 target.2 hok.2)
  | optional elem ih =>
    intro hlegal v target hok
    match v with
    | none => exact iff_of_true trivial fun v hv => (nomatch hv)
    | some v =>
      refine (ih hlegal v (env.make elem) (hok v rfl)).trans ⟨fun h v' hv' => ?_, fun h => h v rfl⟩
      rwa [← Option.some.inj hv']
  | uniquePtr elem ih =>
    intro hlegal v target hok
    match v with
    | none =>
      match target with
      | none => exact iff_of_true trivial rfl
      | some _ => exact iff_of_false id fun h => (nomatch h)
    | some (old, v) => exact ih hlegal v (env.make elem) (hok old v rfl).2.2
  | map key value ihk ihv =>
    intro hlegal v target hok
    simp only [Ty.isLegal, Bool.and_eq_true] at hlegal
    refine (forall₂_map fun e he => ?_).trans forall_iff_forall_mem.symm
    obtain ⟨hek, hev⟩ := hok.1.2 e he
    have hkey := (ihk hlegal.1.2 e.1 (env.make key) hek).2
      (compatible_of_isPlain env key hlegal.1.1.1 e.1 _ hek)
    exact (and_iff_right hkey).trans (ihv hlegal.2 e.2 (env.make value) hev)
  | unorderedMap key value ihk ihv =>
    intro hlegal v target hok
    simp only [Ty.isLegal, Bool.and_eq_true] at hlegal
    change SameEntries (Same value) (List.map (fun e => (restore env key (env.make key) e.1,
      restore env value (env.make value) e.2)) v) v ↔ List.Forall _ v
    rw [map_fst_restore hlegal.1.1.1 hok.1.2, forall_iff_forall_mem]
    exact sameEntries_map hok.2 fun e he =>
      ihv hlegal.2 e.2 (env.make value) (hok.1.2 e he).2

section Binary

variable {env : Env} {outside : ℕ → UInt8}

theorem holds_memory (bytes : List UInt8) (outside : ℕ → UInt8) :
    Holds (memory bytes outside) 0 bytes := by
  apply ext_getElem
  · exact length_slice _ _ _
  · intro i hi hi'
    simp [slice, memory, hi']

theorem readFromBinary_of_write {t : Ty} (hlegal : t.isLegal = true) (hkeys : env.OrdersKeys t)
    {v : t.Val} (hok : Ok env t v) (hsize : Fits (8 + (write t v).length)) (target : t.Val) :
    (readFromBinary env outside t target (writeToBinary t v) true).success = true ∧
      (readFromBinary env outside t target (writeToBinary t v) true).value =
        restore env t target v := by
  have hlength : (writeToBinary t v).length = 8 + (write t v).length := by
    rw [writeToBinary, length_append, length_toBytes]
  have hholds := holds_memory (writeToBinary t v) outside
  rw [writeToBinary, Holds.append_iff, Nat.zero_add] at hholds
  have hrecorded : (Reader.size (memory (writeToBinary t v) outside) ⟨0, []⟩).1 =
      (writeToBinary t v).length := by
    rw [hlength]
    exact (size_of_holds hsize hholds.1).1
  obtain ⟨hvalue, hhead⟩ := read_of_holds t hlegal hkeys v hok target
    ⟨8, (Reader.size (memory (writeToBinary t v) outside) ⟨0, []⟩).2.reads⟩ hholds.2
  rw [readFromBinary]
  simp only [hrecorded, ne_eq, not_true_eq_false, if_false, if_true]
  exact ⟨decide_eq_true (hhead.trans hlength.symm), hvalue⟩

/-- The value is read back, and so is what was written after it, as if it had been alone. -/
structure RoundTrips (env : Env) (outside : ℕ → UInt8) (t : Ty) (target v : t.Val) : Prop where
  success : (readFromBinary env outside t target (writeToBinary t v) true).success = true
  same : Same t (readFromBinary env outside t target (writeToBinary t v) true).value v
  second : ∀ (u : Ty) (target' w : u.Val), u.isLegal = true → env.OrdersKeys u → Ok env u w →
    Fits (8 + (write (.pair t u) (v, w)).length) →
    (readFromBinary env outside (.pair t u) (target, target')
        (writeToBinary (.pair t u) (v, w)) true).value.2 =
      (readFromBinary env outside u target' (writeToBinary u w) true).value

theorem roundTrips_iff_compatible {t : Ty} (hlegal : t.isLegal = true) (hkeys : env.OrdersKeys t)
    {v : t.Val} (hok : Ok env t v) (hsize : Fits (8 + (write t v).length)) (target : t.Val) :
    RoundTrips env outside t target v ↔ Compatible env t target v := by
  obtain ⟨hsuccess, hvalue⟩ :=
    @readFromBinary_of_write env outside t hlegal hkeys v hok hsize target
  rw [← same_restore_iff t hlegal v target hok]
  constructor
  · intro h
    rw [← hvalue]
    exact h.same
  · intro hsame
    refine ⟨hsuccess, hvalue ▸ hsame, fun u target' w hlegal' hkeys' hok' hsize' => ?_⟩
    have hpair : (Ty.pair t u).isLegal = true := Bool.and_eq_true_iff.2 ⟨hlegal, hlegal'⟩
    have hvalues := (@readFromBinary_of_write env outside (.pair t u) hpair ⟨hkeys, hkeys'⟩ (v, w)
      ⟨hok, hok'⟩ hsize' (target, target')).2
    have hsecond : Fits (8 + (write u w).length) := by
      have hlength : (write (.pair t u) (v, w)).length =
          (write t v).length + (write u w).length := length_append
      unfold Fits at hsize' ⊢
      omega
    rw [hvalues, (readFromBinary_of_write hlegal' hkeys' hok' hsecond target').2]
    rfl

end Binary

def zeroValue : (t : Ty) → t.Val
  | .scalar size => List.replicate size 0
  | .string => []
  | .array length elem => some (List.replicate length (zeroValue elem))
  | .vector _ => []
  | .pair first second => (zeroValue first, zeroValue second)
  | .map _ _ => []
  | .unorderedMap _ _ => []
  | .optional _ => none
  | .uniquePtr _ => none
  | .noField => ()
  | .field first rest => (zeroValue first, zeroValue rest)

def plainEnv : Env where
  make := zeroValue
  less := fun _ _ _ => false
  address := 64

abbrev pointersTy : Ty :=
  .field (.uniquePtr (.scalar 1)) (.field (.vector (.uniquePtr (.scalar 1))) .noField)

/-- A used target: its list is longer than the one that is read, and its second pointer is null. -/
theorem pointersTy_roundTrips :
    RoundTrips plainEnv (fun _ => 0) pointersTy (some (8, [1]), [some (16, [2]), none, none], ())
      (some (24, [3]), [some (32, [4]), none], ()) := by
  have hkeys : plainEnv.OrdersKeys pointersTy := ⟨trivial, trivial, trivial⟩
  have hfirst : PointerOk (Ok plainEnv (.scalar 1)) (some (24, [3])) := by
    rintro _ _ ⟨⟩
    exact ⟨by decide, by unfold Fits; decide, rfl⟩
  have hsecond : PointerOk (Ok plainEnv (.scalar 1)) (some (32, [4])) := by
    rintro _ _ ⟨⟩
    exact ⟨by decide, by unfold Fits; decide, rfl⟩
  have hnull : PointerOk (Ok plainEnv (.scalar 1)) none := fun _ _ h => (nomatch h)
  have hlist : SizedOk (PointerOk (Ok plainEnv (.scalar 1))) [some (32, [4]), none] := by
    refine ⟨by unfold Fits; decide, fun item hitem => ?_⟩
    rcases mem_cons.1 hitem with rfl | hitem
    · exact hsecond
    · rw [mem_singleton.1 hitem]
      exact hnull
  refine (@roundTrips_iff_compatible plainEnv _ pointersTy rfl hkeys
    (some (24, [3]), [some (32, [4]), none], ()) ⟨hfirst, hlist, trivial⟩ ?_ _).2 ?_
  · unfold Fits
    decide
  · exact ⟨trivial, .cons trivial (.cons rfl .nil), trivial⟩

/-- A null pointer is read into an object whose pointer is not null. -/
theorem pointersTy_not_roundTrips : Ok plainEnv pointersTy (none, [], ()) ∧
    ¬RoundTrips plainEnv (fun _ => 0) pointersTy (some (8, [1]), [], ()) (none, [], ()) := by
  have hnull : PointerOk (Ok plainEnv (.scalar 1)) none := fun _ _ h => (nomatch h)
  have hlist : SizedOk (PointerOk (Ok plainEnv (.scalar 1))) [] :=
    ⟨by unfold Fits; decide, fun _ h => (nomatch h)⟩
  refine ⟨⟨hnull, hlist, trivial⟩, fun h => ?_⟩
  have hsame := h.same
  exact hsame.1

end Quadrants.Serialization

/-!
Reading bytes that may not have been written by the serializer: a parser that checks its bounds, to
tell which bytes the reader takes without leaving them.
-/

namespace Quadrants.Serialization

open Library.LittleEndian

section Parts

variable {α β : Type}

abbrev Parsed (α : Type) := Option (α × Bool × List UInt8)

def parseBytes (n : ℕ) (bytes : List UInt8) : Option (List UInt8 × List UInt8) :=
  if n ≤ bytes.length then some (bytes.take n, bytes.drop n) else none

def parseScalar (n : ℕ) (bytes : List UInt8) : Parsed (List UInt8) :=
  (parseBytes n bytes).map fun part => (part.1, true, part.2)

def parseEach (f : List UInt8 → Parsed α) : ℕ → List UInt8 → Parsed (List α)
  | 0, bytes => some ([], true, bytes)
  | n + 1, bytes =>
    (f bytes).bind fun first =>
      (parseEach f n first.2.2).map fun rest =>
        (first.1 :: rest.1, first.2.1 && rest.2.1, rest.2.2)

def parseSized (canonical : List α → Bool) (f : List UInt8 → Parsed α) (bytes : List UInt8) :
    Parsed (List α) :=
  (parseBytes 8 bytes).bind fun size =>
    (parseEach f (ofBytes size.1) size.2).map fun items =>
      (items.1, canonical items.1 && items.2.1, items.2.2)

def parsePair (f : List UInt8 → Parsed α) (g : List UInt8 → Parsed β) (bytes : List UInt8) :
    Parsed (α × β) :=
  (f bytes).bind fun first =>
    (g first.2.2).map fun second =>
      ((first.1, second.1), first.2.1 && second.2.1, second.2.2)

def parseArray (f : List UInt8 → Parsed α) (length : ℕ) (bytes : List UInt8) :
    Parsed (Option (List α)) :=
  (parseEach f length bytes).map fun items => (some items.1, items.2)

def parseOptional (f : List UInt8 → Parsed α) (bytes : List UInt8) : Parsed (Option α) :=
  (parseBytes 1 bytes).bind fun flag =>
    if ofBytes flag.1 = 0 then some (none, true, flag.2)
    else (f flag.2).map fun v => (some v.1, ofBytes flag.1 = 1 && v.2.1, v.2.2)

instance (less : α → α → Bool) (entries : List (α × β)) : Decidable (Ascending less entries) :=
  inferInstanceAs (Decidable (entries.Pairwise _))

instance [DecidableEq α] (entries : List (α × β)) : Decidable (DistinctKeys entries) :=
  inferInstanceAs (Decidable (entries.map Prod.fst).Nodup)

end Parts

def parse (env : Env) : (t : Ty) → List UInt8 → Parsed t.Val
  | .scalar size, bytes => parseScalar size bytes
  | .string, bytes => parseSized (fun _ => true) (fun bytes => (parseScalar 1 bytes).map
      fun char => (char.1.headD 0, char.2)) bytes
  | .array length elem, bytes => parseArray (parse env elem) length bytes
  | .vector elem, bytes => parseSized (fun _ => true) (parse env elem) bytes
  | .pair first second, bytes => parsePair (parse env first) (parse env second) bytes
  | .map key value, bytes =>
    parseSized (fun entries => Ascending (env.less key) entries)
      (parsePair (parse env key) (parse env value)) bytes
  | .unorderedMap key value, bytes =>
    parseSized (fun entries => DistinctKeys entries)
      (parsePair (parse env key) (parse env value)) bytes
  | .optional elem, bytes => parseOptional (parse env elem) bytes
  | .uniquePtr _, _ => none
  | .noField, bytes => some ((), true, bytes)
  | .field first rest, bytes => parsePair (parse env first) (parse env rest) bytes

/-- The recorded length is another one, or the contents end within the data, and where they fill it
they are what the serializer writes. -/
def Framed (env : Env) (t : Ty) (bytes : List UInt8) : Prop :=
  8 ≤ bytes.length ∧
    (ofBytes (bytes.take 8) ≠ bytes.length ∨
      ∃ v canonical rest, parse env t (bytes.drop 8) = some (v, canonical, rest) ∧
        (rest = [] → canonical = true))

section Reorder

variable {α β : Type}

def ReorderedEntries (same : β → β → Prop) (a b : List (α × β)) : Prop :=
  ∃ l, l.Perm a ∧ List.Forall₂ (fun e e' => e.1 = e'.1 ∧ same e.2 e'.2) l b

end Reorder

/-- The same value up to the order of the entries of unordered maps. -/
def Reordered : (t : Ty) → t.Val → t.Val → Prop
  | .scalar _, a, b => a = b
  | .string, a, b => a = b
  | .array _ elem, a, b => SameArray (Reordered elem) a b
  | .vector elem, a, b => List.Forall₂ (Reordered elem) a b
  | .pair first second, a, b => SamePair (Reordered first) (Reordered second) a b
  | .map _ value, a, b => List.Forall₂ (fun e e' => e.1 = e'.1 ∧ Reordered value e.2 e'.2) a b
  | .unorderedMap _ value, a, b => ReorderedEntries (Reordered value) a b
  | .optional elem, a, b => SameOptional (Reordered elem) a b
  | .uniquePtr _, a, b => a = b
  | .noField, _, _ => True
  | .field first rest, a, b => SamePair (Reordered first) (Reordered rest) a b

def SafeRead (env : Env) (outside : ℕ → UInt8) (t : Ty) (target : t.Val) (bytes : List UInt8) :
    Prop :=
  let outcome := readFromBinary env outside t target bytes true
  (∀ access ∈ outcome.reads, access.1 + access.2 ≤ bytes.length) ∧
    (outcome.success = true → ∃ v, Reordered t outcome.value v ∧ writeToBinary t v = bytes)

/-- `Version`: `uint16_t[3]` -/
abbrev versionTy : Ty :=
  .array 3 (.scalar 2)

/-- `Metadata`: the version, the size and the kernels -/
abbrev metadataTy (kernel : Ty) : Ty :=
  .field versionTy (.field (.scalar 8) (.field (.unorderedMap .string kernel) .noField))

inductive LoadMetadataError where
  | noError
  | corrupted
  | fileNotFound
  | versionNotMatched
  deriving DecidableEq, Repr

structure Loaded (α : Type) where
  error : LoadMetadataError
  value : α
  reads : List (ℕ × ℕ)

/-- `load_metadata_with_checking`; `version` is that of the library, and the file has been found. -/
def loadMetadataWithChecking (env : Env) (outside : ℕ → UInt8) (version : versionTy.Val)
    (kernel : Ty) (result : (metadataTy kernel).Val) (bytes : List UInt8) :
    Loaded (metadataTy kernel).Val :=
  let ver := readFromBinary env outside versionTy (some (List.replicate 3 [0, 0])) bytes false
  if ver.success = false then ⟨.corrupted, result, ver.reads⟩
  else if ver.value ≠ version then ⟨.versionNotMatched, result, ver.reads⟩
  else
    let outcome := readFromBinary env outside (metadataTy kernel) result bytes true
    ⟨if outcome.success then .noError else .corrupted, outcome.value, ver.reads ++ outcome.reads⟩

def SafeLoad (env : Env) (outside : ℕ → UInt8) (version : versionTy.Val) (kernel : Ty)
    (result : (metadataTy kernel).Val) (bytes : List UInt8) : Prop :=
  let loaded := loadMetadataWithChecking env outside version kernel result bytes
  (∀ access ∈ loaded.reads, access.1 + access.2 ≤ bytes.length) ∧
    (loaded.error = .noError → ∃ v, Reordered (metadataTy kernel) loaded.value v ∧
        writeToBinary (metadataTy kernel) v = bytes)

/-- The recorded length is another one, or the version is there and is another one, or the whole of
the metadata is framed. -/
def FramedLoad (env : Env) (version : versionTy.Val) (kernel : Ty) (bytes : List UInt8) : Prop :=
  8 ≤ bytes.length ∧
    (ofBytes (bytes.take 8) ≠ bytes.length ∨
      ∃ ver canonical rest, parse env versionTy (bytes.drop 8) = some (ver, canonical, rest) ∧
        (ver ≠ version ∨ Framed env (metadataTy kernel) bytes))

end Quadrants.Serialization
