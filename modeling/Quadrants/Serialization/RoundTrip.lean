import Quadrants.Serialization.Reader
import Mathlib.Data.List.Forall2

/-!
What is left in the target after a value was written and read back.
-/

namespace Quadrants.Serialization

open Library.LittleEndian List Bool

structure Lands {α : Type} (result : α × Reader) (value : α) (head : ℕ) : Prop where
  value : result.1 = value
  head : result.2.head = head

section Parts

variable {mem : ℕ → UInt8} {α β : Type}

theorem size_of_holds {r : Reader} {n : ℕ} (hn : Fits n) (h : Holds mem r.head (toBytes 8 n)) :
    (r.size mem).1 = n ∧ (r.size mem).2.head = r.head + 8 := by
  refine ⟨?_, rfl⟩
  rw [Holds, length_toBytes] at h
  rw [Reader.size, Reader.copy, h, ofBytes_toBytes hn]

theorem readEach_of_holds {f : α → Reader → α × Reader} {w : α → List UInt8}
    {restore : α → α → α} (items : List α) :
    (∀ item ∈ items, ∀ target r, Holds mem r.head (w item) →
      Lands (f target r) (restore target item) (r.head + (w item).length)) →
    ∀ targets : List α, targets.length = items.length → ∀ r, Holds mem r.head (items.flatMap w) →
      Lands (readEach f targets r) (zipWith restore targets items)
        (r.head + (items.flatMap w).length) := by
  induction items with
  | nil =>
    intro _ targets hlength r _
    rw [length_nil, length_eq_zero_iff] at hlength
    subst hlength
    exact ⟨rfl, rfl⟩
  | cons item items ih =>
    intro hitem targets hlength r hholds
    obtain ⟨target, targets, rfl⟩ := exists_cons_of_length_eq_add_one hlength
    rw [flatMap_cons, Holds.append_iff] at hholds
    obtain ⟨hvalue, hhead⟩ := hitem item (mem_cons_self ..) target r hholds.1
    obtain ⟨hvalues, hend⟩ := ih (fun item' hmem => hitem item' (mem_cons_of_mem _ hmem))
      targets (Nat.succ.inj hlength) (f target r).2 (by rw [hhead]; exact hholds.2)
    refine ⟨?_, ?_⟩
    · rw [readEach, hvalue, hvalues, zipWith_cons_cons]
    · rw [readEach, hend, hhead, flatMap_cons, length_append, Nat.add_assoc]

@[simp]
theorem length_resize (make : α) (targets : List α) (n : ℕ) :
    (resize make targets n).length = n := by
  rw [resize, length_append, length_take, length_replicate]
  omega

theorem readSized_of_holds {f : α → Reader → α × Reader} {w : α → List UInt8}
    {restore : α → α → α} {items : List α} (hsize : Fits items.length)
    (hitem : ∀ item ∈ items, ∀ target r, Holds mem r.head (w item) →
      Lands (f target r) (restore target item) (r.head + (w item).length))
    (make : α) (targets : List α) {r : Reader} (hholds : Holds mem r.head (writeSized w items)) :
    Lands (readSized mem f make targets r)
      (zipWith restore (resize make targets items.length) items)
      (r.head + (writeSized w items).length) := by
  rw [writeSized, Holds.append_iff] at hholds
  obtain ⟨hn, hhead⟩ := size_of_holds hsize hholds.1
  obtain ⟨hvalue, hend⟩ := readEach_of_holds items hitem (resize make targets items.length)
    (length_resize _ _ _) (r.size mem).2 (by rw [hhead]; exact hholds.2)
  rw [readSized, hn]
  refine ⟨hvalue, ?_⟩
  rw [hend, hhead, writeSized, length_append, length_toBytes, Nat.add_assoc]

theorem readPair_of_holds {f : α → Reader → α × Reader} {g : β → Reader → β × Reader}
    {w : α → List UInt8} {w' : β → List UInt8} {restore : α → α → α} {restore' : β → β → β}
    {v : α × β} (hfirst : ∀ target r, Holds mem r.head (w v.1) →
      Lands (f target r) (restore target v.1) (r.head + (w v.1).length))
    (hsecond : ∀ target r, Holds mem r.head (w' v.2) →
      Lands (g target r) (restore' target v.2) (r.head + (w' v.2).length))
    (target : α × β) (r : Reader) (hholds : Holds mem r.head (writePair w w' v)) :
    Lands (readPair f g target r) (restore target.1 v.1, restore' target.2 v.2)
      (r.head + (writePair w w' v).length) := by
  rw [writePair, Holds.append_iff] at hholds
  obtain ⟨hvalue, hhead⟩ := hfirst target.1 r hholds.1
  obtain ⟨hvalue', hend⟩ := hsecond target.2 (f target.1 r).2 (by rw [hhead]; exact hholds.2)
  refine ⟨?_, ?_⟩
  · rw [readPair, hvalue, hvalue']
  · rw [readPair, hend, hhead, writePair, length_append, Nat.add_assoc]

theorem zipWith_replicate (f : α → α → α) (make : α) (items : List α) :
    zipWith f (replicate items.length make) items = items.map (f make) := by
  induction items with
  | nil => rfl
  | cons item items ih =>
    rw [length_cons, replicate_succ, zipWith_cons_cons, ih, map_cons]

theorem readMap_of_holds {insert : α → List α → List α} {f : α → Reader → α × Reader}
    {w : α → List UInt8} {restore : α → α → α} {items : List α} (hsize : Fits items.length)
    (hitem : ∀ item ∈ items, ∀ target r, Holds mem r.head (w item) →
      Lands (f target r) (restore target item) (r.head + (w item).length))
    {make : α}
    (hinsert : (items.map (restore make)).foldl (fun entries entry => insert entry entries) [] =
      items.map (restore make))
    {r : Reader} (hholds : Holds mem r.head (writeSized w items)) :
    Lands (readMap mem insert f make r) (items.map (restore make))
      (r.head + (writeSized w items).length) := by
  rw [writeSized, Holds.append_iff] at hholds
  obtain ⟨hn, hhead⟩ := size_of_holds hsize hholds.1
  obtain ⟨hvalue, hend⟩ := readEach_of_holds items hitem (replicate items.length make)
    length_replicate (r.size mem).2 (by rw [hhead]; exact hholds.2)
  rw [readMap, hn, hvalue, zipWith_replicate, hinsert]
  refine ⟨rfl, ?_⟩
  rw [hend, hhead, writeSized, length_append, length_toBytes, Nat.add_assoc]

theorem readArray_lands {f : α → Reader → α × Reader} {make : α} {isTrivial : Bool} {length : ℕ}
    {r : Reader} {items : List α} {head : ℕ}
    (hvalue : (readEach f (replicate length make) r).1 = items)
    (hhead : (readEach f (replicate length make) r).2.head = head) :
    Lands (readArray f make isTrivial length r) (if isTrivial then some items else none) head := by
  refine ⟨?_, hhead⟩
  rw [readArray, hvalue]

theorem foldl_insert {insert : α → List α → List α} (entries : List α) : ∀ done : List α,
    (∀ front entry back, entries = front ++ entry :: back →
      insert entry (done ++ front) = done ++ front ++ [entry]) →
    entries.foldl (fun entries entry => insert entry entries) done = done ++ entries := by
  induction entries with
  | nil => intro done _; rw [foldl_nil, append_nil]
  | cons entry entries ih =>
    intro done hinsert
    have hfirst := hinsert [] entry entries rfl
    rw [append_nil] at hfirst
    rw [foldl_cons, hfirst, ih]
    · rw [append_assoc, singleton_append]
    · intro front other back heq
      have hnext := hinsert (entry :: front) other back (by rw [heq, cons_append])
      rwa [append_cons] at hnext

variable {entries : List (α × β)}

theorem insertOrdered_last {less : α → α → Bool} {entry : α × β}
    (h : ∀ other ∈ entries, less other.1 entry.1 = true ∧ less entry.1 other.1 = false) :
    insertOrdered less entry entries = entries ++ [entry] := by
  induction entries with
  | nil => rfl
  | cons other entries ih =>
    obtain ⟨hlt, hnot⟩ := h other (mem_cons_self ..)
    rw [insertOrdered, hnot, hlt, ih fun other' hmem => h other' (mem_cons_of_mem _ hmem)]
    rfl

theorem Ascending.foldl_insertOrdered {less : α → α → Bool} (hirrefl : ∀ a, less a a = false)
    (htrans : ∀ a b c, less a b = true → less b c = true → less a c = true)
    (h : Ascending less entries) :
    entries.foldl (fun entries entry => insertOrdered less entry entries) [] = entries := by
  refine foldl_insert entries [] fun front entry back heq => ?_
  refine insertOrdered_last fun other hother => ?_
  rw [Ascending, heq, pairwise_append] at h
  have hlt := h.2.2 other hother entry (mem_cons_self ..)
  refine ⟨hlt, eq_false_iff.2 fun hgt => ?_⟩
  have hself := htrans _ _ _ hlt hgt
  rw [hirrefl] at hself
  cases hself

theorem DistinctKeys.foldl_insertHashed [DecidableEq α] (h : DistinctKeys entries) :
    entries.foldl (fun entries entry => insertHashed entry entries) [] = entries := by
  refine foldl_insert entries [] fun front entry back heq => ?_
  rw [insertHashed, if_neg]
  rw [DistinctKeys, heq, map_append, nodup_append] at h
  intro hmem
  exact h.2.2 _ hmem _ (mem_cons_self ..) rfl

theorem readOptional_of_holds {f : α → Reader → α × Reader} {w : α → List UInt8}
    {restore : α → α → α} {content : Option α}
    (hvalue : ∀ v, content = some v → ∀ target r, Holds mem r.head (w v) →
      Lands (f target r) (restore target v) (r.head + (w v).length))
    (make : α) {r : Reader} (hholds : Holds mem r.head (writeOptional w content)) :
    Lands (readOptional mem f make r) (content.map (restore make))
      (r.head + (writeOptional w content).length) := by
  cases content with
  | none =>
    have hflag : (r.copy mem 1).1 = toBytes 1 0 := hholds
    rw [readOptional, hflag]
    exact ⟨rfl, rfl⟩
  | some v =>
    rw [writeOptional, Holds.append_iff] at hholds
    have hflag : (r.copy mem 1).1 = toBytes 1 1 := hholds.1
    obtain ⟨hread, hend⟩ := hvalue v rfl make (r.copy mem 1).2 hholds.2
    rw [readOptional, hflag, if_neg (by decide)]
    refine ⟨by rw [hread]; rfl, ?_⟩
    rw [hend, writeOptional, length_append, ← Nat.add_assoc]
    rfl

def restorePointer (restore : α → α) (address : ℕ) (target : Option (ℕ × α)) :
    Option (ℕ × α) → Option (ℕ × α)
  | none => target
  | some (_, v) => some (address, restore v)

theorem readPointer_of_holds {f : α → Reader → α × Reader} {w : α → List UInt8}
    {restore : α → α → α} {content : Option (ℕ × α)}
    (hvalue : ∀ old v, content = some (old, v) → 0 < old ∧ Fits old ∧
      ∀ target r, Holds mem r.head (w v) →
        Lands (f target r) (restore target v) (r.head + (w v).length))
    (make : α) (address : ℕ) (target : Option (ℕ × α)) {r : Reader}
    (hholds : Holds mem r.head (writePointer w content)) :
    Lands (readPointer mem f make address target r)
      (restorePointer (restore make) address target content)
      (r.head + (writePointer w content).length) := by
  match content with
  | none =>
    have hsize := (size_of_holds (show Fits 0 by unfold Fits; decide) hholds).1
    rw [readPointer, if_pos hsize]
    exact ⟨rfl, rfl⟩
  | some (old, v) =>
    obtain ⟨hpos, hlt, hvalue⟩ := hvalue old v rfl
    rw [writePointer, Holds.append_iff] at hholds
    obtain ⟨hsize, hhead⟩ := size_of_holds hlt hholds.1
    obtain ⟨hread, hend⟩ := hvalue make (r.size mem).2 (by rw [hhead]; exact hholds.2)
    rw [readPointer, if_neg (by omega), hread]
    refine ⟨rfl, ?_⟩
    rw [hend, hhead, writePointer, length_append, length_toBytes, Nat.add_assoc]

end Parts

def restore (env : Env) : (t : Ty) → t.Val → t.Val → t.Val
  | .scalar _, _, v => v
  | .string, _, v => v
  | .array _ elem, _, items =>
    if elem.isTrivial then
      some ((Option.getD items []).map (restore env elem (env.make elem)))
    else none
  | .vector elem, targets, items =>
    zipWith (restore env elem) (resize (env.make elem) targets (List.length items)) items
  | .pair first second, target, v =>
    (restore env first target.1 v.1, restore env second target.2 v.2)
  | .map key value, _, entries =>
    List.map (fun e => (restore env key (env.make key) e.1,
      restore env value (env.make value) e.2)) entries
  | .unorderedMap key value, _, entries =>
    List.map (fun e => (restore env key (env.make key) e.1,
      restore env value (env.make value) e.2)) entries
  | .optional elem, _, content => Option.map (restore env elem (env.make elem)) content
  | .uniquePtr elem, target, content =>
    restorePointer (restore env elem (env.make elem)) env.address target content
  | .noField, _, v => v
  | .field first rest, target, v =>
    (restore env first target.1 v.1, restore env rest target.2 v.2)

theorem zipWith_eq_right {α : Type} {f : α → α → α} {items : List α} :
    ∀ {targets : List α}, targets.length = items.length →
    (∀ item ∈ items, ∀ target, f target item = item) → zipWith f targets items = items := by
  induction items with
  | nil => intro targets _ _; exact zipWith_nil_right
  | cons item items ih =>
    intro targets hlength h
    obtain ⟨target, targets, rfl⟩ := exists_cons_of_length_eq_add_one hlength
    rw [zipWith_cons_cons, h item (mem_cons_self ..), ih (Nat.succ.inj hlength)
      fun item' hmem => h item' (mem_cons_of_mem _ hmem)]

theorem map_eq_self {α : Type} {f : α → α} {items : List α} (h : ∀ item ∈ items, f item = item) :
    items.map f = items := by
  rw [map_congr_left h, map_id']

theorem restore_of_isPlain (env : Env) : ∀ (t : Ty), t.isPlain = true → ∀ (v target : t.Val),
    Ok env t v → restore env t target v = v := by
  intro t
  induction t with
  | scalar size => exact fun _ v target _ => rfl
  | string => exact fun _ v target _ => rfl
  | noField => exact fun _ v target _ => rfl
  | uniquePtr elem => intro h; cases h
  | array length elem ih =>
    intro h v target hok
    obtain ⟨htrivial, hplain⟩ := and_eq_true_iff.1 h
    obtain ⟨items, rfl, -, hitems⟩ := hok
    have hsame : items.map (restore env elem (env.make elem)) = items :=
      map_eq_self fun item hitem => ih hplain item _ (hitems item hitem)
    exact (if_pos htrivial).trans (congrArg some hsame)
  | vector elem ih =>
    intro h v target hok
    exact zipWith_eq_right (length_resize _ _ _) fun item hitem target =>
      ih h item target (hok.2 item hitem)
  | optional elem ih =>
    intro h v target hok
    match v with
    | none => rfl
    | some v => exact congrArg some (ih h v _ (hok v rfl))
  | pair first second ihf ihs =>
    intro h v target hok
    obtain ⟨hfirst, hsecond⟩ := and_eq_true_iff.1 h
    exact Prod.ext (ihf hfirst v.1 target.1 hok.1) (ihs hsecond v.2 target.2 hok.2)
  | field first second ihf ihs =>
    intro h v target hok
    obtain ⟨hfirst, hsecond⟩ := and_eq_true_iff.1 h
    exact Prod.ext (ihf hfirst v.1 target.1 hok.1) (ihs hsecond v.2 target.2 hok.2)
  | map key value ihk ihv =>
    intro h v target hok
    obtain ⟨hkey, hvalue⟩ := and_eq_true_iff.1 h
    refine map_eq_self fun e he => ?_
    obtain ⟨hek, hev⟩ := hok.1.2 e he
    exact Prod.ext (ihk hkey e.1 _ hek) (ihv hvalue e.2 _ hev)
  | unorderedMap key value ihk ihv =>
    intro h v target hok
    obtain ⟨hkey, hvalue⟩ := and_eq_true_iff.1 h
    refine map_eq_self fun e he => ?_
    obtain ⟨hek, hev⟩ := hok.1.2 e he
    exact Prod.ext (ihk hkey e.1 _ hek) (ihv hvalue e.2 _ hev)

section Keys

variable {env : Env} {key value : Ty} {entries : List (key.Val × value.Val)}

theorem map_fst_restore (hkey : key.isPlain = true)
    (hok : ∀ e ∈ entries, PairOk (Ok env key) (Ok env value) e) :
    entries.map (fun e => (restore env key (env.make key) e.1,
      restore env value (env.make value) e.2)) =
    entries.map fun e => (e.1, restore env value (env.make value) e.2) := by
  apply map_congr_left
  intro e he
  rw [restore_of_isPlain env key hkey e.1 _ (hok e he).1]

theorem Ascending.restore (h : Ascending (env.less key) entries) (g : value.Val → value.Val) :
    Ascending (env.less key) (entries.map fun e => (e.1, g e.2)) := by
  rw [Ascending, pairwise_map]
  exact h

theorem DistinctKeys.restore (h : DistinctKeys entries) (g : value.Val → value.Val) :
    DistinctKeys (entries.map fun e => (e.1, g e.2)) := by
  rw [DistinctKeys, map_map]
  exact h

end Keys

theorem read_of_holds {env : Env} {mem : ℕ → UInt8} : ∀ (t : Ty), t.isLegal = true →
    env.OrdersKeys t → ∀ (v : t.Val), Ok env t v → ∀ (target : t.Val) (r : Reader),
    Holds mem r.head (write t v) →
      Lands (read env mem t target r) (restore env t target v)
        (r.head + (write t v).length) := by
  intro t
  induction t with
  | scalar size =>
    intro _ _ v hok target r hholds
    have hlength : List.length v = size := hok
    have hbytes : slice mem r.head size = v := hlength ▸ hholds
    have hhead : r.head + size = r.head + List.length v := by rw [hlength]
    exact ⟨hbytes, hhead⟩
  | noField => exact fun _ _ v _ target r _ => ⟨rfl, rfl⟩
  | string =>
    intro _ _ v hok target r hholds
    have hchar : ∀ (char : UInt8) (target : UInt8) (r : Reader), Holds mem r.head [char] →
        Lands (readChar mem r) char (r.head + [char].length) := by
      intro char target r hholds
      have hbyte : slice mem r.head 1 = [char] := hholds
      exact ⟨(List.cons.inj hbyte).1, rfl⟩
    have hread := @readSized_of_holds mem UInt8 (fun _ => readChar mem) (fun char => [char])
      (fun _ char => char) v hok.1 (fun char _ => hchar char) 0 [] r hholds
    have hchars : zipWith (fun (_ char : UInt8) => char)
        (resize 0 [] (List.length v)) v = v :=
      zipWith_eq_right (length_resize _ _ _) fun _ _ _ => rfl
    rw [hchars] at hread
    exact hread
  | array length elem ih =>
    intro hlegal hkeys v hok target r hholds
    obtain ⟨items, rfl, rfl, hitems⟩ := hok
    obtain ⟨hvalue, hhead⟩ := @readEach_of_holds mem elem.Val (read env mem elem) (write elem)
      (restore env elem) items (fun item hitem => ih hlegal hkeys item (hitems item hitem))
      (replicate items.length (env.make elem)) length_replicate r hholds
    rw [zipWith_replicate] at hvalue
    exact readArray_lands hvalue hhead
  | vector elem ih =>
    intro hlegal hkeys v hok target r hholds
    exact @readSized_of_holds mem elem.Val (read env mem elem) (write elem) (restore env elem) v
      hok.1 (fun item hitem => ih hlegal hkeys item (hok.2 item hitem)) (env.make elem) target r
      hholds
  | pair first second ihf ihs =>
    intro hlegal hkeys v hok target r hholds
    obtain ⟨hfirst, hsecond⟩ := and_eq_true_iff.1 hlegal
    exact @readPair_of_holds mem first.Val second.Val (read env mem first) (read env mem second)
      (write first) (write second) (restore env first) (restore env second) v
      (ihf hfirst hkeys.1 v.1 hok.1) (ihs hsecond hkeys.2 v.2 hok.2) target r hholds
  | field first second ihf ihs =>
    intro hlegal hkeys v hok target r hholds
    obtain ⟨hfirst, hsecond⟩ := and_eq_true_iff.1 hlegal
    exact @readPair_of_holds mem first.Val second.Val (read env mem first) (read env mem second)
      (write first) (write second) (restore env first) (restore env second) v
      (ihf hfirst hkeys.1 v.1 hok.1) (ihs hsecond hkeys.2 v.2 hok.2) target r hholds
  | optional elem ih =>
    intro hlegal hkeys v hok target r hholds
    exact @readOptional_of_holds mem elem.Val (read env mem elem) (write elem) (restore env elem)
      v (fun v' hv' => ih hlegal hkeys v' (hok v' hv')) (env.make elem) r hholds
  | uniquePtr elem ih =>
    intro hlegal hkeys v hok target r hholds
    refine @readPointer_of_holds mem elem.Val (read env mem elem) (write elem) (restore env elem)
      v (fun old v' hv' => ?_) (env.make elem) env.address target r hholds
    obtain ⟨hpos, hlt, hv'⟩ := hok old v' hv'
    exact ⟨hpos, hlt, ih hlegal hkeys v' hv'⟩
  | map key value ihk ihv =>
    intro hlegal hkeys v hok target r hholds
    simp only [Ty.isLegal, and_eq_true] at hlegal
    refine @readMap_of_holds mem (key.Val × value.Val) (insertOrdered (env.less key))
      (readPair (read env mem key) (read env mem value)) (writePair (write key) (write value))
      (fun target e => (restore env key target.1 e.1, restore env value target.2 e.2)) v
      hok.1.1 (fun e he => ?_) (env.make key, env.make value) ?_ r hholds
    · exact readPair_of_holds (ihk hlegal.1.2 hkeys.2.1 e.1 (hok.1.2 e he).1)
        (ihv hlegal.2 hkeys.2.2 e.2 (hok.1.2 e he).2)
    · rw [map_fst_restore hlegal.1.1.1 hok.1.2]
      exact (hok.2.restore _).foldl_insertOrdered hkeys.1.irrefl hkeys.1.trans
  | unorderedMap key value ihk ihv =>
    intro hlegal hkeys v hok target r hholds
    simp only [Ty.isLegal, and_eq_true] at hlegal
    refine @readMap_of_holds mem (key.Val × value.Val) insertHashed
      (readPair (read env mem key) (read env mem value)) (writePair (write key) (write value))
      (fun target e => (restore env key target.1 e.1, restore env value target.2 e.2)) v
      hok.1.1 (fun e he => ?_) (env.make key, env.make value) ?_ r hholds
    · exact readPair_of_holds (ihk hlegal.1.2 hkeys.1 e.1 (hok.1.2 e he).1)
        (ihv hlegal.2 hkeys.2 e.2 (hok.1.2 e he).2)
    · rw [map_fst_restore hlegal.1.1.1 hok.1.2]
      exact (hok.2.restore _).foldl_insertHashed

end Quadrants.Serialization
