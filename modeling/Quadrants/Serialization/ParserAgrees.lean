import Quadrants.Serialization.Corrupt

/-!
The reader follows the parser that checks its bounds, as far as that goes, and leaves the data where
the parser fails.
-/

namespace Quadrants.Serialization

open Library.LittleEndian List Option

def Chain : ℕ → List (ℕ × ℕ) → ℕ → Prop
  | first, [], last => first = last
  | first, access :: reads, last => access.1 = first ∧ Chain (first + access.2) reads last

namespace Chain

variable {reads : List (ℕ × ℕ)}

theorem append {reads' : List (ℕ × ℕ)} : ∀ {first middle last : ℕ},
    Chain first reads middle → Chain middle reads' last → Chain first (reads ++ reads') last := by
  induction reads with
  | nil => rintro first middle last rfl h; exact h
  | cons access reads ih => rintro first middle last ⟨rfl, h⟩ h'; exact ⟨rfl, ih h h'⟩

theorem le : ∀ {first last : ℕ}, Chain first reads last → first ≤ last := by
  induction reads with
  | nil => rintro first last rfl; exact le_rfl
  | cons access reads ih => rintro first last ⟨-, h⟩; exact (Nat.le_add_right _ _).trans (ih h)

theorem access_le : ∀ {first last : ℕ}, Chain first reads last →
    ∀ access ∈ reads, access.1 + access.2 ≤ last := by
  induction reads with
  | nil => intro first last _ access hmem; cases hmem
  | cons access reads ih =>
    rintro first last ⟨hfirst, h⟩ access' hmem
    rcases mem_cons.1 hmem with rfl | hmem
    · rw [hfirst]
      exact h.le
    · exact ih h access' hmem

theorem exists_access_eq : ∀ {first last : ℕ}, Chain first reads last →
    first < last → ∃ access ∈ reads, access.1 + access.2 = last := by
  induction reads with
  | nil => rintro first last rfl hlt; exact absurd hlt (lt_irrefl _)
  | cons access reads ih =>
    rintro first last ⟨hfirst, h⟩ hlt
    by_cases hnext : first + access.2 < last
    · obtain ⟨access', hmem, hlast⟩ := ih h hnext
      exact ⟨access', mem_cons_of_mem _ hmem, hlast⟩
    · refine ⟨access, mem_cons_self .., ?_⟩
      rw [hfirst]
      exact le_antisymm h.le (not_lt.1 hnext)

end Chain

section Parts

variable {mem : ℕ → UInt8} {α β : Type}

def Tracks (r r' : Reader) : Prop :=
  ∃ reads, r'.reads = r.reads ++ reads ∧ Chain r.head reads r'.head

theorem Tracks.refl (r : Reader) : Tracks r r :=
  ⟨[], (append_nil _).symm, rfl⟩

variable {r : Reader}

theorem Tracks.trans {r' r'' : Reader} (h : Tracks r r') (h' : Tracks r' r'') : Tracks r r'' := by
  obtain ⟨reads, hreads, hchain⟩ := h
  obtain ⟨reads', hreads', hchain'⟩ := h'
  exact ⟨reads ++ reads', by rw [hreads', hreads, append_assoc], hchain.append hchain'⟩

theorem Tracks.head_le {r' : Reader} (h : Tracks r r') : r.head ≤ r'.head := by
  obtain ⟨reads, -, hchain⟩ := h
  exact hchain.le

theorem tracks_copy (r : Reader) (n : ℕ) : Tracks r (r.copy mem n).2 :=
  ⟨[(r.head, n)], rfl, rfl, rfl⟩

/-- What the parser has used and left of the bytes that stand at the head of a reader. -/
def Follows (r r' : Reader) (bytes : List UInt8) (parsed : Parsed α) : Prop :=
  match parsed with
  | none => r.head + bytes.length < r'.head
  | some (_, _, rest) => ∃ used, bytes = used ++ rest ∧ r'.head = r.head + used.length

structure Agreeing (mem : ℕ → UInt8) (f : α → Reader → α × Reader) (p : List UInt8 → Parsed α)
    (w : α → List UInt8) (ok : α → Prop) : Prop where
  follows : ∀ bytes target r, Holds mem r.head bytes → Follows r (f target r).2 bytes (p bytes)
  tracks : ∀ target r, Tracks r (f target r).2
  sound : ∀ bytes v rest, p bytes = some (v, true, rest) → ok v ∧ bytes = w v ++ rest
  complete : ∀ v rest, ok v → p (w v ++ rest) = some (v, true, rest)
  valid : ∀ target r, ok (f target r).1

theorem parseBytes_eq_some {n : ℕ} {bytes part rest : List UInt8} :
    parseBytes n bytes = some (part, rest) ↔ part.length = n ∧ bytes = part ++ rest := by
  unfold parseBytes
  constructor
  · intro h
    split at h
    · rename_i hn
      obtain ⟨rfl, rfl⟩ := Prod.mk.inj (Option.some.inj h)
      exact ⟨length_take_of_le hn, (take_append_drop n bytes).symm⟩
    · cases h
  · rintro ⟨rfl, rfl⟩
    rw [if_pos (by simp), take_left, drop_left]

theorem parseBytes_eq_none {n : ℕ} {bytes : List UInt8} (h : parseBytes n bytes = none) :
    bytes.length < n := by
  unfold parseBytes at h
  split at h
  · cases h
  · rename_i hn
    exact not_le.1 hn

theorem agreeing_scalar (n : ℕ) :
    Agreeing mem (fun _ r => r.copy mem n) (parseScalar n) (fun bytes => bytes)
      fun bytes => bytes.length = n where
  follows := by
    intro bytes target r _
    unfold parseScalar
    cases h : parseBytes n bytes with
    | none =>
      have hlength := parseBytes_eq_none h
      exact Nat.add_lt_add_left hlength r.head
    | some part =>
      obtain ⟨hlength, hbytes⟩ := parseBytes_eq_some.1 h
      exact ⟨part.1, hbytes, by rw [hlength]; rfl⟩
  tracks := fun _ r => tracks_copy r n
  sound := by
    intro bytes v rest h
    obtain ⟨part, hpart, heq⟩ := map_eq_some_iff.1 h
    cases heq
    exact parseBytes_eq_some.1 hpart
  complete := by
    intro v rest hv
    unfold parseScalar
    rw [parseBytes_eq_some.2 ⟨hv, rfl⟩]
    rfl
  valid := fun _ r => length_slice mem r.head n

theorem holds_rest {r' : Reader} {bytes used rest : List UInt8} (h : Holds mem r.head bytes)
    (hbytes : bytes = used ++ rest) (hhead : r'.head = r.head + used.length) :
    Holds mem r'.head rest := by
  rw [hbytes, Holds.append_iff] at h
  rw [hhead]
  exact h.2

theorem Follows.andThen {r' r'' : Reader} {bytes : List UInt8} {first : Parsed α}
    {second : α → Bool → List UInt8 → Parsed β} (h : Follows r r' bytes first)
    (hholds : Holds mem r.head bytes) (hle : r'.head ≤ r''.head)
    (hsecond : ∀ v c rest, Holds mem r'.head rest → Follows r' r'' rest (second v c rest)) :
    Follows r r'' bytes (first.bind fun part => second part.1 part.2.1 part.2.2) := by
  match first, h with
  | none, h => exact lt_of_lt_of_le h hle
  | some (v, c, rest), h =>
    obtain ⟨used, hbytes, hhead⟩ := h
    have hnext := hsecond v c rest (holds_rest hholds hbytes hhead)
    change Follows r r'' bytes (second v c rest)
    revert hnext
    match second v c rest with
    | none =>
      intro hnext
      change r'.head + rest.length < r''.head at hnext
      change r.head + bytes.length < r''.head
      rw [hbytes, length_append]
      omega
    | some (v', c', rest') =>
      rintro ⟨used', hrest, hhead'⟩
      refine ⟨used ++ used', by rw [hbytes, hrest, append_assoc], ?_⟩
      rw [hhead', hhead, length_append, Nat.add_assoc]

theorem Follows.map {r' : Reader} {bytes : List UInt8} {parsed : Parsed α}
    {g : α × Bool → β × Bool} (h : Follows r r' bytes parsed) :
    Follows r r' bytes (parsed.map fun part =>
      ((g (part.1, part.2.1)).1, (g (part.1, part.2.1)).2, part.2.2)) := by
  match parsed, h with
  | none, h => exact h
  | some (v, c, rest), h => exact h

variable {f : α → Reader → α × Reader} {p : List UInt8 → Parsed α} {w : α → List UInt8}
  {ok : α → Prop}

namespace Agreeing

theorem tracks_each (h : Agreeing mem f p w ok) (targets : List α) :
    ∀ r, Tracks r (readEach f targets r).2 := by
  induction targets with
  | nil => exact fun r => Tracks.refl r
  | cons target targets ih => exact fun r => (h.tracks target r).trans (ih _)

theorem follows_each (h : Agreeing mem f p w ok) (targets : List α) : ∀ bytes r,
    Holds mem r.head bytes →
    Follows r (readEach f targets r).2 bytes (parseEach p targets.length bytes) := by
  induction targets with
  | nil => exact fun bytes r _ => ⟨[], rfl, rfl⟩
  | cons target targets ih =>
    intro bytes r hholds
    refine @Follows.andThen mem α (List α) r (f target r).2 _ bytes (p bytes)
      (fun v c rest => (parseEach p targets.length rest).map fun items =>
        (v :: items.1, c && items.2.1, items.2.2))
      (h.follows bytes target r hholds) hholds (h.tracks_each targets _).head_le
      fun v c rest hrest => ?_
    exact (ih rest _ hrest).map (g := fun items => (v :: items.1, c && items.2))

theorem valid_each (h : Agreeing mem f p w ok) (targets : List α) :
    ∀ r, (readEach f targets r).1.length = targets.length ∧
      ∀ v ∈ (readEach f targets r).1, ok v := by
  induction targets with
  | nil => exact fun r => ⟨rfl, fun v hv => (nomatch hv)⟩
  | cons target targets ih =>
    intro r
    obtain ⟨hlength, hall⟩ := ih (f target r).2
    refine ⟨congrArg Nat.succ hlength, fun v hv => ?_⟩
    rcases mem_cons.1 hv with rfl | hv
    · exact h.valid target r
    · exact hall v hv

theorem sound_each (h : Agreeing mem f p w ok) (n : ℕ) : ∀ bytes items rest,
    parseEach p n bytes = some (items, true, rest) →
    items.length = n ∧ (∀ v ∈ items, ok v) ∧ bytes = items.flatMap w ++ rest := by
  induction n with
  | zero =>
    intro bytes items rest heq
    cases heq
    exact ⟨rfl, fun v hv => (nomatch hv), rfl⟩
  | succ n ih =>
    intro bytes items rest heq
    obtain ⟨⟨v, c, rest₁⟩, hfirst, heq⟩ := bind_eq_some_iff.1 heq
    obtain ⟨⟨vs, c', rest₂⟩, hrest, heq⟩ := map_eq_some_iff.1 heq
    simp only [Prod.mk.injEq, Bool.and_eq_true] at heq
    obtain ⟨rfl, ⟨rfl, rfl⟩, rfl⟩ := heq
    obtain ⟨hv, rfl⟩ := h.sound bytes v rest₁ hfirst
    obtain ⟨hlength, hall, rfl⟩ := ih rest₁ vs rest₂ hrest
    refine ⟨congrArg Nat.succ hlength, fun v' hv' => ?_, ?_⟩
    · rcases mem_cons.1 hv' with rfl | hv'
      · exact hv
      · exact hall v' hv'
    · rw [flatMap_cons, append_assoc]

theorem complete_each (h : Agreeing mem f p w ok) (items : List α) (rest : List UInt8) :
    (∀ v ∈ items, ok v) →
    parseEach p items.length (items.flatMap w ++ rest) = some (items, true, rest) := by
  induction items with
  | nil => exact fun _ => rfl
  | cons v items ih =>
    intro hall
    have hrest := ih fun v' hv' => hall v' (mem_cons_of_mem _ hv')
    rw [flatMap_cons, append_assoc, length_cons, parseEach,
      h.complete v _ (hall v (mem_cons_self ..)), bind_some, hrest]
    rfl

theorem fits_ofBytes {bytes : List UInt8} (h : bytes.length = 8) : Fits (ofBytes bytes) := by
  have hlt := ofBytes_lt bytes
  rwa [h] at hlt

theorem tracks_size (r : Reader) : Tracks r (r.size mem).2 :=
  @tracks_copy mem r 8

theorem fits_size (r : Reader) : Fits (r.size mem).1 :=
  @fits_ofBytes (slice mem r.head 8) (length_slice mem r.head 8)

theorem follows_sized (h : Agreeing mem f p w ok) {r : Reader} {bytes : List UInt8}
    (hholds : Holds mem r.head bytes) (canonical : List α → Bool) (targets : ℕ → List α)
    (htargets : ∀ n, (targets n).length = n) :
    Follows r (readEach f (targets (r.size mem).1) (r.size mem).2).2 bytes
      (parseSized canonical p bytes) := by
  unfold parseSized
  cases hsize : parseBytes 8 bytes with
  | none =>
    have hlt := parseBytes_eq_none hsize
    have hle := (h.tracks_each (targets (r.size mem).1) (r.size mem).2).head_le
    change r.head + 8 ≤ _ at hle
    change r.head + bytes.length < _
    omega
  | some size =>
    obtain ⟨hlength, rfl⟩ := parseBytes_eq_some.1 hsize
    rw [Holds.append_iff] at hholds
    have hn : (r.size mem).1 = ofBytes size.1 := by
      have hbytes := hholds.1
      rw [Holds, hlength] at hbytes
      rw [Reader.size, Reader.copy, hbytes]
    rw [hlength] at hholds
    have hrest := (h.follows_each (targets (r.size mem).1) size.2 (r.size mem).2 hholds.2).map
      (g := fun items => (items.1, canonical items.1 && items.2))
    rw [htargets, hn] at hrest
    rw [hn]
    revert hrest
    change Follows _ _ _ ((parseEach p (ofBytes size.1) size.2).map _) →
      Follows _ _ _ ((parseEach p (ofBytes size.1) size.2).map _)
    cases parseEach p (ofBytes size.1) size.2 with
    | none =>
      intro hrest
      change r.head + 8 + size.2.length < _ at hrest
      change r.head + (size.1 ++ size.2).length < _
      rw [length_append]
      omega
    | some parsed =>
      obtain ⟨items, c, rest⟩ := parsed
      rintro ⟨used, hused, hhead⟩
      refine ⟨size.1 ++ used, by rw [append_assoc, ← hused], ?_⟩
      rw [hhead, length_append, hlength, ← Nat.add_assoc]
      rfl

variable {canonical : List α → Bool} {insert : α → List α → List α}

theorem sound_sized (h : Agreeing mem f p w ok) {bytes : List UInt8}
    {items : List α} {rest : List UInt8}
    (heq : parseSized canonical p bytes = some (items, true, rest)) :
    SizedOk ok items ∧ canonical items = true ∧ bytes = writeSized w items ++ rest := by
  obtain ⟨⟨size, bytes'⟩, hsize, heq⟩ := bind_eq_some_iff.1 heq
  obtain ⟨⟨items', c, rest'⟩, hitems, heq⟩ := map_eq_some_iff.1 heq
  simp only [Prod.mk.injEq, Bool.and_eq_true] at heq
  obtain ⟨rfl, ⟨hcanonical, rfl⟩, rfl⟩ := heq
  obtain ⟨hlength, rfl⟩ := parseBytes_eq_some.1 hsize
  obtain ⟨hcount, hall, hbytes⟩ := h.sound_each _ _ _ _ hitems
  have hwritten : toBytes 8 items'.length = size := by
    rw [hcount, ← hlength]
    exact toBytes_ofBytes size
  refine ⟨⟨?_, hall⟩, hcanonical, ?_⟩
  · rw [hcount]
    exact fits_ofBytes hlength
  · rw [writeSized, hwritten, append_assoc, ← hbytes]

theorem complete_sized (h : Agreeing mem f p w ok) {items : List α}
    (hok : SizedOk ok items) (hcanonical : canonical items = true) (rest : List UInt8) :
    parseSized canonical p (writeSized w items ++ rest) = some (items, true, rest) := by
  have hsize : parseBytes 8 (toBytes 8 items.length ++ (items.flatMap w ++ rest)) =
      some (toBytes 8 items.length, items.flatMap w ++ rest) :=
    parseBytes_eq_some.2 ⟨length_toBytes _ _, rfl⟩
  rw [parseSized, writeSized, append_assoc, hsize, bind_some, ofBytes_toBytes hok.1,
    h.complete_each items rest hok.2]
  simp [hcanonical]

theorem sized (h : Agreeing mem f p w ok) (make : α) :
    Agreeing mem (readSized mem f make) (parseSized (fun _ => true) p) (writeSized w)
      (SizedOk ok) where
  follows := by
    intro bytes targets r hholds
    exact h.follows_sized hholds _ (resize make targets) (length_resize make targets)
  tracks := by
    intro targets r
    exact (tracks_size r).trans (h.tracks_each _ _)
  sound := fun bytes items rest heq => ⟨(h.sound_sized heq).1, (h.sound_sized heq).2.2⟩
  complete := fun items rest hok => h.complete_sized hok rfl rest
  valid := by
    intro targets r
    obtain ⟨hlength, hall⟩ := h.valid_each (resize make targets (r.size mem).1) (r.size mem).2
    refine ⟨?_, hall⟩
    rw [length_resize] at hlength
    change Fits (readEach f (resize make targets (r.size mem).1) (r.size mem).2).1.length
    rw [hlength]
    exact fits_size r

theorem foldl_valid (hcount : ∀ e entries, (insert e entries).length ≤ entries.length + 1)
    (hmem : ∀ e entries, ∀ e' ∈ insert e entries, e' = e ∨ e' ∈ entries)
    (hinsert : ∀ e entries, canonical entries = true → canonical (insert e entries) = true)
    (records : List α) : ∀ done : List α, (∀ e ∈ records, ok e) → (∀ e ∈ done, ok e) →
    canonical done = true → (records.foldl (fun entries e => insert e entries) done).length ≤
      done.length + records.length ∧
    (∀ e ∈ records.foldl (fun entries e => insert e entries) done, ok e) ∧
    canonical (records.foldl (fun entries e => insert e entries) done) = true := by
  induction records with
  | nil => exact fun done _ hdone hcanonical => ⟨le_rfl, hdone, hcanonical⟩
  | cons e records ih =>
    intro done hrecords hdone hcanonical
    obtain ⟨hle, hok, hcan⟩ := ih (insert e done)
      (fun e' he' => hrecords e' (mem_cons_of_mem _ he'))
      (fun e' he' => (hmem e done e' he').elim
        (fun heq => heq ▸ hrecords e (mem_cons_self ..)) (hdone e'))
      (hinsert e done hcanonical)
    have hone := hcount e done
    refine ⟨?_, hok, hcan⟩
    rw [foldl_cons, length_cons]
    omega

theorem valid_map (h : Agreeing mem f p w ok) (make : α)
    (hcount : ∀ e entries, (insert e entries).length ≤ entries.length + 1)
    (hmem : ∀ e entries, ∀ e' ∈ insert e entries, e' = e ∨ e' ∈ entries)
    (hempty : canonical [] = true)
    (hinsert : ∀ e entries, canonical entries = true → canonical (insert e entries) = true)
    (r : Reader) : SizedOk ok (readMap mem insert f make r).1 ∧
      canonical (readMap mem insert f make r).1 = true := by
  obtain ⟨hlength, hall⟩ := h.valid_each (List.replicate (r.size mem).1 make) (r.size mem).2
  obtain ⟨hle, hok, hcan⟩ :=
    foldl_valid hcount hmem hinsert _ [] hall (fun e he => (nomatch he)) hempty
  have hfits : Fits (r.size mem).1 := fits_size r
  rw [hlength, length_replicate, length_nil] at hle
  have hsize : Fits (List.foldl (fun entries e => insert e entries) []
      (readEach f (List.replicate (r.size mem).1 make) (r.size mem).2).1).length := by
    unfold Fits at hfits ⊢
    omega
  simp only [readMap]
  exact ⟨⟨hsize, hok⟩, hcan⟩

theorem map (h : Agreeing mem f p w ok)
    (make : α) (hcount : ∀ e entries, (insert e entries).length ≤ entries.length + 1)
    (hmem : ∀ e entries, ∀ e' ∈ insert e entries, e' = e ∨ e' ∈ entries)
    (hempty : canonical [] = true)
    (hinsert : ∀ e entries, canonical entries = true → canonical (insert e entries) = true) :
    Agreeing mem (fun _ => readMap mem insert f make) (parseSized canonical p) (writeSized w)
      (fun entries => SizedOk ok entries ∧ canonical entries = true) where
  follows := by
    intro bytes _ r hholds
    simp only [readMap]
    exact h.follows_sized hholds _ (fun n => List.replicate n make) fun _ => length_replicate
  tracks := by
    intro _ r
    simp only [readMap]
    exact (tracks_size r).trans (h.tracks_each _ _)
  sound := by
    intro bytes items rest heq
    obtain ⟨hok, hcanonical, hbytes⟩ := h.sound_sized heq
    exact ⟨⟨hok, hcanonical⟩, hbytes⟩
  complete := fun items rest hok => h.complete_sized hok.1 hok.2 rest
  valid := fun _ r => h.valid_map make hcount hmem hempty hinsert r

theorem pair {g : β → Reader → β × Reader} {q : List UInt8 → Parsed β} {w' : β → List UInt8}
    {ok' : β → Prop} (h : Agreeing mem f p w ok) (h' : Agreeing mem g q w' ok') :
    Agreeing mem (readPair f g) (parsePair p q) (writePair w w') (PairOk ok ok') where
  follows := by
    intro bytes target r hholds
    refine @Follows.andThen mem α (α × β) r (f target.1 r).2 _ bytes (p bytes)
      (fun v c rest => (q rest).map fun second => ((v, second.1), c && second.2.1, second.2.2))
      (h.follows bytes target.1 r hholds) hholds (h'.tracks _ _).head_le fun v c rest hrest => ?_
    exact (h'.follows rest target.2 _ hrest).map (g := fun second => ((v, second.1), c && second.2))
  tracks := by
    intro target r
    exact (h.tracks target.1 r).trans (h'.tracks target.2 _)
  sound := by
    intro bytes v rest heq
    obtain ⟨⟨first, c, rest₁⟩, hfirst, heq⟩ := bind_eq_some_iff.1 heq
    obtain ⟨⟨second, c', rest₂⟩, hsecond, heq⟩ := map_eq_some_iff.1 heq
    simp only [Prod.mk.injEq, Bool.and_eq_true] at heq
    obtain ⟨rfl, ⟨rfl, rfl⟩, rfl⟩ := heq
    obtain ⟨hok, rfl⟩ := h.sound bytes first rest₁ hfirst
    obtain ⟨hok', rfl⟩ := h'.sound rest₁ second rest₂ hsecond
    exact ⟨⟨hok, hok'⟩, by rw [writePair, append_assoc]⟩
  complete := by
    intro v rest hok
    rw [parsePair, writePair, append_assoc, h.complete v.1 _ hok.1, bind_some,
      h'.complete v.2 _ hok.2]
    rfl
  valid := fun target r => ⟨h.valid target.1 r, h'.valid target.2 _⟩

theorem array (h : Agreeing mem f p w ok) (make : α) (length : ℕ) :
    Agreeing mem (fun _ => readArray f make true length) (parseArray p length)
      (fun items => (items.getD []).flatMap w) (ArrayOk ok length) where
  follows := by
    intro bytes _ r hholds
    have hfollows := h.follows_each (List.replicate length make) bytes r hholds
    rw [length_replicate] at hfollows
    exact hfollows.map (g := fun items => (some items.1, items.2))
  tracks := by
    intro _ r
    exact h.tracks_each _ r
  sound := by
    intro bytes v rest heq
    obtain ⟨⟨items, c, rest'⟩, hitems, heq⟩ := map_eq_some_iff.1 heq
    obtain ⟨rfl, rfl, rfl⟩ := heq
    obtain ⟨hlength, hall, hbytes⟩ := h.sound_each _ _ _ _ hitems
    exact ⟨⟨items, rfl, hlength, hall⟩, hbytes⟩
  complete := by
    rintro _ rest ⟨items, rfl, rfl, hall⟩
    rw [parseArray, getD_some, h.complete_each items rest hall]
    rfl
  valid := by
    intro _ r
    obtain ⟨hlength, hall⟩ := h.valid_each (List.replicate length make) r
    rw [length_replicate] at hlength
    exact ⟨_, rfl, hlength, hall⟩

theorem optional (h : Agreeing mem f p w ok) (make : α) :
    Agreeing mem (fun _ => readOptional mem f make) (parseOptional p) (writeOptional w)
      (OptionalOk ok) where
  follows := by
    intro bytes _ r hholds
    unfold parseOptional
    have hle : r.head + 1 ≤ (readOptional mem f make r).2.head := by
      unfold readOptional
      split
      · exact le_rfl
      · exact (h.tracks make (r.copy mem 1).2).head_le
    cases hflag : parseBytes 1 bytes with
    | none =>
      have hlt := parseBytes_eq_none hflag
      change r.head + bytes.length < _
      omega
    | some part =>
      obtain ⟨flag, rest⟩ := part
      obtain ⟨hlength, rfl⟩ := parseBytes_eq_some.1 hflag
      rw [Holds.append_iff, hlength] at hholds
      have hcopy : (r.copy mem 1).1 = flag := by
        have hbytes := hholds.1
        rwa [Holds, hlength] at hbytes
      rw [bind_some, readOptional, hcopy]
      by_cases hzero : ofBytes flag = 0
      · rw [if_pos hzero, if_pos hzero]
        exact ⟨flag, rfl, by rw [hlength]; rfl⟩
      · rw [if_neg hzero, if_neg hzero]
        have hrest := h.follows rest make (r.copy mem 1).2 hholds.2
        revert hrest
        cases p rest with
        | none =>
          intro hrest
          change r.head + 1 + rest.length < (f make (r.copy mem 1).2).2.head at hrest
          change r.head + (flag ++ rest).length < (f make (r.copy mem 1).2).2.head
          rw [length_append]
          omega
        | some parsed =>
          obtain ⟨v, c, rest'⟩ := parsed
          rintro ⟨used, hused, hhead⟩
          refine ⟨flag ++ used, by rw [append_assoc, ← hused], ?_⟩
          rw [hhead, length_append, hlength, ← Nat.add_assoc]
          rfl
  tracks := by
    intro _ r
    simp only [readOptional]
    split
    · exact @tracks_copy mem r 1
    · exact (@tracks_copy mem r 1).trans (h.tracks make _)
  sound := by
    intro bytes v rest hparsed
    obtain ⟨⟨flag, rest₁⟩, hflag, heq⟩ := bind_eq_some_iff.1 hparsed
    obtain ⟨hlength, rfl⟩ := parseBytes_eq_some.1 hflag
    have hbytes := toBytes_ofBytes flag
    rw [hlength] at hbytes
    by_cases hzero : ofBytes flag = 0
    · rw [if_pos hzero] at heq
      cases heq
      refine ⟨fun v hv => (by cases hv), ?_⟩
      rw [writeOptional, ← hbytes, hzero]
    · rw [if_neg hzero] at heq
      obtain ⟨⟨v', c, rest₂⟩, hv', heq⟩ := map_eq_some_iff.1 heq
      simp only [Prod.mk.injEq, Bool.and_eq_true, decide_eq_true_eq] at heq
      obtain ⟨rfl, ⟨hone, rfl⟩, rfl⟩ := heq
      obtain ⟨hok, rfl⟩ := h.sound rest₁ v' rest₂ hv'
      refine ⟨fun v hv => Option.some.inj hv ▸ hok, ?_⟩
      rw [writeOptional, ← hbytes, hone, append_assoc]
  complete := by
    intro v rest hok
    cases v with
    | none => rfl
    | some v =>
      have hflag : parseBytes 1 (toBytes 1 1 ++ (w v ++ rest)) = some (toBytes 1 1, w v ++ rest) :=
        parseBytes_eq_some.2 ⟨length_toBytes _ _, rfl⟩
      have hne : ofBytes (toBytes 1 1) ≠ 0 := by decide
      rw [parseOptional, writeOptional, append_assoc, hflag, bind_some,
        h.complete v rest (hok v rfl)]
      rfl
  valid := by
    intro _ r
    simp only [readOptional]
    split
    · exact fun v hv => by cases hv
    · exact fun v hv => Option.some.inj hv ▸ h.valid make _

end Agreeing

theorem agreeing_char : Agreeing mem (fun _ => readChar mem)
      (fun bytes => (parseScalar 1 bytes).map fun char => (char.1.headD 0, char.2))
      (fun char => [char]) fun _ => True where
  follows := by
    intro bytes _ r hholds
    exact ((agreeing_scalar 1).follows bytes [] r hholds).map
      (g := fun char => (char.1.headD 0, char.2))
  tracks := fun _ r => @tracks_copy mem r 1
  sound := by
    intro bytes v rest heq
    obtain ⟨⟨char, c, rest'⟩, hchar, heq⟩ := map_eq_some_iff.1 heq
    simp only [Prod.mk.injEq] at heq
    obtain ⟨rfl, rfl, rfl⟩ := heq
    obtain ⟨hlength, rfl⟩ := (@agreeing_scalar mem 1).sound bytes char rest' hchar
    obtain ⟨byte, rfl⟩ := length_eq_one_iff.1 hlength
    exact ⟨trivial, rfl⟩
  complete := by
    intro v rest _
    rfl
  valid := fun _ _ => trivial

end Parts

end Quadrants.Serialization
