import Quadrants.Serialization.ParserAgrees

/-!
When nothing outside the data is read, and what is returned is what the data say.
-/

namespace Quadrants.Serialization

open Library.LittleEndian List Prod

section Insert

variable {α β : Type}

theorem length_insertOrdered (less : α → α → Bool) (e : α × β) (entries : List (α × β)) :
    (insertOrdered less e entries).length ≤ entries.length + 1 := by
  induction entries with
  | nil => exact le_rfl
  | cons other entries ih =>
    rw [insertOrdered]
    split
    · exact le_rfl
    · split
      · exact Nat.succ_le_succ ih
      · exact Nat.le_succ _

theorem mem_insertOrdered (less : α → α → Bool) (e : α × β) (entries : List (α × β)) :
    ∀ e' ∈ insertOrdered less e entries, e' = e ∨ e' ∈ entries := by
  induction entries with
  | nil => exact fun e' he' => .inl (List.mem_singleton.1 he')
  | cons other entries ih =>
    intro e' he'
    rw [insertOrdered] at he'
    split at he'
    · exact mem_cons.1 he'
    · split at he'
      · rcases mem_cons.1 he' with rfl | he'
        · exact .inr (mem_cons_self ..)
        · exact (ih e' he').imp_right (mem_cons_of_mem _)
      · exact .inr he'

theorem Ascending.insertOrdered {less : α → α → Bool}
    (htrans : ∀ a b c, less a b = true → less b c = true → less a c = true) (e : α × β)
    {entries : List (α × β)} (h : Ascending less entries) :
    Ascending less (insertOrdered less e entries) := by
  induction entries with
  | nil => exact pairwise_singleton _ _
  | cons other entries ih =>
    obtain ⟨hother, htail⟩ := pairwise_cons.1 h
    rw [Serialization.insertOrdered]
    split
    · rename_i hlt
      refine pairwise_cons.2 ⟨fun e' he' => ?_, h⟩
      rcases mem_cons.1 he' with rfl | he'
      · exact hlt
      · exact htrans _ _ _ hlt (hother e' he')
    · split
      · rename_i hlt
        refine pairwise_cons.2 ⟨fun e' he' => ?_, ih htail⟩
        rcases mem_insertOrdered less e entries e' he' with rfl | he'
        · exact hlt
        · exact hother e' he'
      · exact h

variable [DecidableEq α]

theorem length_insertHashed (e : α × β) (entries : List (α × β)) :
    (insertHashed e entries).length ≤ entries.length + 1 := by
  unfold insertHashed
  split
  · exact Nat.le_succ _
  · rw [length_append, length_singleton]

theorem mem_insertHashed (e : α × β) (entries : List (α × β)) :
    ∀ e' ∈ insertHashed e entries, e' = e ∨ e' ∈ entries := by
  intro e' he'
  unfold insertHashed at he'
  split at he'
  · exact .inr he'
  · exact (List.mem_append.1 he').symm.imp_left List.mem_singleton.1

theorem DistinctKeys.insertHashed (e : α × β) {entries : List (α × β)} (h : DistinctKeys entries) :
    DistinctKeys (insertHashed e entries) := by
  unfold Serialization.insertHashed
  split
  · exact h
  · rename_i hnew
    rw [DistinctKeys, map_append, nodup_append]
    refine ⟨h, nodup_singleton _, fun a ha b hb hab => ?_⟩
    rw [List.mem_singleton.1 hb] at hab
    exact hnew (hab ▸ ha)

end Insert

variable {env : Env}

theorem agreeing_of_isPlain {mem : ℕ → UInt8} : ∀ (t : Ty), t.isPlain = true →
    env.OrdersKeys t →
    Agreeing mem (read env mem t) (parse env t) (write t) (Ok env t) := by
  intro t
  induction t with
  | scalar size => exact fun _ _ => agreeing_scalar size
  | string =>
    intro _ _
    have h := (@agreeing_char mem).sized 0
    exact {
      follows := fun bytes _ r hholds => h.follows bytes [] r hholds
      tracks := fun _ r => h.tracks [] r
      sound := h.sound
      complete := h.complete
      valid := fun _ r => h.valid [] r }
  | array length elem ih =>
    intro hplain hkeys
    obtain ⟨htrivial, hplain⟩ := Bool.and_eq_true_iff.1 hplain
    have h := (ih hplain hkeys).array (env.make elem) length
    rw [← htrivial] at h
    exact h
  | vector elem ih => exact fun hplain hkeys => (ih hplain hkeys).sized (env.make elem)
  | pair first second ihf ihs =>
    intro hplain hkeys
    obtain ⟨hfirst, hsecond⟩ := Bool.and_eq_true_iff.1 hplain
    exact (ihf hfirst hkeys.1).pair (ihs hsecond hkeys.2)
  | field first second ihf ihs =>
    intro hplain hkeys
    obtain ⟨hfirst, hsecond⟩ := Bool.and_eq_true_iff.1 hplain
    exact (ihf hfirst hkeys.1).pair (ihs hsecond hkeys.2)
  | map key value ihk ihv =>
    intro hplain hkeys
    obtain ⟨hkey, hvalue⟩ := Bool.and_eq_true_iff.1 hplain
    have h := @Agreeing.map _ _ _ _ _ _ (fun entries => decide (Ascending (env.less key) entries))
      (insertOrdered (env.less key)) ((ihk hkey hkeys.2.1).pair (ihv hvalue hkeys.2.2))
      (env.make key, env.make value) (length_insertOrdered _) (mem_insertOrdered _)
      (decide_eq_true List.Pairwise.nil)
      fun e entries hentries => decide_eq_true
        ((of_decide_eq_true hentries).insertOrdered hkeys.1.trans e)
    simp only [decide_eq_true_eq] at h
    exact h
  | unorderedMap key value ihk ihv =>
    intro hplain hkeys
    obtain ⟨hkey, hvalue⟩ := Bool.and_eq_true_iff.1 hplain
    have h := @Agreeing.map _ _ _ _ _ _ (fun entries => decide (DistinctKeys entries))
      insertHashed ((ihk hkey hkeys.1).pair (ihv hvalue hkeys.2)) (env.make key, env.make value)
      length_insertHashed mem_insertHashed (decide_eq_true nodup_nil)
      fun e entries hentries => decide_eq_true ((of_decide_eq_true hentries).insertHashed e)
    simp only [decide_eq_true_eq] at h
    exact h
  | optional elem ih =>
    intro hplain hkeys
    exact (ih hplain hkeys).optional (env.make elem)
  | uniquePtr elem ih => exact fun hplain _ => (nomatch hplain)
  | noField =>
    exact fun _ _ => {
      follows := fun _ _ _ _ => ⟨[], rfl, rfl⟩
      tracks := fun _ r => Tracks.refl r
      sound := by
        rintro bytes v rest ⟨⟩
        exact ⟨trivial, rfl⟩
      complete := fun _ _ _ => rfl
      valid := fun _ _ => trivial }

section Reorder

variable {α β : Type}

variable {a b : List α} {ok : α → Prop}

theorem forall_mem_of_forall₂ {same : α → α → Prop}
    (h : List.Forall₂ same a b) (hsame : ∀ v v', same v v' → ok v → ok v')
    (hall : ∀ v ∈ a, ok v) : ∀ v ∈ b, ok v := by
  induction h with
  | nil => exact hall
  | cons hfirst hrest ih =>
    intro v hv
    rcases mem_cons.1 hv with rfl | hv
    · exact hsame _ _ hfirst (hall _ (mem_cons_self ..))
    · exact ih (fun v hv => hall v (mem_cons_of_mem _ hv)) v hv

theorem SizedOk.of_forall₂ {same : α → α → Prop}
    (hok : SizedOk ok a) (h : List.Forall₂ same a b) (hsame : ∀ v v', same v v' → ok v → ok v') :
    SizedOk ok b :=
  ⟨h.length_eq ▸ hok.1, forall_mem_of_forall₂ h hsame hok.2⟩

theorem map_fst_eq {same : β → β → Prop} {a b : List (α × β)}
    (h : List.Forall₂ (fun e e' => e.1 = e'.1 ∧ same e.2 e'.2) a b) : a.map fst = b.map fst := by
  induction h with
  | nil => rfl
  | cons hfirst _ ih => rw [map_cons, map_cons, hfirst.1, ih]

theorem ascending_iff {less : α → α → Bool} {entries : List (α × β)} :
    Ascending less entries ↔ (entries.map fst).Pairwise fun a b => less a b = true :=
  (@pairwise_map _ _ fst (fun a b => less a b = true) entries).symm

theorem SizedOk.of_perm (h : a.Perm b) (hok : SizedOk ok a) : SizedOk ok b :=
  ⟨h.length_eq ▸ hok.1, fun v hv => hok.2 v (h.mem_iff.2 hv)⟩

end Reorder

theorem Reordered.refl : ∀ (t : Ty) (v : t.Val), t.isPlain = true → Ok env t v →
    Reordered t v v := by
  intro t
  induction t with
  | scalar size => exact fun _ _ _ => rfl
  | string => exact fun _ _ _ => rfl
  | array length elem ih =>
    rintro v hplain ⟨items, rfl, -, hitems⟩
    refine ⟨items, items, rfl, rfl, forall₂_same.2 fun item hitem => ?_⟩
    exact ih item (Bool.and_eq_true_iff.1 hplain).2 (hitems item hitem)
  | vector elem ih =>
    exact fun v hplain hok => forall₂_same.2 fun item hitem =>
      ih item hplain (hok.2 item hitem)
  | pair first second ihf ihs =>
    intro v hplain hok
    obtain ⟨hfirst, hsecond⟩ := Bool.and_eq_true_iff.1 hplain
    exact ⟨ihf v.1 hfirst hok.1, ihs v.2 hsecond hok.2⟩
  | field first second ihf ihs =>
    intro v hplain hok
    obtain ⟨hfirst, hsecond⟩ := Bool.and_eq_true_iff.1 hplain
    exact ⟨ihf v.1 hfirst hok.1, ihs v.2 hsecond hok.2⟩
  | map key value _ ihv =>
    intro v hplain hok
    exact forall₂_same.2 fun e he =>
      ⟨rfl, ihv e.2 (Bool.and_eq_true_iff.1 hplain).2 (hok.1.2 e he).2⟩
  | unorderedMap key value _ ihv =>
    intro v hplain hok
    exact ⟨v, List.Perm.refl _, forall₂_same.2 fun e he =>
      ⟨rfl, ihv e.2 (Bool.and_eq_true_iff.1 hplain).2 (hok.1.2 e he).2⟩⟩
  | optional elem ih =>
    intro v hplain hok
    match v with
    | none => exact trivial
    | some v => exact ih v hplain (hok v rfl)
  | uniquePtr elem ih => exact fun _ hplain _ => (nomatch hplain)
  | noField => exact fun _ _ _ => trivial

theorem Reordered.ok : ∀ (t : Ty) (v v' : t.Val), t.isPlain = true → Reordered t v v' →
    Ok env t v → Ok env t v' := by
  intro t
  induction t with
  | scalar size => rintro v _ _ rfl hok; exact hok
  | string => rintro v _ _ rfl hok; exact hok
  | array length elem ih =>
    rintro _ _ hplain ⟨items, items', rfl, rfl, hitems⟩ ⟨l, heq, hlength, hok⟩
    cases heq
    refine ⟨items', rfl, hitems.length_eq ▸ hlength, ?_⟩
    exact forall_mem_of_forall₂ hitems (fun v v' => ih v v' (Bool.and_eq_true_iff.1 hplain).2) hok
  | vector elem ih =>
    exact fun v v' hplain h hok => hok.of_forall₂ h fun v v' => ih v v' hplain
  | pair first second ihf ihs =>
    intro v v' hplain h hok
    obtain ⟨hfirst, hsecond⟩ := Bool.and_eq_true_iff.1 hplain
    exact ⟨ihf _ _ hfirst h.1 hok.1, ihs _ _ hsecond h.2 hok.2⟩
  | field first second ihf ihs =>
    intro v v' hplain h hok
    obtain ⟨hfirst, hsecond⟩ := Bool.and_eq_true_iff.1 hplain
    exact ⟨ihf _ _ hfirst h.1 hok.1, ihs _ _ hsecond h.2 hok.2⟩
  | map key value _ ihv =>
    intro v v' hplain h hok
    refine ⟨hok.1.of_forall₂ h fun e e' he hok => ?_, ?_⟩
    · exact ⟨he.1 ▸ hok.1, ihv _ _ (Bool.and_eq_true_iff.1 hplain).2 he.2 hok.2⟩
    · have hascending := ascending_iff.1 hok.2
      rw [map_fst_eq h] at hascending
      exact ascending_iff.2 hascending
  | unorderedMap key value _ ihv =>
    rintro v v' hplain ⟨l, hperm, h⟩ hok
    refine ⟨(hok.1.of_perm hperm.symm).of_forall₂ h fun e e' he hok => ?_, ?_⟩
    · exact ⟨he.1 ▸ hok.1, ihv _ _ (Bool.and_eq_true_iff.1 hplain).2 he.2 hok.2⟩
    · have hdistinct := (hperm.map fst).nodup_iff.2 hok.2
      rw [map_fst_eq h] at hdistinct
      exact hdistinct
  | optional elem ih =>
    intro v v' hplain h hok
    match v, v', h with
    | none, none, _ => exact hok
    | some v, some v', h => exact fun u hu => Option.some.inj hu ▸ ih v v' hplain h (hok v rfl)
  | uniquePtr elem ih => exact fun _ _ hplain => (nomatch hplain)
  | noField => exact fun _ _ _ _ _ => trivial

section Binary

variable {env : Env} {outside : ℕ → UInt8} {t : Ty} {bytes : List UInt8}

theorem size_memory (h : 8 ≤ bytes.length) :
    Reader.size (memory bytes outside) ⟨0, []⟩ = (ofBytes (bytes.take 8), ⟨8, [(0, 8)]⟩) := by
  have hholds := holds_memory bytes outside
  rw [← take_append_drop 8 bytes, Holds.append_iff, Holds, length_take_of_le h,
    take_append_drop] at hholds
  have hslice := hholds.1
  simp only [Reader.size, Reader.copy, hslice]
  rfl

theorem holds_contents (h : 8 ≤ bytes.length) : Holds (memory bytes outside) 8 (bytes.drop 8) := by
  have hholds := holds_memory bytes outside
  rw [← take_append_drop 8 bytes, Holds.append_iff, length_take_of_le h, take_append_drop] at hholds
  exact hholds.2

def contentsRead (env : Env) (outside : ℕ → UInt8) (t : Ty) (target : t.Val) (bytes : List UInt8) :
    t.Val × Reader :=
  read env (memory bytes outside) t target ⟨8, [(0, 8)]⟩

theorem readFromBinary_of_ne (h : 8 ≤ bytes.length) (hne : ofBytes (bytes.take 8) ≠ bytes.length)
    (target : t.Val) (matchAll : Bool) :
    readFromBinary env outside t target bytes matchAll = ⟨false, target, [(0, 8)]⟩ := by
  rw [readFromBinary, size_memory h]
  simp [hne.symm]

theorem readFromBinary_of_eq (h : 8 ≤ bytes.length) (heq : ofBytes (bytes.take 8) = bytes.length)
    (target : t.Val) (matchAll : Bool) : readFromBinary env outside t target bytes matchAll =
      ⟨if matchAll then (contentsRead env outside t target bytes).2.head = bytes.length
        else (contentsRead env outside t target bytes).2.head ≤ bytes.length,
        (contentsRead env outside t target bytes).1,
        (contentsRead env outside t target bytes).2.reads⟩ := by
  rw [readFromBinary, size_memory h]
  simp only [heq, ne_eq, not_true_eq_false, if_false]
  rfl

theorem header_mem_reads (hplain : t.isPlain = true) (hkeys : env.OrdersKeys t) (target : t.Val)
    (matchAll : Bool) : (0, 8) ∈ (readFromBinary env outside t target bytes matchAll).reads := by
  have hheader : (Reader.size (memory bytes outside) ⟨0, []⟩).2.reads = [(0, 8)] := rfl
  simp only [readFromBinary, hheader]
  split
  · exact List.mem_singleton.2 rfl
  · obtain ⟨reads, hreads, -⟩ := (@agreeing_of_isPlain env (memory bytes outside) t hplain
      hkeys).tracks target ⟨8, [(0, 8)]⟩
    simp only [hreads]
    exact List.mem_append_left _ (List.mem_singleton.2 rfl)

theorem within_iff_head_le (hplain : t.isPlain = true) (hkeys : env.OrdersKeys t)
    (h : 8 ≤ bytes.length) (target : t.Val) :
    (∀ access ∈ (contentsRead env outside t target bytes).2.reads,
      access.1 + access.2 ≤ bytes.length) ↔
    (contentsRead env outside t target bytes).2.head ≤ bytes.length := by
  obtain ⟨reads, hreads, hchain⟩ := (@agreeing_of_isPlain env (memory bytes outside) t hplain
    hkeys).tracks target ⟨8, [(0, 8)]⟩
  have hreads' : (contentsRead env outside t target bytes).2.reads = [(0, 8)] ++ reads := hreads
  have hchain' : Chain 8 reads (contentsRead env outside t target bytes).2.head := hchain
  rw [hreads']
  constructor
  · intro hall
    rcases Nat.lt_or_ge 8 (contentsRead env outside t target bytes).2.head with hlt | hle
    · obtain ⟨access, hmem, hlast⟩ := hchain'.exists_access_eq hlt
      rw [← hlast]
      exact hall access (List.mem_append_right _ hmem)
    · exact hle.trans h
  · intro hle access hmem
    rcases List.mem_append.1 hmem with hmem | hmem
    · rw [List.mem_singleton.1 hmem]
      exact h
    · exact (hchain'.access_le access hmem).trans hle

theorem follows_contents (hplain : t.isPlain = true) (hkeys : env.OrdersKeys t)
    (h : 8 ≤ bytes.length) (target : t.Val) :
    Follows ⟨8, [(0, 8)]⟩ (contentsRead env outside t target bytes).2 (bytes.drop 8)
      (parse env t (bytes.drop 8)) :=
  (@agreeing_of_isPlain env (memory bytes outside) t hplain hkeys).follows (bytes.drop 8) target
    ⟨8, [(0, 8)]⟩ (holds_contents h)

theorem lt_head_of_parse_eq_none (hplain : t.isPlain = true) (hkeys : env.OrdersKeys t)
    (h : 8 ≤ bytes.length) (target : t.Val) (hparse : parse env t (bytes.drop 8) = none) :
    bytes.length < (contentsRead env outside t target bytes).2.head := by
  have hfollows := @follows_contents env outside t bytes hplain hkeys h target
  rw [hparse] at hfollows
  change 8 + (bytes.drop 8).length < _ at hfollows
  rwa [length_drop, Nat.add_sub_cancel' h] at hfollows

theorem head_of_parse_eq_some (hplain : t.isPlain = true) (hkeys : env.OrdersKeys t)
    (h : 8 ≤ bytes.length) (target : t.Val) {v : t.Val} {c : Bool} {rest : List UInt8}
    (hparse : parse env t (bytes.drop 8) = some (v, c, rest)) :
    (contentsRead env outside t target bytes).2.head + rest.length = bytes.length := by
  have hfollows := @follows_contents env outside t bytes hplain hkeys h target
  rw [hparse] at hfollows
  obtain ⟨used, hbytes, hhead⟩ := hfollows
  have hlength := congrArg List.length hbytes
  rw [length_drop, length_append] at hlength
  rw [hhead]
  change 8 + used.length + rest.length = bytes.length
  omega

theorem value_of_parse_eq_some (hplain : t.isPlain = true) (hlegal : t.isLegal = true)
    (hkeys : env.OrdersKeys t) (h : 8 ≤ bytes.length) (target : t.Val) {v : t.Val}
    {rest : List UInt8} (hparse : parse env t (bytes.drop 8) = some (v, true, rest)) :
    (contentsRead env outside t target bytes).1 = v := by
  obtain ⟨hok, hbytes⟩ := (@agreeing_of_isPlain env (memory bytes outside) t hplain hkeys).sound
    (bytes.drop 8) v rest hparse
  have hholds := @holds_contents outside bytes h
  rw [hbytes, Holds.append_iff] at hholds
  have hread := (read_of_holds t hlegal hkeys v hok target ⟨8, [(0, 8)]⟩ hholds.1).1
  rw [restore_of_isPlain env t hplain v target hok] at hread
  exact hread

theorem writeToBinary_eq (h : 8 ≤ bytes.length) (heq : ofBytes (bytes.take 8) = bytes.length)
    {v : t.Val} (hbytes : bytes.drop 8 = write t v) : writeToBinary t v = bytes := by
  have hlength : 8 + (write t v).length = bytes.length := by
    rw [← hbytes, length_drop, Nat.add_sub_cancel' h]
  have hheader := toBytes_ofBytes (bytes.take 8)
  rw [length_take_of_le h, heq] at hheader
  rw [writeToBinary, hlength, hheader, ← hbytes, take_append_drop]

theorem drop_writeToBinary (v : t.Val) : (writeToBinary t v).drop 8 = write t v :=
  drop_left' (length_toBytes 8 _)

theorem safeRead_iff_framed (hplain : t.isPlain = true) (hlegal : t.isLegal = true)
    (hkeys : env.OrdersKeys t) (target : t.Val) :
    SafeRead env outside t target bytes ↔ Framed env t bytes := by
  have hagree := @agreeing_of_isPlain env (memory bytes outside) t hplain hkeys
  by_cases h : 8 ≤ bytes.length
  · by_cases heq : ofBytes (bytes.take 8) = bytes.length
    · have hwithin := @within_iff_head_le env outside t bytes hplain hkeys h target
      simp only [SafeRead, Framed, readFromBinary_of_eq h heq, hwithin, if_true, decide_eq_true_eq]
      cases hparse : parse env t (bytes.drop 8) with
      | none =>
        have hlt := @lt_head_of_parse_eq_none env outside t bytes hplain hkeys h target hparse
        constructor
        · exact fun hsafe => absurd hsafe.1 (not_le.2 hlt)
        · rintro ⟨-, hne | ⟨v, c, rest, ⟨⟩, -⟩⟩
          exact absurd heq hne
      | some part =>
        obtain ⟨v, c, rest⟩ := part
        have hhead := @head_of_parse_eq_some env outside t bytes hplain hkeys h target v c rest
          hparse
        constructor
        · rintro ⟨-, hvalue⟩
          refine ⟨h, .inr ⟨v, c, rest, rfl, fun hrest => ?_⟩⟩
          rw [hrest] at hhead
          obtain ⟨v', hreordered, hwritten⟩ := hvalue hhead
          have hok := Reordered.ok t _ v' hplain hreordered (hagree.valid target ⟨8, [(0, 8)]⟩)
          have hcomplete := hagree.complete v' [] hok
          rw [append_nil, ← drop_writeToBinary, hwritten, hparse] at hcomplete
          cases hcomplete
          rfl
        · rintro ⟨-, hne | ⟨v', c', rest', hsome, hcanonical⟩⟩
          · exact absurd heq hne
          · cases hsome
            refine ⟨by omega, fun hend => ?_⟩
            have hrest : rest = [] := eq_nil_of_length_eq_zero (by omega)
            rw [hcanonical hrest, hrest] at hparse
            obtain ⟨hok, hbytes⟩ := hagree.sound (bytes.drop 8) v [] hparse
            rw [append_nil] at hbytes
            refine ⟨v, ?_, writeToBinary_eq h heq hbytes⟩
            rw [value_of_parse_eq_some hplain hlegal hkeys h target hparse]
            exact Reordered.refl t v hplain hok
    · simp only [SafeRead, Framed, readFromBinary_of_ne h heq]
      constructor
      · exact fun _ => ⟨h, .inl heq⟩
      · refine fun _ => ⟨fun access hmem => ?_, fun hfalse => (nomatch hfalse)⟩
        rw [List.mem_singleton.1 hmem]
        exact h
  · constructor
    · exact fun hsafe => absurd (hsafe.1 (0, 8) (header_mem_reads hplain hkeys target true)) h
    · exact fun hframed => absurd hframed.1 h

end Binary

end Quadrants.Serialization

/-!
Corrupt data: what `read_from_binary` and `load_metadata_with_checking` make of them.
-/

namespace Quadrants.Serialization

open Library.LittleEndian

theorem parseEach_canonical {α : Type} {f : List UInt8 → Parsed α}
    (hf : ∀ bytes v c rest, f bytes = some (v, c, rest) → c = true) (n : ℕ) :
    ∀ bytes items c rest, parseEach f n bytes = some (items, c, rest) → c = true := by
  induction n with
  | zero => rintro bytes items c rest ⟨⟩; rfl
  | succ n ih =>
    intro bytes items c rest heq
    obtain ⟨⟨first, c₁, rest₁⟩, hfirst, hbind⟩ := Option.bind_eq_some_iff.1 heq
    obtain ⟨⟨items', c₂, rest₂⟩, hitems, hmap⟩ := Option.map_eq_some_iff.1 hbind
    cases hmap
    exact Bool.and_eq_true_iff.2 ⟨hf _ _ _ _ hfirst, ih _ _ _ _ hitems⟩

theorem parseScalar_canonical (n : ℕ) (bytes v : List UInt8) (c : Bool) (rest : List UInt8)
    (h : parseScalar n bytes = some (v, c, rest)) : c = true := by
  obtain ⟨part, -, heq⟩ := Option.map_eq_some_iff.1 h
  cases heq
  rfl

theorem parse_version_canonical {env : Env} {bytes : List UInt8} {ver : versionTy.Val} {c : Bool}
    {rest : List UInt8} (h : parse env versionTy bytes = some (ver, c, rest)) : c = true := by
  obtain ⟨⟨items, c', rest'⟩, hitems, heq⟩ := Option.map_eq_some_iff.1 h
  cases heq
  exact parseEach_canonical (fun bytes v c rest => parseScalar_canonical 2 bytes v c rest) 3 _ _ _ _
    hitems

section Load

variable {env : Env} {outside : ℕ → UInt8} {kernel : Ty} {bytes : List UInt8}

def readVersion (env : Env) (outside : ℕ → UInt8) (bytes : List UInt8) : Outcome versionTy.Val :=
  readFromBinary env outside versionTy (some (List.replicate 3 [0, 0])) bytes false

theorem safeLoad_of_not_success (h : (readVersion env outside bytes).success = false)
    (version : versionTy.Val) (result : (metadataTy kernel).Val) :
    SafeLoad env outside version kernel result bytes ↔
      ∀ access ∈ (readVersion env outside bytes).reads, access.1 + access.2 ≤ bytes.length := by
  unfold readVersion at h
  simp only [SafeLoad, loadMetadataWithChecking, h, if_true]
  exact ⟨fun hsafe => hsafe.1, fun hreads => ⟨hreads, fun hnone => (nomatch hnone)⟩⟩

theorem safeLoad_of_success (h : (readVersion env outside bytes).success = true)
    (hreads : ∀ access ∈ (readVersion env outside bytes).reads, access.1 + access.2 ≤ bytes.length)
    (version : versionTy.Val) (result : (metadataTy kernel).Val) :
    SafeLoad env outside version kernel result bytes ↔
      ((readVersion env outside bytes).value = version →
        SafeRead env outside (metadataTy kernel) result bytes) := by
  unfold readVersion at h hreads ⊢
  simp only [SafeLoad, loadMetadataWithChecking, h, Bool.true_eq_false, if_false]
  by_cases hversion : (readFromBinary env outside versionTy (some (List.replicate 3 [0, 0])) bytes
      false).value = version
  · simp only [hversion, ne_eq, not_true_eq_false, if_false, true_implies, SafeRead]
    constructor
    · refine fun hsafe => ⟨fun access hmem => hsafe.1 access (List.mem_append_right _ hmem), ?_⟩
      intro hsuccess
      exact hsafe.2 (by rw [hsuccess]; rfl)
    · rintro ⟨hwithin, hvalue⟩
      refine ⟨fun access hmem => ?_, fun hnone => hvalue ?_⟩
      · exact (List.mem_append.1 hmem).elim (hreads access) (hwithin access)
      · by_contra hfailed
        rw [if_neg hfailed] at hnone
        cases hnone
  · simp only [hversion, ne_eq, not_false_eq_true, if_true, false_implies, iff_true]
    exact ⟨hreads, fun hnone => (nomatch hnone)⟩

theorem readVersion_reads_mem {access : ℕ × ℕ}
    (h : access ∈ (readVersion env outside bytes).reads) (version : versionTy.Val)
    (result : (metadataTy kernel).Val) :
    access ∈ (loadMetadataWithChecking env outside version kernel result bytes).reads := by
  simp only [loadMetadataWithChecking]
  split
  · exact h
  · split
    · exact h
    · exact List.mem_append_left _ h

theorem safeLoad_of_eq (h : 8 ≤ bytes.length) (heq : ofBytes (bytes.take 8) = bytes.length)
    (version : versionTy.Val) (result : (metadataTy kernel).Val) :
    SafeLoad env outside version kernel result bytes ↔
      ∃ ver canonical rest, parse env versionTy (bytes.drop 8) = some (ver, canonical, rest) ∧
        (ver ≠ version ∨ SafeRead env outside (metadataTy kernel) result bytes) := by
  have hwithin := @within_iff_head_le env outside versionTy bytes rfl trivial h
    (some (List.replicate 3 [0, 0]))
  have hread := @readFromBinary_of_eq env outside versionTy bytes h heq
    (some (List.replicate 3 [0, 0])) false
  have hreads : (readVersion env outside bytes).reads = (contentsRead env outside versionTy
      (some (List.replicate 3 [0, 0])) bytes).2.reads := by
    simp only [readVersion, hread]
  cases hparse : parse env versionTy (bytes.drop 8) with
  | none =>
    have hlt := @lt_head_of_parse_eq_none env outside versionTy bytes rfl trivial h
      (some (List.replicate 3 [0, 0])) hparse
    have hfailed : (readVersion env outside bytes).success = false := by
      simp only [readVersion, hread]
      exact decide_eq_false (not_le.2 hlt)
    rw [safeLoad_of_not_success hfailed, hreads, hwithin]
    constructor
    · exact fun hle => absurd hle (not_le.2 hlt)
    · rintro ⟨ver, c, rest, ⟨⟩, -⟩
  | some part =>
    obtain ⟨ver, c, rest⟩ := part
    obtain rfl := parse_version_canonical hparse
    have hhead := @head_of_parse_eq_some env outside versionTy bytes rfl trivial h
      (some (List.replicate 3 [0, 0])) ver true rest hparse
    have hvalue := @value_of_parse_eq_some env outside versionTy bytes rfl rfl trivial h
      (some (List.replicate 3 [0, 0])) ver rest hparse
    have hsuccess : (readVersion env outside bytes).success = true := by
      simp only [readVersion, hread]
      exact decide_eq_true (by omega)
    have hver : (readVersion env outside bytes).value = ver := by
      simp only [readVersion, hread, hvalue]
    rw [safeLoad_of_success hsuccess (hreads ▸ hwithin.2 (by omega)), hver]
    constructor
    · exact fun hsafe => ⟨ver, true, rest, rfl, (em (ver = version)).symm.imp_right hsafe⟩
    · rintro ⟨ver', c, rest', hsome, hsafe⟩ hsame
      cases hsome
      exact hsafe.resolve_left (not_not.2 hsame)

theorem safeLoad_iff_framedLoad (hplain : kernel.isPlain = true) (hlegal : kernel.isLegal = true)
    (hkeys : env.OrdersKeys kernel) (version : versionTy.Val) (result : (metadataTy kernel).Val) :
    SafeLoad env outside version kernel result bytes ↔ FramedLoad env version kernel bytes := by
  have hmetadata := @safeRead_iff_framed env outside (metadataTy kernel) bytes
    (by simp [Ty.isPlain, Ty.isTrivial, hplain]) (by simp [Ty.isPlain, Ty.isLegal, Ty.hasUnordered,
      hlegal]) ⟨trivial, trivial, ⟨trivial, hkeys⟩, trivial⟩ result
  by_cases h : 8 ≤ bytes.length
  · by_cases heq : ofBytes (bytes.take 8) = bytes.length
    · rw [safeLoad_of_eq h heq, hmetadata]
      constructor
      · exact fun hsafe => ⟨h, .inr hsafe⟩
      · exact fun hframed => hframed.2.resolve_left (not_not.2 heq)
    · have hread := @readFromBinary_of_ne env outside versionTy bytes h heq
        (some (List.replicate 3 [0, 0])) false
      have hfailed : (readVersion env outside bytes).success = false := by
        simp only [readVersion, hread]
      rw [safeLoad_of_not_success hfailed]
      simp only [readVersion, hread]
      constructor
      · exact fun _ => ⟨h, .inl heq⟩
      · intro _ access hmem
        rw [List.mem_singleton.1 hmem]
        exact h
  · have hheader : (0, 8) ∈ (readVersion env outside bytes).reads :=
      @header_mem_reads env outside versionTy bytes rfl trivial _ false
    constructor
    · exact fun hsafe => absurd (hsafe.1 _ (readVersion_reads_mem hheader version result)) h
    · exact fun hframed => absurd hframed.1 h

end Load

abbrev recordTy : Ty :=
  .field .string (.field (.optional (.scalar 4)) .noField)

end Quadrants.Serialization
