import Quadrants.FastCache.Legible

namespace Quadrants.FastCache

open Quadrants.Library.Decoding List
open Quadrants.Library.StatefulLoops

section words

theorem Name.clear (name name' : Name) {c : Char} (hc : isIdentChar c = false) :
    Clear (· = c) name.text name'.text := by
  apply clear_of_forall
  · rintro d hd rfl
    rw [name.ident d hd] at hc
    cases hc
  · rintro d hd rfl
    rw [name'.ident d hd] at hc
    cases hc

theorem name_colon_inj {name name' : Name} {x x' : Text}
    (h : name.text ++ (":".toList ++ x) = name'.text ++ (":".toList ++ x')) :
    name = name' ∧ x = x' := by
  obtain ⟨htext, hx⟩ := (Name.clear name name' (c := ':') (by decide)).append_inj
    (show StartsIn (· = ':') (":".toList ++ x) from rfl)
    (show StartsIn (· = ':') (":".toList ++ x') from rfl) h
  refine ⟨?_, (List.cons.inj hx).2⟩
  cases name'
  cases htext
  rfl

def isFirst (c : Char) : Prop := c = '[' ∨ c = '<' ∨ c = 'n' ∨ c = 'e' ∨ c = 'N'

variable {raiseOnTemplatedFloats : Bool} {s : Text}

variable {f : Field} {isTemplate : Bool} {l : Leaf} {p : Path} {pruningPaths : List Text}

theorem Leaf.startsIn_first
    (h : l.stringify raiseOnTemplatedFloats isTemplate = .ok s) : StartsIn isFirst s := by
  cases l with
  | scalarNdarray dtype ndim layout grad =>
    cases h
    exact Or.inl rfl
  | vectorNdarray n dtype ndim layout grad =>
    cases h
    exact Or.inl rfl
  | matrixNdarray m n dtype ndim layout grad =>
    cases h
    exact Or.inl rfl
  | torchTensor dtype ndim =>
    cases h
    exact Or.inl rfl
  | numpyArray dtype ndim =>
    cases h
    exact Or.inl rfl
  | number cls isFloat value =>
    simp only [Leaf.stringify] at h
    split_ifs at h <;> cases h <;> exact Or.inr (Or.inl rfl)
  | npBool value =>
    simp only [Leaf.stringify] at h
    split_ifs at h <;> cases h <;> exact Or.inr (Or.inr (Or.inl rfl))
  | enumMember cls name value =>
    cases h
    exact Or.inr (Or.inr (Or.inr (Or.inl rfl)))
  | none =>
    cases h
    exact Or.inr (Or.inr (Or.inr (Or.inr rfl)))
  | field => cases h
  | unknown cls => cases h

theorem Leaf.bracket
    (h : l.stringify raiseOnTemplatedFloats isTemplate = .ok s) (hs : StartsIn (· = '[') s) :
    ∃ (word : Name) (r : Text), s = '[' :: (word.text ++ '-' :: r) := by
  cases l with
  | scalarNdarray dtype ndim layout grad =>
    cases h
    refine ⟨⟨"nd".toList, by decide, by decide⟩, ?_, ?_⟩
    rotate_left
    · rfl
  | vectorNdarray n dtype ndim layout grad =>
    cases h
    refine ⟨⟨"ndv".toList, by decide, by decide⟩, ?_, ?_⟩
    rotate_left
    · rfl
  | matrixNdarray m n dtype ndim layout grad =>
    cases h
    refine ⟨⟨"ndm".toList, by decide, by decide⟩, ?_, ?_⟩
    rotate_left
    · rfl
  | torchTensor dtype ndim =>
    cases h
    refine ⟨⟨"pt".toList, by decide, by decide⟩, ?_, ?_⟩
    rotate_left
    · rfl
  | numpyArray dtype ndim =>
    cases h
    refine ⟨⟨"np".toList, by decide, by decide⟩, ?_, ?_⟩
    rotate_left
    · rfl
  | number cls isFloat value =>
    simp only [Leaf.stringify] at h
    split_ifs at h <;> cases h <;> cases hs
  | npBool value =>
    simp only [Leaf.stringify] at h
    split_ifs at h <;> cases h <;> cases hs
  | enumMember cls name value =>
    cases h
    cases hs
  | none =>
    cases h
    cases hs
  | field => cases h
  | unknown cls => cases h

def fieldsTail : List Text → Text → Text
  | [], x => ']' :: x
  | f :: fs, x => ',' :: (f ++ fieldsTail fs x)

def fieldsBody : List Text → Text → Text
  | [], x => ']' :: x
  | f :: fs, x => f ++ fieldsTail fs x

theorem flatMap_fieldsTail (fs : List Text) (x : Text) :
    fs.flatMap (",".toList ++ ·) ++ ("]".toList ++ x) = fieldsTail fs x := by
  induction fs with
  | nil => rfl
  | cons f fs ih =>
    rw [flatMap_cons, append_assoc, ih, fieldsTail]
    rfl

theorem bracket_eq (fs : List Text) (x : Text) :
    "[".toList ++ List.intercalate ",".toList fs ++ "]".toList ++ x = '[' :: fieldsBody fs x := by
  cases fs with
  | nil => rfl
  | cons f fs =>
    rw [intercalate_cons, append_assoc, append_assoc, append_assoc, flatMap_fieldsTail]
    rfl

theorem fieldsTail_startsIn (fs : List Text) (x : Text) :
    StartsIn isFieldEnd (fieldsTail fs x) := by
  cases fs with
  | nil => exact Or.inr rfl
  | cons f fs => exact Or.inl rfl

theorem Name.startsIn_ident (name : Name) : StartsIn (fun c => isIdentChar c = true) name.text := by
  cases htext : name.text with
  | nil => exact absurd htext name.nonempty
  | cons c r =>
    apply name.ident c
    rw [htext]
    exact mem_cons_self

theorem FieldText.startsIn (h : FieldText raiseOnTemplatedFloats pruningPaths p f s) :
    StartsIn (fun c => isIdentChar c = true) s := by
  cases h with
  | final key name value => exact name.startsIn_ident.append _
  | child _ _ => exact (Name.startsIn_ident _).append _

theorem FieldText.ne_bracket (h : FieldText raiseOnTemplatedFloats pruningPaths p f s) (word : Name)
    (x r : Text) : s ++ x ≠ word.text ++ '-' :: r := by
  have hname : ∀ (name : Name) (y : Text), name.text ++ (":".toList ++ y) ≠ word.text ++ '-' :: r := by
    intro name y heq
    have hclear : Clear (fun c => c = ':' ∨ c = '-') name.text word.text := by
      apply clear_of_forall
      · rintro c hc (rfl | rfl) <;> exact absurd (name.ident _ hc) (by decide)
      · rintro c hc (rfl | rfl) <;> exact absurd (word.ident _ hc) (by decide)
    have hend := (hclear.append_inj
      (show StartsIn (fun c => c = ':' ∨ c = '-') (":".toList ++ y) from Or.inl rfl)
      (show StartsIn (fun c => c = ':' ∨ c = '-') ('-' :: r) from Or.inr rfl) heq).2
    exact absurd (List.cons.inj hend).1 (by decide)
  cases h with
  | final key name value =>
    rw [append_assoc]
    exact hname name _
  | child _ _ =>
    rw [append_assoc]
    exact hname _ _

end words

section readBack

variable {sig : Signature} {A : Set (List Obj)} {raiseOnTemplatedFloats : Bool}

/-- What may follow the text of an object: a nest goes on as long as a comma follows. -/
def Obj.follow : Obj → Char → Prop
  | .dataOriented _ _ => isNestEnd
  | _ => isSep

/-- The object `o` stands at `p` in the arguments, has the text `s`, and `x` follows. -/
structure Stands (sig : Signature) (A : Set (List Obj)) (raiseOnTemplatedFloats : Bool)
    (pruningPaths : List Text) (p : Path) (isTemplate : Bool) (o : Obj) (s x : Text) : Prop where
  place : ∃ args ∈ A, ∃ h, lookupPath args sig.argMetas p = some h ∧
    h.object? = some (isTemplate, o)
  wf : o.WF
  text : stringifyObjType raiseOnTemplatedFloats pruningPaths (flatName p) isTemplate o = .ok s
  follow : StartsIn o.follow x

def ReadsBack (sig : Signature) (A : Set (List Obj)) (raiseOnTemplatedFloats : Bool) (n : ℕ) :
    Prop :=
  ∀ {p t t' o o' pruningPaths pruningPaths' s s' x x'},
    Stands sig A raiseOnTemplatedFloats pruningPaths p t o s x →
    Stands sig A raiseOnTemplatedFloats pruningPaths' p t' o' s' x' → sizeOf o < n →
    s ++ x = s' ++ x' →
      o.observe t = o'.observe t' ∧ o.visits pruningPaths p = o'.visits pruningPaths' p ∧ x = x'

variable {o : Obj} {p : Path} {pruningPaths : List Text} {s x : Text} {t : Bool}

theorem Stands.at
    (h : Stands sig A raiseOnTemplatedFloats pruningPaths p t o s x) : At sig A p t o := by
  obtain ⟨args, hargs, held, hp, ho⟩ := h.place
  exact ⟨held, ⟨args, hargs, hp⟩, ho⟩

theorem Stands.path_ne_nil
    (h : Stands sig A raiseOnTemplatedFloats pruningPaths p t o s x) : p ≠ [] := by
  obtain ⟨args, _, held, hp, _⟩ := h.place
  rintro rfl
  cases hp

theorem text_startsIn {flat : Text}
    (h : stringifyObjType raiseOnTemplatedFloats pruningPaths flat t o = .ok s)
    (ho : ∀ cls members, o ≠ .dataOriented cls members) : StartsIn isFirst s := by
  cases o with
  | leaf l =>
    exact Leaf.startsIn_first h
  | dataclass cls fields =>
    simp only [stringifyObjType, bind_eq_ok, pure_eq_ok] at h
    obtain ⟨reprs, _, rfl⟩ := h
    exact Or.inl rfl
  | dataOriented cls members => exact absurd rfl (ho cls members)

theorem not_isFirst_d : ¬ isFirst 'd' := by
  rintro (h | h | h | h | h) <;> revert h <;> decide

theorem Spelled.startsIn {es : List Entry} {u : Text}
    (h : Spelled raiseOnTemplatedFloats pruningPaths es u) (hx : StartsIn isNestEnd x) :
    StartsIn isSep (u ++ x) := by
  cases h with
  | nil => exact hx.mono fun c hc => Or.inr hc
  | cons _ _ => exact Or.inl rfl

section nest

variable {n : ℕ} {pruningPaths pruningPaths' : List Text} {args args' : List Obj} {r : Path}

variable {e : Entry} {x : Text}

variable {h x' : Text}

theorem Entry.head_eq_ok (hh : e.head pruningPaths raiseOnTemplatedFloats = .ok h) :
    (∃ cls members, e.value = .dataOriented cls members ∧ h = "da".toList ∧
      e.visits pruningPaths = [(e.path, .dataOriented cls)]) ∨
    ((∀ cls members, e.value ≠ .dataOriented cls members) ∧
      stringifyObjType raiseOnTemplatedFloats pruningPaths (flatName e.path) e.isTemplate e.value =
        .ok h ∧
      e.visits pruningPaths = (e.path, e.value.observe e.isTemplate) ::
        e.value.visits pruningPaths e.path) := by
  obtain ⟨parent, name, isTemplate, value⟩ := e
  cases value with
  | leaf l => exact Or.inr ⟨fun _ _ => Obj.noConfusion, hh, rfl⟩
  | dataclass cls fields => exact Or.inr ⟨fun _ _ => Obj.noConfusion, hh, rfl⟩
  | dataOriented cls members => exact Or.inl ⟨cls, members, rfl, (Except.ok.inj hh).symm, rfl⟩

theorem EntryPlace.stands (hargs : args ∈ A) (h : EntryPlace sig A args r e) {s : Text}
    (hs : stringifyObjType raiseOnTemplatedFloats pruningPaths (flatName e.path) e.isTemplate
      e.value = .ok s)
    (ho : ∀ cls members, e.value ≠ .dataOriented cls members) (hx : StartsIn isSep x) :
    Stands sig A raiseOnTemplatedFloats pruningPaths e.path e.isTemplate e.value s x := by
  refine ⟨⟨args, hargs, _, h.lookup, rfl⟩, h.wf, hs, ?_⟩
  cases hv : e.value with
  | leaf l => exact hx
  | dataclass cls fields => exact hx
  | dataOriented cls members => exact absurd hv (ho cls members)

theorem EntryPlace.at (hargs : args ∈ A) (h : EntryPlace sig A args r e) :
    At sig A e.path e.isTemplate e.value := ⟨_, ⟨args, hargs, h.lookup⟩, rfl⟩

theorem entry_inj (hA : Legible sig A) (ih : ReadsBack sig A raiseOnTemplatedFloats n)
    (hargs : args ∈ A) (hargs' : args' ∈ A) {e' : Entry} {h' : Text}
    (hh : e.head pruningPaths raiseOnTemplatedFloats = .ok h)
    (hh' : e'.head pruningPaths' raiseOnTemplatedFloats = .ok h')
    (hplace : EntryPlace sig A args r e) (hsize : sizeOf e.value < n)
    (hplace' : EntryPlace sig A args' r e') (hx : StartsIn isSep x) (hx' : StartsIn isSep x')
    (heq : e.name.text ++ (": ".toList ++ (h ++ x)) = e'.name.text ++ (": ".toList ++ (h' ++ x'))) :
    e.visits pruningPaths = e'.visits pruningPaths' ∧ x = x' := by
  obtain ⟨hname, htail⟩ := name_colon_inj heq
  have hpath : e.path = e'.path := by
    apply hA.place hplace.nest hplace'.nest
    rw [Entry.path, hname]
    rfl
  have htail : h ++ x = h' ++ x' := (List.cons.inj htail).2
  rcases Entry.head_eq_ok hh with ⟨c, ms, hv, rfl, hvisits⟩ | ⟨hv, htext, hvisits⟩
  · rcases Entry.head_eq_ok hh' with ⟨c', ms', hv', rfl, hvisits'⟩ | ⟨hv', htext', hvisits'⟩
    · have hat := hplace.at hargs
      have hat' := hplace'.at hargs'
      rw [hv] at hat
      rw [hv', ← hpath] at hat'
      rw [hvisits, hvisits', hpath, hA.dataOriented hat hat']
      exact ⟨rfl, append_cancel_left htail⟩
    · obtain ⟨_, rfl, hc⟩ := StartsIn.of_append_eq
        (show StartsIn (· = 'd') "da".toList from rfl) (text_startsIn htext' hv') htail
      exact absurd hc not_isFirst_d
  · rcases Entry.head_eq_ok hh' with ⟨c', ms', hv', rfl, hvisits'⟩ | ⟨hv', htext', hvisits'⟩
    · obtain ⟨_, rfl, hc⟩ := StartsIn.of_append_eq
        (show StartsIn (· = 'd') "da".toList from rfl) (text_startsIn htext hv) htail.symm
      exact absurd hc not_isFirst_d
    · have hstands' := hplace'.stands hargs' htext' hv' hx'
      rw [← hpath] at hstands'
      obtain ⟨hobs, hbelow, hrest⟩ := ih (hplace.stands hargs htext hv hx) hstands' hsize htail
      rw [hvisits, hvisits', ← hpath, hobs, hbelow]
      exact ⟨rfl, hrest⟩

theorem entries_inj (hA : Legible sig A) (ih : ReadsBack sig A raiseOnTemplatedFloats n)
    (hargs : args ∈ A) (hargs' : args' ∈ A) {es es' : List Entry} {u u' : Text}
    (hu : Spelled raiseOnTemplatedFloats pruningPaths es u)
    (hu' : Spelled raiseOnTemplatedFloats pruningPaths' es' u')
    (hplace : ∀ e ∈ es, EntryPlace sig A args r e ∧ sizeOf e.value < n)
    (hplace' : ∀ e ∈ es', EntryPlace sig A args' r e)
    (hx : StartsIn isNestEnd x) (hx' : StartsIn isNestEnd x') (heq : u ++ x = u' ++ x') :
    es.flatMap (Entry.visits pruningPaths) = es'.flatMap (Entry.visits pruningPaths') ∧
      x = x' := by
  have hcomma : ¬ isNestEnd ',' := by
    rintro (h | h) <;> revert h <;> decide
  induction hu generalizing es' u' with
  | nil =>
    cases hu' with
    | nil => exact ⟨rfl, heq⟩
    | cons _ _ =>
      rw [nil_append] at heq
      rw [heq] at hx
      exact absurd hx hcomma
  | @cons e es h u hhead hrest ihes =>
    cases hu' with
    | nil =>
      rw [nil_append] at heq
      rw [← heq] at hx'
      exact absurd hx' hcomma
    | @cons e' es' h' u' hhead' hrest' =>
      rw [forall_mem_cons] at hplace hplace'
      simp only [append_assoc] at heq
      obtain ⟨hvisits, htail⟩ := entry_inj hA ih hargs hargs' hhead hhead' hplace.1.1 hplace.1.2
        hplace'.1 (hrest.startsIn hx) (hrest'.startsIn hx') (append_cancel_left heq)
      obtain ⟨hothers, hend⟩ := ihes hrest' hplace.2 hplace'.2 htail
      rw [flatMap_cons, hvisits, hothers]
      exact ⟨rfl, hend⟩

end nest

section fields

variable {n : ℕ} {pruningPaths pruningPaths' : List Text} {args args' : List Obj} {p : Path}

theorem not_isFieldEnd_space : ¬ isFieldEnd ' ' := by
  rintro (h | h) <;> revert h <;> decide

variable {f : Field} {s : Text}

theorem text_not_final {flat : Text} {t : Bool} {o : Obj} (hflat : flat = flatName p)
    (hp : p ≠ []) (h : stringifyObjType raiseOnTemplatedFloats pruningPaths flat t o = .ok s)
    (x y : Text) : "final) = ".toList ++ x ≠ s ++ y := by
  intro heq
  have hfirst : StartsIn (fun c => isFirst c ∨ c = 'd') s := by
    cases o with
    | leaf l => exact (text_startsIn h fun _ _ => Obj.noConfusion).mono fun c => Or.inl
    | dataclass c fields => exact (text_startsIn h fun _ _ => Obj.noConfusion).mono fun c => Or.inl
    | dataOriented c members =>
      rw [hflat] at h
      obtain ⟨u, rfl, _⟩ := Obj.spelled _ _ hp t _ s h c members rfl
      exact Or.inr rfl
  obtain ⟨c, rfl, hc⟩ := StartsIn.of_append_eq
    (show StartsIn (· = 'f') "final) = ".toList from rfl) hfirst heq
  rcases hc with (hc | hc | hc | hc | hc) | hc <;> revert hc <;> decide

theorem FieldPlace.stands (hargs : args ∈ A) (h : FieldPlace sig args p f)
    (hslot : ∀ key, f.slot ≠ .final key)
    (hs : stringifyObjType raiseOnTemplatedFloats pruningPaths (flatName (f.name :: p)) false
      f.value = .ok s) (y : Text) :
    Stands sig A raiseOnTemplatedFloats pruningPaths (f.name :: p) false f.value s
      (")".toList ++ y) := by
  refine ⟨⟨args, hargs, _, h.lookup, ?_⟩, h.wf, hs, ?_⟩
  · rw [Field.held]
    cases hf : f.slot with
    | plain => rfl
    | valued text => rfl
    | final key => exact absurd hf (hslot key)
  · cases f.value with
    | leaf l => exact Or.inr (Or.inl rfl)
    | dataclass cls fields => exact Or.inr (Or.inl rfl)
    | dataOriented cls members => exact Or.inl rfl

theorem Field.visits_of_ne_final (hslot : ∀ key, f.slot ≠ .final key) :
    f.visits pruningPaths p = (f.name :: p, f.held.observe) ::
      f.value.visits pruningPaths (f.name :: p) := by
  obtain ⟨slot, name, value⟩ := f
  cases slot with
  | plain => rfl
  | valued text => rfl
  | final key => exact absurd rfl (hslot key)

theorem field_inj (hA : Legible sig A) (ih : ReadsBack sig A raiseOnTemplatedFloats n)
    (hargs : args ∈ A) (hargs' : args' ∈ A) {f' : Field} {s' y y' : Text}
    (hs : FieldText raiseOnTemplatedFloats pruningPaths p f s)
    (hs' : FieldText raiseOnTemplatedFloats pruningPaths' p f' s')
    (hplace : FieldPlace sig args p f) (hsize : sizeOf f.value < n)
    (hplace' : FieldPlace sig args' p f') (hy : StartsIn isFieldEnd y)
    (hy' : StartsIn isFieldEnd y') (heq : s ++ y = s' ++ y') :
    f.visits pruningPaths p = f'.visits pruningPaths' p ∧ y = y' := by
  cases hs with
  | final key name value =>
    cases hs' with
    | final key' name' value' =>
      simp only [append_assoc] at heq
      obtain ⟨rfl, htail⟩ := name_colon_inj heq
      have hkeys : key ++ y = key' ++ y' := by
        simpa using htail
      obtain ⟨rfl, hrest⟩ := (hA.final ⟨args, hargs, hplace.lookup⟩
        ⟨args', hargs', hplace'.lookup⟩).append_inj hy hy' hkeys
      exact ⟨rfl, hrest⟩
    | child hslot' htext' =>
      simp only [append_assoc] at heq
      obtain ⟨rfl, htail⟩ := name_colon_inj heq
      exact absurd (@append_cancel_left Char " (".toList _ _ htail)
        (text_not_final rfl (cons_ne_nil _ _) htext' _ _)
  | @child slot name value s hslot htext =>
    cases hs' with
    | final key' name' value' =>
      simp only [append_assoc] at heq
      obtain ⟨rfl, htail⟩ := name_colon_inj heq
      exact absurd (@append_cancel_left Char " (".toList _ _ htail.symm)
        (text_not_final rfl (cons_ne_nil _ _) htext _ _)
    | @child slot' name' value' s' hslot' htext' =>
      simp only [append_assoc] at heq
      obtain ⟨rfl, htail⟩ := name_colon_inj heq
      have htexts := @append_cancel_left Char " (".toList _ _ htail
      obtain ⟨hobs, hvisits, hrest⟩ := ih (hplace.stands hargs hslot htext _)
        (hplace'.stands hargs' hslot' htext' _) hsize htexts
      have hsuffix := append_cancel_left hrest
      rw [Field.visits_of_ne_final hslot, Field.visits_of_ne_final hslot', hvisits]
      cases slot with
      | final key => exact absurd rfl (hslot key)
      | plain =>
        cases slot' with
        | final key' => exact absurd rfl (hslot' key')
        | plain => exact ⟨by simp only [Field.held, FieldSlot.held, Held.observe, hobs], hsuffix⟩
        | valued text' =>
          have hspace : StartsIn isFieldEnd (FieldSlot.suffix (.valued text') ++ y') := by
            rwa [← hsuffix]
          exact absurd hspace not_isFieldEnd_space
      | valued text =>
        cases slot' with
        | final key' => exact absurd rfl (hslot' key')
        | plain =>
          have hspace : StartsIn isFieldEnd (FieldSlot.suffix (.valued text) ++ y) := by
            rwa [hsuffix]
          exact absurd hspace not_isFieldEnd_space
        | valued text' =>
          simp only [FieldSlot.suffix, append_assoc] at hsuffix
          obtain ⟨rfl, hend⟩ := (hA.valued ⟨args, hargs, hplace.lookup⟩
            ⟨args', hargs', hplace'.lookup⟩).append_inj hy hy'
              (append_cancel_left hsuffix)
          exact ⟨by simp only [Field.held, FieldSlot.held, Held.observe, hobs], hend⟩

variable {fs fs' : List Field} {reprs reprs' : List Text} {x x' : Text}

theorem fieldsTail_inj (hA : Legible sig A) (ih : ReadsBack sig A raiseOnTemplatedFloats n)
    (hargs : args ∈ A) (hargs' : args' ∈ A)
    (hs : List.Forall₂ (FieldText raiseOnTemplatedFloats pruningPaths p) fs reprs)
    (hs' : List.Forall₂ (FieldText raiseOnTemplatedFloats pruningPaths' p) fs' reprs')
    (hplace : ∀ f ∈ fs, FieldPlace sig args p f ∧ sizeOf f.value < n)
    (hplace' : ∀ f ∈ fs', FieldPlace sig args' p f)
    (heq : fieldsTail reprs x = fieldsTail reprs' x') :
    fs.flatMap (Field.visits pruningPaths p) = fs'.flatMap (Field.visits pruningPaths' p) ∧
      x = x' := by
  induction hs generalizing fs' reprs' with
  | nil =>
    cases hs' with
    | nil => exact ⟨rfl, (List.cons.inj heq).2⟩
    | cons _ _ => exact absurd (List.cons.inj heq).1 (by decide)
  | cons hfield hrest ihfs =>
    cases hs' with
    | nil => exact absurd (List.cons.inj heq).1 (by decide)
    | cons hfield' hrest' =>
      rw [forall_mem_cons] at hplace hplace'
      obtain ⟨hvisits, htail⟩ := field_inj hA ih hargs hargs' hfield hfield' hplace.1.1
        hplace.1.2 hplace'.1 (fieldsTail_startsIn _ _) (fieldsTail_startsIn _ _)
        (List.cons.inj heq).2
      obtain ⟨hothers, hend⟩ := ihfs hrest' hplace.2 hplace'.2 htail
      rw [flatMap_cons, hvisits, hothers]
      exact ⟨rfl, hend⟩

theorem fieldsBody_inj (hA : Legible sig A) (ih : ReadsBack sig A raiseOnTemplatedFloats n)
    (hargs : args ∈ A) (hargs' : args' ∈ A)
    (hs : List.Forall₂ (FieldText raiseOnTemplatedFloats pruningPaths p) fs reprs)
    (hs' : List.Forall₂ (FieldText raiseOnTemplatedFloats pruningPaths' p) fs' reprs')
    (hplace : ∀ f ∈ fs, FieldPlace sig args p f ∧ sizeOf f.value < n)
    (hplace' : ∀ f ∈ fs', FieldPlace sig args' p f)
    (heq : fieldsBody reprs x = fieldsBody reprs' x') :
    fs.flatMap (Field.visits pruningPaths p) = fs'.flatMap (Field.visits pruningPaths' p) ∧
      x = x' := by
  have hbracket : isIdentChar ']' ≠ true := by decide
  cases hs with
  | nil =>
    cases hs' with
    | nil => exact ⟨rfl, (List.cons.inj heq).2⟩
    | @cons _ r' _ rs' hfield' _ =>
      have hstart : StartsIn (fun c => isIdentChar c = true) (fieldsBody (r' :: rs') x') :=
        hfield'.startsIn.append _
      rw [← heq] at hstart
      exact absurd hstart hbracket
  | @cons _ r _ rs hfield hrest =>
    cases hs' with
    | nil =>
      have hstart : StartsIn (fun c => isIdentChar c = true) (fieldsBody (r :: rs) x) :=
        hfield.startsIn.append _
      rw [heq] at hstart
      exact absurd hstart hbracket
    | cons hfield' hrest' =>
      rw [forall_mem_cons] at hplace hplace'
      obtain ⟨hvisits, htail⟩ := field_inj hA ih hargs hargs' hfield hfield' hplace.1.1
        hplace.1.2 hplace'.1 (fieldsTail_startsIn _ _) (fieldsTail_startsIn _ _) heq
      obtain ⟨hothers, hend⟩ := fieldsTail_inj hA ih hargs hargs' hrest hrest' hplace.2
        hplace'.2 htail
      rw [flatMap_cons, hvisits, hothers]
      exact ⟨rfl, hend⟩

end fields

theorem leaf_ne_dataclass {l : Leaf}
    (hs : l.stringify raiseOnTemplatedFloats t = .ok s) {fs : List Field} {reprs : List Text}
    (hreprs : List.Forall₂ (FieldText raiseOnTemplatedFloats pruningPaths p) fs reprs) (y : Text) :
    s ++ x ≠ '[' :: fieldsBody reprs y := by
  intro heq
  have hstart : StartsIn (· = '[') s := by
    obtain ⟨c, r, rfl, _⟩ := (Leaf.startsIn_first hs).exists_cons
    exact (List.cons.inj heq).1
  obtain ⟨word, r, rfl⟩ := Leaf.bracket hs hstart
  have hbody : word.text ++ ('-' :: (r ++ x)) = fieldsBody reprs y := by
    simpa using (List.cons.inj heq).2
  cases hreprs with
  | nil =>
    have hident := word.startsIn_ident.append ('-' :: (r ++ x))
    rw [hbody] at hident
    exact absurd hident (show isIdentChar ']' ≠ true by decide)
  | cons hfield _ => exact hfield.ne_bracket word _ _ hbody.symm

theorem readsBack (hA : Legible sig A) (n : ℕ) : ReadsBack sig A raiseOnTemplatedFloats n := by
  induction n with
  | zero =>
    intro p t t' o o' pruningPaths pruningPaths' s s' x x' _ _ hsize
    omega
  | succ n ih =>
    intro p t t' o o' pruningPaths pruningPaths' s s' x x' hst hst' hsize heq
    have hp := hst.path_ne_nil
    have htext := hst.text
    have htext' := hst'.text
    obtain ⟨args, hargs, held, hlookup, hheld⟩ := hst.place
    obtain ⟨args', hargs', held', hlookup', hheld'⟩ := hst'.place
    cases o with
    | leaf l =>
      cases o' with
      | leaf l' =>
        obtain ⟨hclear, hbaked⟩ := hA.leaf hst.at hst'.at htext htext'
        obtain ⟨hs, hx⟩ := hclear.append_inj hst.follow hst'.follow heq
        refine ⟨?_, rfl, hx⟩
        rw [Obj.observe, Obj.observe, hbaked hs]
      | dataclass c' fields' =>
        simp only [stringifyObjType, bind_eq_ok, pure_eq_ok] at htext'
        obtain ⟨reprs', hreprs', rfl⟩ := htext'
        rw [bracket_eq] at heq
        exact absurd heq (leaf_ne_dataclass htext (Fields.fieldText hp fields' _ hreprs') _)
      | dataOriented c' members' =>
        obtain ⟨u', rfl, _⟩ := Obj.spelled _ _ hp t' _ s' htext' c' members' rfl
        obtain ⟨_, rfl, hc⟩ := StartsIn.of_append_eq
          (show StartsIn (· = 'd') ("da".toList ++ u') from rfl)
          (text_startsIn htext fun _ _ => Obj.noConfusion) heq.symm
        exact absurd hc not_isFirst_d
    | dataclass c fields =>
      cases o' with
      | leaf l' =>
        simp only [stringifyObjType, bind_eq_ok, pure_eq_ok] at htext
        obtain ⟨reprs, hreprs, rfl⟩ := htext
        rw [bracket_eq] at heq
        exact absurd heq.symm
          (leaf_ne_dataclass htext' (Fields.fieldText hp fields _ hreprs) _)
      | dataclass c' fields' =>
        simp only [stringifyObjType, bind_eq_ok, pure_eq_ok] at htext htext'
        obtain ⟨reprs, hreprs, rfl⟩ := htext
        obtain ⟨reprs', hreprs', rfl⟩ := htext'
        rw [bracket_eq, bracket_eq] at heq
        have hplace : ∀ f ∈ fields.visited pruningPaths p,
            FieldPlace sig args p f ∧ sizeOf f.value < n := by
          intro f hf
          obtain ⟨hplace, hlt⟩ := Fields.visited_place fields
            (fun name h hfind => (lookupPath_child hlookup hheld name).trans hfind) hst.wf f hf
          rw [Obj.dataclass.sizeOf_spec] at hsize
          exact ⟨hplace, by omega⟩
        have hplace' : ∀ f ∈ fields'.visited pruningPaths' p, FieldPlace sig args' p f := by
          intro f hf
          exact (Fields.visited_place fields'
            (fun name h hfind => (lookupPath_child hlookup' hheld' name).trans hfind)
              hst'.wf f hf).1
        obtain ⟨hvisits, hx⟩ := fieldsBody_inj hA ih hargs hargs'
          (Fields.fieldText hp fields _ hreprs) (Fields.fieldText hp fields' _ hreprs') hplace
          hplace' (List.cons.inj heq).2
        rw [Fields.visited_visits, Fields.visited_visits] at hvisits
        rw [Obj.observe, hA.dataclass hst.at hst'.at, Obj.visits, Obj.visits]
        exact ⟨rfl, hvisits, hx⟩
      | dataOriented c' members' =>
        obtain ⟨u', rfl, _⟩ := Obj.spelled _ _ hp t' _ s' htext' c' members' rfl
        obtain ⟨_, rfl, hc⟩ := StartsIn.of_append_eq
          (show StartsIn (· = 'd') ("da".toList ++ u') from rfl)
          (text_startsIn htext fun _ _ => Obj.noConfusion) heq.symm
        exact absurd hc not_isFirst_d
    | dataOriented c members =>
      obtain ⟨u, rfl, hu⟩ := Obj.spelled _ _ hp t _ s htext c members rfl
      rcases em (∃ c' members', o' = .dataOriented c' members') with ⟨c', members', rfl⟩ | ho'
      · obtain ⟨u', rfl, hu'⟩ := Obj.spelled _ _ hp t' _ s' htext' c' members' rfl
        rw [append_assoc] at heq
        have hplace : ∀ e ∈ (Obj.dataOriented c members).nest pruningPaths p,
            EntryPlace sig A args p e ∧ sizeOf e.value < n := by
          intro e he
          obtain ⟨hplace, hlt⟩ := Obj.nest_place hargs _ held t hlookup hheld hst.wf
            (Or.inl rfl) e he
          exact ⟨hplace, by omega⟩
        have hplace' : ∀ e ∈ (Obj.dataOriented c' members').nest pruningPaths' p,
            EntryPlace sig A args' p e := by
          intro e he
          exact (Obj.nest_place hargs' _ held' t' hlookup' hheld' hst'.wf (Or.inl rfl) e he).1
        obtain ⟨hvisits, hx⟩ := entries_inj hA ih hargs hargs' hu hu' hplace hplace' hst.follow
          hst'.follow (append_cancel_left heq)
        rw [Obj.nest_visits _ _ _ c members rfl, Obj.nest_visits _ _ _ c' members' rfl]
          at hvisits
        refine ⟨?_, hvisits, hx⟩
        rw [Obj.observe, Obj.observe, hA.dataOriented hst.at hst'.at]
      · obtain ⟨_, rfl, hc⟩ := StartsIn.of_append_eq
          (show StartsIn (· = 'd') ("da".toList ++ u) from rfl)
          (text_startsIn htext' fun c' ms' h => ho' ⟨c', ms', h⟩) heq
        exact absurd hc not_isFirst_d

end readBack

end Quadrants.FastCache
