import Mathlib.Data.Set.Basic
import Quadrants.FastCache.Reads
import Quadrants.Library.Decoding
import Quadrants.Library.StatefulLoops

namespace Quadrants.FastCache

open Quadrants.Library.Decoding List
open Quadrants.Library.StatefulLoops

variable {p : Path}

theorem flatName_cons (hp : p ≠ []) (name : Name) :
    flatName (name :: p) = createFlatName (flatName p) name.text := by
  cases p with
  | nil => exact absurd rfl hp
  | cons parent p => rfl

section visits

variable (pruningPaths : List Text)

mutual

def Obj.visits (p : Path) : Obj → List (Path × Obs)
  | .leaf _ => []
  | .dataclass _ fields => fields.visits p
  | .dataOriented cls members => members.visits p cls

def Fields.visits (p : Path) : Fields → List (Path × Obs)
  | .nil => []
  | .cons (.final key) name _ rest => (name :: p, .final key) :: rest.visits p
  | .cons slot name value rest =>
    if flatName (name :: p) ∈ pruningPaths then
      (name :: p, (slot.held value).observe) :: (value.visits (name :: p) ++ rest.visits p)
    else rest.visits p

def Members.visits (p : Path) (cls : DataOrientedClass) : Members → List (Path × Obs)
  | .nil => []
  | .cons slot name value rest =>
    if slot.isData = true ∧ flatName (name :: p) ∈ pruningPaths then
      (name :: p, value.observe (cls.isTemplate slot)) ::
        (value.visits (name :: p) ++ rest.visits p cls)
    else rest.visits p cls

end

structure Entry where
  parent : Path
  name : Name
  isTemplate : Bool
  value : Obj

def Entry.path (e : Entry) : Path := e.name :: e.parent

mutual

/-- The members met in a nest, those of inner objects after the inner object itself. Their texts
stand one after the other, without brackets. -/
def Obj.nest (p : Path) : Obj → List Entry
  | .leaf _ => []
  | .dataclass _ _ => []
  | .dataOriented cls members => members.nest p cls

def Members.nest (p : Path) (cls : DataOrientedClass) : Members → List Entry
  | .nil => []
  | .cons slot name value rest =>
    if slot.isData = true ∧ flatName (name :: p) ∈ pruningPaths then
      ⟨p, name, cls.isTemplate slot, value⟩ :: (value.nest (name :: p) ++ rest.nest p cls)
    else rest.nest p cls

end

def Entry.visits (e : Entry) : List (Path × Obs) :=
  (e.path, e.value.observe e.isTemplate) ::
    match e.value with
    | .dataOriented _ _ => []
    | o => o.visits pruningPaths e.path

def Entry.head (raiseOnTemplatedFloats : Bool) (e : Entry) : Except Failure Text :=
  match e.value with
  | .dataOriented _ _ => .ok "da".toList
  | o => stringifyObjType raiseOnTemplatedFloats pruningPaths (flatName e.path) e.isTemplate o

mutual

theorem Obj.nest_visits (p : Path) : ∀ o : Obj, ∀ cls members, o = .dataOriented cls members →
    (o.nest pruningPaths p).flatMap (Entry.visits pruningPaths) = o.visits pruningPaths p
  | .leaf _, _, _, h => by cases h
  | .dataclass _ _, _, _, h => by cases h
  | .dataOriented cls members, _, _, _ => by
    rw [Obj.nest, Obj.visits]
    exact Members.nest_visits p cls members

theorem Members.nest_visits (p : Path) (cls : DataOrientedClass) : ∀ members : Members,
    (members.nest pruningPaths p cls).flatMap (Entry.visits pruningPaths) =
      members.visits pruningPaths p cls
  | .nil => by
    rw [Members.nest, Members.visits]
    rfl
  | .cons slot name value rest => by
    have hrest := Members.nest_visits p cls rest
    rw [Members.nest, Members.visits]
    split_ifs
    · rw [flatMap_cons, flatMap_append, hrest]
      cases value with
      | leaf l => simp [Entry.visits, Entry.path, Obj.nest, Obj.visits]
      | dataclass c fields => simp [Entry.visits, Entry.path, Obj.nest]
      | dataOriented c members =>
        have hinner := Obj.nest_visits (name :: p) (.dataOriented c members) c members rfl
        rw [hinner]
        simp [Entry.visits, Entry.path]
    · exact hrest

end

end visits

section spelling

variable (raiseOnTemplatedFloats : Bool) (pruningPaths : List Text)

inductive Spelled : List Entry → Text → Prop where
  | nil : Spelled [] []
  | cons {e : Entry} {es : List Entry} {h u : Text} :
      e.head pruningPaths raiseOnTemplatedFloats = .ok h → Spelled es u →
        Spelled (e :: es) (", ".toList ++ (e.name.text ++ (": ".toList ++ (h ++ u))))

theorem Spelled.append {es es' : List Entry} {u u' : Text}
    (h : Spelled raiseOnTemplatedFloats pruningPaths es u)
    (h' : Spelled raiseOnTemplatedFloats pruningPaths es' u') :
    Spelled raiseOnTemplatedFloats pruningPaths (es ++ es') (u ++ u') := by
  induction h with
  | nil => exact h'
  | cons hhead _ ih =>
    have hcons := Spelled.cons hhead ih
    simpa [append_assoc] using hcons

theorem intercalate_cons (sep first : Text) (rest : List Text) :
    intercalate sep (first :: rest) = first ++ rest.flatMap (sep ++ ·) := by
  induction rest generalizing first with
  | nil => simp
  | cons next rest ih => rw [intercalate_cons_cons, ih, flatMap_cons, append_assoc, append_assoc]

theorem visitMember_eq_ok {slot : MemberSlot} {childFlat : Text} {used : Bool}
    (h : visitMember pruningPaths slot childFlat = .ok used) :
    used = true ↔ slot.isData = true ∧ childFlat ∈ pruningPaths := by
  unfold visitMember at h
  cases slot with
  | plain => simp [MemberSlot.isData, ← Except.ok.inj h]
  | property => simp [MemberSlot.isData, ← Except.ok.inj h]
  | callable => simp [MemberSlot.isData, ← Except.ok.inj h]
  | cachedProperty =>
    split_ifs at h
    simp [MemberSlot.isData, ← Except.ok.inj h]
  | raising =>
    split_ifs at h
    simp [MemberSlot.isData, ← Except.ok.inj h]

mutual

theorem Obj.spelled {p : Path} (hp : p ≠ []) (isTemplate : Bool) : ∀ (o : Obj) (s : Text),
    stringifyObjType raiseOnTemplatedFloats pruningPaths (flatName p) isTemplate o = .ok s →
      ∀ cls members, o = .dataOriented cls members →
        ∃ u, s = "da".toList ++ u ∧
          Spelled raiseOnTemplatedFloats pruningPaths (o.nest pruningPaths p) u
  | .leaf _, _, _, _, _, h => by cases h
  | .dataclass _ _, _, _, _, _, h => by cases h
  | .dataOriented cls members, s, hs, _, _, _ => by
    simp only [stringifyObjType, bind_eq_ok, pure_eq_ok] at hs
    obtain ⟨reprs, hreprs, rfl⟩ := hs
    rw [intercalate_cons, Obj.nest]
    exact ⟨_, rfl, Members.spelled hp cls members reprs hreprs⟩

theorem Members.spelled {p : Path} (hp : p ≠ []) (cls : DataOrientedClass) :
    ∀ (members : Members) (reprs : List Text),
      memberReprs raiseOnTemplatedFloats pruningPaths (flatName p) cls members = .ok reprs →
        Spelled raiseOnTemplatedFloats pruningPaths (members.nest pruningPaths p cls)
          (reprs.flatMap (", ".toList ++ ·))
  | .nil, reprs, h => by
    rw [memberReprs, pure_eq_ok] at h
    rw [← h, Members.nest]
    exact .nil
  | .cons slot name value rest, reprs, h => by
    simp only [memberReprs, bind_eq_ok] at h
    obtain ⟨used, hused, h⟩ := h
    rw [Members.nest]
    rw [← flatName_cons hp] at h hused
    have hiff := visitMember_eq_ok pruningPaths hused
    split_ifs at h with hvisit
    · rw [if_pos (hiff.mp hvisit)]
      simp only [bind_eq_ok, pure_eq_ok] at h
      obtain ⟨child, hchild, others, hothers, rfl⟩ := h
      have hrest := Members.spelled hp cls rest others hothers
      cases value with
      | leaf l =>
        have hcons := Spelled.cons
          (show Entry.head pruningPaths raiseOnTemplatedFloats
            ⟨p, name, cls.isTemplate slot, .leaf l⟩ = .ok child from hchild) hrest
        simpa [Obj.nest, append_assoc] using hcons
      | dataclass c fields =>
        have hcons := Spelled.cons
          (show Entry.head pruningPaths raiseOnTemplatedFloats
            ⟨p, name, cls.isTemplate slot, .dataclass c fields⟩ = .ok child from hchild) hrest
        simpa [Obj.nest, append_assoc] using hcons
      | dataOriented c members =>
        obtain ⟨u, rfl, hu⟩ := Obj.spelled (cons_ne_nil name p) _ (.dataOriented c members)
          child hchild c members rfl
        have hcons := Spelled.cons
          (show Entry.head pruningPaths raiseOnTemplatedFloats
            ⟨p, name, cls.isTemplate slot, .dataOriented c members⟩ = .ok "da".toList from rfl)
          (hu.append _ _ hrest)
        simpa [append_assoc] using hcons
    · rw [if_neg (fun hv => hvisit (hiff.mpr hv))]
      exact Members.spelled hp cls rest reprs h

end

end spelling

structure Field where
  slot : FieldSlot
  name : Name
  value : Obj

def Fields.visited (pruningPaths : List Text) (p : Path) : Fields → List Field
  | .nil => []
  | .cons (.final key) name value rest =>
    ⟨.final key, name, value⟩ :: rest.visited pruningPaths p
  | .cons slot name value rest =>
    if flatName (name :: p) ∈ pruningPaths then
      ⟨slot, name, value⟩ :: rest.visited pruningPaths p
    else rest.visited pruningPaths p

def Field.held (f : Field) : Held := f.slot.held f.value

def Field.visits (pruningPaths : List Text) (p : Path) (f : Field) : List (Path × Obs) :=
  (f.name :: p, f.held.observe) ::
    match f.slot with
    | .final _ => []
    | _ => f.value.visits pruningPaths (f.name :: p)

theorem Fields.visited_visits (pruningPaths : List Text) (p : Path) : ∀ fields : Fields,
    (fields.visited pruningPaths p).flatMap (Field.visits pruningPaths p) =
      fields.visits pruningPaths p
  | .nil => by
    rfl
  | .cons slot name value rest => by
    have hrest := Fields.visited_visits pruningPaths p rest
    cases slot with
    | final key =>
      rw [Fields.visited, flatMap_cons, hrest]
      rfl
    | plain =>
      rw [Fields.visited, Fields.visits]
      · split_ifs
        · rw [flatMap_cons, hrest]
          rfl
        · exact hrest
      · exact fun _ => FieldSlot.noConfusion
      · exact fun _ => FieldSlot.noConfusion
    | valued text =>
      rw [Fields.visited, Fields.visits]
      · split_ifs
        · rw [flatMap_cons, hrest]
          rfl
        · exact hrest
      · exact fun _ => FieldSlot.noConfusion
      · exact fun _ => FieldSlot.noConfusion

inductive FieldText (raiseOnTemplatedFloats : Bool) (pruningPaths : List Text) (p : Path) :
    Field → Text → Prop where
  | final (key : Text) (name : Name) (value : Obj) :
      FieldText raiseOnTemplatedFloats pruningPaths p ⟨.final key, name, value⟩
        (name.text ++ (": (".toList ++ ("final) = ".toList ++ key)))
  | child {slot : FieldSlot} {name : Name} {value : Obj} {s : Text} :
      (∀ key, slot ≠ .final key) →
      stringifyObjType raiseOnTemplatedFloats pruningPaths (flatName (name :: p)) false value =
        .ok s →
      FieldText raiseOnTemplatedFloats pruningPaths p ⟨slot, name, value⟩
        (name.text ++ (": (".toList ++ (s ++ (")".toList ++ slot.suffix))))

theorem Fields.fieldText {raiseOnTemplatedFloats : Bool} {pruningPaths : List Text}
    (hp : p ≠ []) : ∀ (fields : Fields) (reprs : List Text),
      dataclassToRepr raiseOnTemplatedFloats pruningPaths (flatName p) fields = .ok reprs →
        List.Forall₂ (FieldText raiseOnTemplatedFloats pruningPaths p)
          (fields.visited pruningPaths p) reprs
  | .nil, reprs, h => by
    rw [dataclassToRepr, pure_eq_ok] at h
    rw [← h]
    exact .nil
  | .cons slot name value rest, reprs, h => by
    have hchild : (∀ key, slot ≠ .final key) → List.Forall₂
        (FieldText raiseOnTemplatedFloats pruningPaths p)
          ((Fields.cons slot name value rest).visited pruningPaths p) reprs := by
      intro hslot
      rw [dataclassToRepr, ← flatName_cons hp] at h
      · rw [Fields.visited]
        · split_ifs at h with hvisit
          · rw [if_pos hvisit]
            simp only [bind_eq_ok, pure_eq_ok] at h
            obtain ⟨s, hs, others, hothers, rfl⟩ := h
            have htext := FieldText.child hslot hs
            simp only [append_assoc]
            exact .cons htext (Fields.fieldText hp rest others hothers)
          · rw [if_neg hvisit]
            exact Fields.fieldText hp rest reprs h
        · exact hslot
      · exact hslot
    cases slot with
    | final key =>
      simp only [dataclassToRepr, bind_eq_ok, pure_eq_ok] at h
      obtain ⟨others, hothers, rfl⟩ := h
      have htext : FieldText raiseOnTemplatedFloats pruningPaths p ⟨.final key, name, value⟩ _ :=
        .final key name value
      simp only [append_assoc]
      exact .cons htext (Fields.fieldText hp rest others hothers)
    | plain => exact hchild fun key => FieldSlot.noConfusion
    | valued text => exact hchild fun key => FieldSlot.noConfusion

end Quadrants.FastCache

namespace Quadrants.FastCache

open Quadrants.Library.Decoding
open Quadrants.Library.StatefulLoops

section wellFormed

def Fields.names : Fields → List Name
  | .nil => []
  | .cons _ name _ rest => name :: rest.names

def Members.names : Members → List Name
  | .nil => []
  | .cons slot name _ rest => if slot.isData then name :: rest.names else rest.names

mutual

def Obj.WF : Obj → Prop
  | .leaf _ => True
  | .dataclass _ fields => fields.WF
  | .dataOriented _ members => members.WF

def Fields.WF : Fields → Prop
  | .nil => True
  | .cons _ name value rest => name ∉ rest.names ∧ value.WF ∧ rest.WF

def Members.WF : Members → Prop
  | .nil => True
  | .cons slot name value rest => (slot.isData = true → name ∉ rest.names) ∧ value.WF ∧ rest.WF

end

def Held.object? : Held → Option (Bool × Obj)
  | .value isTemplate o => some (isTemplate, o)
  | .valued _ o => some (false, o)
  | .final _ => none

variable {h : Held} {name : Name}

theorem Fields.mem_names_of_find : ∀ {fields : Fields},
    fields.find name = some h → name ∈ fields.names
  | .nil, hfind => by cases hfind
  | .cons slot name' value rest, hfind => by
    rw [Fields.find] at hfind
    split_ifs at hfind with hname
    · rw [hname]
      exact List.mem_cons_self
    · exact List.mem_cons_of_mem _ (mem_names_of_find hfind)

variable {cls : DataOrientedClass} {name' : Name} {value : Obj}

theorem Members.mem_names_of_find :
    ∀ {members : Members}, members.find cls name = some h → name ∈ members.names
  | .nil, hfind => by cases hfind
  | .cons slot name' value rest, hfind => by
    rw [Members.find] at hfind
    rw [Members.names]
    split_ifs at hfind with hname
    · rw [if_pos hname.2, hname.1]
      exact List.mem_cons_self
    · have hrest := mem_names_of_find hfind
      split_ifs
      · exact List.mem_cons_of_mem _ hrest
      · exact hrest

theorem Fields.find_of_rest {slot : FieldSlot} {rest : Fields}
    (hwf : (Fields.cons slot name value rest).WF)
    (hfind : rest.find name' = some h) :
    (Fields.cons slot name value rest).find name' = some h := by
  rw [Fields.find, if_neg, hfind]
  rintro rfl
  exact hwf.1 (Fields.mem_names_of_find hfind)

theorem Members.find_of_rest {slot : MemberSlot} {rest : Members}
    (hwf : (Members.cons slot name value rest).WF)
    (hfind : rest.find cls name' = some h) :
    (Members.cons slot name value rest).find cls name' = some h := by
  rw [Members.find, if_neg, hfind]
  rintro ⟨rfl, hdata⟩
  exact hwf.1 hdata (Members.mem_names_of_find hfind)

end wellFormed

section places

variable (sig : Signature) (A : Set (List Obj))

def Placed (p : Path) (h : Held) : Prop := ∃ args ∈ A, lookupPath args sig.argMetas p = some h

def At (p : Path) (isTemplate : Bool) (o : Obj) : Prop :=
  ∃ h, Placed sig A p h ∧ h.object? = some (isTemplate, o)

/-- In some argument list of `A` there is a data-oriented object at `p` that has a member `name`. -/
def HasMember (p : Path) (name : Name) : Prop :=
  ∃ args ∈ A, ∃ h isTemplate cls members h', lookupPath args sig.argMetas p = some h ∧
    h.object? = some (isTemplate, .dataOriented cls members) ∧
      lookupPath args sig.argMetas (name :: p) = some h'

/-- The members of the data-oriented object at `r`, those of its members that are data-oriented
themselves, and so on. -/
inductive InNest (r : Path) : Path → Prop where
  | member {name : Name} : HasMember sig A r name → InNest r (name :: r)
  | inner {q : Path} {name : Name} : InNest r q → HasMember sig A q name → InNest r (name :: q)

def isSep (c : Char) : Prop := c = ',' ∨ c = ')' ∨ c = '_'

def isNestEnd (c : Char) : Prop := c = ')' ∨ c = '_'

def isFieldEnd (c : Char) : Prop := c = ',' ∨ c = ']'

/-- The texts of the arguments in `A` can be read back: values at one place differ in text when they
differ in type or baked value, objects at one place are of one class, and in a nest of data-oriented
objects a name stands at one place only. -/
structure Legible : Prop where
  wf : ∀ args ∈ A, ∀ o ∈ args, o.WF
  leaf : ∀ {p t t' l l'}, At sig A p t (.leaf l) → At sig A p t' (.leaf l') →
    ∀ {raiseOnTemplatedFloats s s'}, l.stringify raiseOnTemplatedFloats t = .ok s →
      l'.stringify raiseOnTemplatedFloats t' = .ok s' →
        Clear isSep s s' ∧ (s = s' → l.baked t = l'.baked t')
  dataclass : ∀ {p t t' c c' fields fields'}, At sig A p t (.dataclass c fields) →
    At sig A p t' (.dataclass c' fields') → c = c'
  dataOriented : ∀ {p t t' c c' members members'}, At sig A p t (.dataOriented c members) →
    At sig A p t' (.dataOriented c' members') → c = c'
  valued : ∀ {p text text' o o'}, Placed sig A p (.valued text o) →
    Placed sig A p (.valued text' o') → Clear isFieldEnd text text'
  final : ∀ {p key key'}, Placed sig A p (.final key) → Placed sig A p (.final key') →
    Clear isFieldEnd key key'
  place : ∀ {r p q}, InNest sig A r p → InNest sig A r q → p.head? = q.head? → p = q

variable {sig A} {args : List Obj}

variable {p : Path}

theorem lookupPath_cons (hp : p ≠ []) (name : Name) : lookupPath args sig.argMetas (name :: p) =
      (lookupPath args sig.argMetas p).bind (Held.child name) := by
  cases p with
  | nil => exact absurd rfl hp
  | cons parent p => rfl

theorem lookupPath_child {h : Held} (hp : lookupPath args sig.argMetas p = some h)
    {isTemplate : Bool} {o : Obj} (ho : h.object? = some (isTemplate, o)) (name : Name) :
    lookupPath args sig.argMetas (name :: p) = o.child name := by
  have hne : p ≠ [] := by
    rintro rfl
    cases hp
  rw [lookupPath_cons hne, hp]
  cases h with
  | value t o' =>
    cases ho
    rfl
  | valued text o' =>
    cases ho
    rfl
  | final key => cases ho

/-- The place of an entry of a nest: the member is at its path, inside the nest of `r`. -/
structure EntryPlace (sig : Signature) (A : Set (List Obj)) (args : List Obj) (r : Path)
    (e : Entry) : Prop where
  lookup : lookupPath args sig.argMetas e.path = some (.value e.isTemplate e.value)
  wf : e.value.WF
  nest : InNest sig A r e.path

variable {pruningPaths : List Text} {r : Path}

mutual

theorem Obj.nest_place (hargs : args ∈ A) {p : Path} : ∀ (o : Obj) (h : Held) (t : Bool),
    lookupPath args sig.argMetas p = some h → h.object? = some (t, o) → o.WF →
      (p = r ∨ InNest sig A r p) → ∀ e ∈ o.nest pruningPaths p,
        EntryPlace sig A args r e ∧ sizeOf e.value < sizeOf o
  | .leaf _, _, _, _, _, _, _, e, he => by
    cases he
  | .dataclass _ _, _, _, _, _, _, _, e, he => by
    cases he
  | .dataOriented cls members, h, t, hp, ho, hwf, hr, e, he => by
    have hchild : ∀ name h', members.find cls name = some h' →
        lookupPath args sig.argMetas (name :: p) = some h' ∧ InNest sig A r (name :: p) := by
      intro name h' hfind
      have hlookup := (lookupPath_child hp ho name).trans hfind
      have hmember : HasMember sig A p name :=
        ⟨args, hargs, h, t, cls, members, h', hp, ho, hlookup⟩
      refine ⟨hlookup, ?_⟩
      rcases hr with rfl | hr
      · exact .member hmember
      · exact .inner hr hmember
    obtain ⟨hplace, hsize⟩ := Members.nest_place hargs cls members hchild hwf e he
    refine ⟨hplace, ?_⟩
    rw [Obj.dataOriented.sizeOf_spec]
    omega

theorem Members.nest_place (hargs : args ∈ A) {p : Path} (cls : DataOrientedClass) :
    ∀ members : Members,
      (∀ name h', members.find cls name = some h' →
        lookupPath args sig.argMetas (name :: p) = some h' ∧ InNest sig A r (name :: p)) →
      members.WF → ∀ e ∈ members.nest pruningPaths p cls,
        EntryPlace sig A args r e ∧ sizeOf e.value < sizeOf members
  | .nil, _, _, e, he => by
    cases he
  | .cons slot name value rest, hchild, hwf, e, he => by
    have hrest : ∀ e ∈ rest.nest pruningPaths p cls,
        EntryPlace sig A args r e ∧ sizeOf e.value < sizeOf rest :=
      Members.nest_place hargs cls rest
        (fun name' h' hfind => hchild name' h' (Members.find_of_rest hwf hfind)) hwf.2.2
    rw [Members.nest] at he
    rw [Members.cons.sizeOf_spec]
    split_ifs at he with hvisit
    · have hself : (Members.cons slot name value rest).find cls name =
          some (.value (cls.isTemplate slot) value) := by
        rw [Members.find, if_pos ⟨rfl, hvisit.1⟩]
      obtain ⟨hlookup, hnest⟩ := hchild name _ hself
      rcases List.mem_cons.mp he with rfl | he
      · refine ⟨⟨hlookup, hwf.2.1, hnest⟩, ?_⟩
        change sizeOf value < _
        omega
      · rcases List.mem_append.mp he with he | he
        · obtain ⟨hplace, hsize⟩ := Obj.nest_place hargs value _ _ hlookup rfl hwf.2.1
            (Or.inr hnest) e he
          exact ⟨hplace, by omega⟩
        · obtain ⟨hplace, hsize⟩ := hrest e he
          exact ⟨hplace, by omega⟩
    · obtain ⟨hplace, hsize⟩ := hrest e he
      exact ⟨hplace, by omega⟩

end

structure FieldPlace (sig : Signature) (args : List Obj) (p : Path) (f : Field) : Prop where
  lookup : lookupPath args sig.argMetas (f.name :: p) = some f.held
  wf : f.value.WF

theorem Fields.visited_place : ∀ fields : Fields,
    (∀ name h, fields.find name = some h → lookupPath args sig.argMetas (name :: p) = some h) →
      fields.WF → ∀ f ∈ fields.visited pruningPaths p,
        FieldPlace sig args p f ∧ sizeOf f.value < sizeOf fields
  | .nil, _, _, f, hf => by
    cases hf
  | .cons slot name value rest, hchild, hwf, f, hf => by
    have hself : (Fields.cons slot name value rest).find name = some (slot.held value) := by
      rw [Fields.find, if_pos rfl]
    have hmem : f = ⟨slot, name, value⟩ ∨ f ∈ rest.visited pruningPaths p := by
      cases slot with
      | final key =>
        exact List.mem_cons.mp hf
      | plain =>
        rw [Fields.visited] at hf
        · split_ifs at hf
          · exact List.mem_cons.mp hf
          · exact Or.inr hf
        · exact fun _ => FieldSlot.noConfusion
      | valued text =>
        rw [Fields.visited] at hf
        · split_ifs at hf
          · exact List.mem_cons.mp hf
          · exact Or.inr hf
        · exact fun _ => FieldSlot.noConfusion
    rw [Fields.cons.sizeOf_spec]
    rcases hmem with rfl | hmem
    · refine ⟨⟨hchild name _ hself, hwf.2.1⟩, ?_⟩
      change sizeOf value < _
      omega
    · obtain ⟨hplace, hsize⟩ := Fields.visited_place rest
        (fun name' h hfind => hchild name' h (Fields.find_of_rest hwf hfind)) hwf.2.2 f hmem
      exact ⟨hplace, by omega⟩

end places

end Quadrants.FastCache
