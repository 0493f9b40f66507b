import Quadrants.Template.Serves

/-!
What becomes of keys and of ndarray members when objects are made, die, or get other members.
-/

namespace Quadrants.Template

open List

namespace Heap

variable {h : Heap}

def Live (h : Heap) (id : ObjId) : Prop := (h.cell id).isSome

def isFlat (h : Heap) (id : ObjId) : Bool :=
  match h.get id with
  | some (.tensor _) | some (.dataOriented _ _ _) | some (.dataclass _ _) => false
  | _ => true

structure Sound (h : Heap) : Prop where
  closed : ∀ {id cell}, h.cell id = some cell → ∀ ref ∈ cell.obj.references, h.Live ref
  flat : ∀ {id impl}, h.get id = some (.tensor impl) → h.isFlat impl = true

variable {id : ObjId}

theorem get_eq_some {obj : PyObj} :
    h.get id = some obj ↔ ∃ serial, h.cell id = some ⟨serial, obj⟩ := by
  unfold get
  rw [Option.map_eq_some_iff]
  constructor
  · rintro ⟨⟨serial, obj'⟩, hcell, rfl⟩
    exact ⟨serial, hcell⟩
  · rintro ⟨serial, hcell⟩
    exact ⟨_, hcell, rfl⟩

theorem unwrap_eq_or : h.unwrap id = id ∨ h.get id = some (.tensor (h.unwrap id)) := by
  unfold unwrap
  split
  · rename_i hget
    exact Or.inr hget
  · exact Or.inl rfl

theorem getattr_references {value : ObjId} {attr : Attr} (hattr : h.getattr id attr = some value) :
    ∃ cell, h.cell id = some cell ∧ value ∈ cell.obj.references := by
  obtain ⟨before, after, heq, -⟩ := lookup_eq_some_iff.mp hattr
  have hmem : (attr, value) ∈ h.members id := by
    rw [heq]
    exact mem_append_right _ mem_cons_self
  unfold members at hmem
  split at hmem
  · rename_i hget
    obtain ⟨serial, hcell⟩ := get_eq_some.mp hget
    exact ⟨_, hcell, mem_map.mpr ⟨_, hmem, rfl⟩⟩
  · rename_i hget
    obtain ⟨serial, hcell⟩ := get_eq_some.mp hget
    exact ⟨_, hcell, mem_map.mpr ⟨_, hmem, rfl⟩⟩
  · cases hmem

theorem followChain_live (hsound : h.Sound) {chain : List Attr} {target : ObjId}
    (hid : h.Live id) (hchain : h.followChain id chain = some target) : h.Live target := by
  induction chain generalizing id with
  | nil =>
    obtain rfl := Option.some.inj hchain
    exact hid
  | cons attr chain ih =>
    obtain ⟨child, hchild, hrest⟩ := Option.bind_eq_some_iff.mp hchain
    obtain ⟨cell, hcell, hmem⟩ := getattr_references hchild
    exact ih (hsound.closed hcell child hmem) hrest

theorem live_unwrap (hsound : h.Sound) (hid : h.Live id) : h.Live (h.unwrap id) := by
  rcases @unwrap_eq_or h id with heq | hget
  · rw [heq]
    exact hid
  · obtain ⟨serial, hcell⟩ := get_eq_some.mp hget
    exact hsound.closed hcell _ mem_cons_self

end Heap

section Kept

variable {h h' : Heap} {kept : ObjId → Prop}

/-- The second heap has the same cells at all kept addresses, which refer to kept ones only. -/
structure Heap.Keeps (h h' : Heap) (kept : ObjId → Prop) : Prop where
  cell : ∀ {id}, kept id → h'.cell id = h.cell id
  closed : ∀ {id cell}, kept id → h.cell id = some cell → ∀ ref ∈ cell.obj.references, kept ref

namespace Heap.Keeps

variable (hkeeps : h.Keeps h' kept)

include hkeeps

variable {id : ObjId}

theorem get (hid : kept id) : h'.get id = h.get id := by
  unfold Heap.get
  rw [hkeeps.cell hid]

theorem face (hid : kept id) : h'.face id = h.face id := by
  unfold Heap.face
  rw [hkeeps.cell hid]

theorem getattr (hid : kept id) (attr : Attr) : h'.getattr id attr = h.getattr id attr := by
  unfold Heap.getattr Heap.members
  rw [hkeeps.get hid]

theorem unwrap (hid : kept id) : h'.unwrap id = h.unwrap id := by
  unfold Heap.unwrap
  rw [hkeeps.get hid]

theorem kept_unwrap (hid : kept id) : kept (h.unwrap id) := by
  rcases @Heap.unwrap_eq_or h id with heq | hget
  · rw [heq]
    exact hid
  · obtain ⟨serial, hcell⟩ := Heap.get_eq_some.mp hget
    exact hkeeps.closed hid hcell _ mem_cons_self

theorem kept_getattr {value : ObjId} {attr : Attr} (hid : kept id)
    (hattr : h.getattr id attr = some value) : kept value := by
  obtain ⟨cell, hcell, hmem⟩ := Heap.getattr_references hattr
  exact hkeeps.closed hid hcell value hmem

theorem memberInfo (hid : kept id) : memberInfo h' id = Template.memberInfo h id := by
  unfold Template.memberInfo
  rw [hkeeps.unwrap hid, hkeeps.get (hkeeps.kept_unwrap hid)]

theorem leafAgrees {arg : ObjId} (harg : kept arg) : LeafAgrees h h' arg :=
  ⟨hkeeps.unwrap harg, hkeeps.face (hkeeps.kept_unwrap harg)⟩

omit hkeeps

mutual

theorem agrees (hkeeps : h.Keeps h' kept) : ∀ {annot : AnnotationType} {arg : ObjId}, kept arg →
    annot.Agrees h h' arg
  | .template, _, harg => hkeeps.leafAgrees harg
  | .tensor, _, harg => hkeeps.leafAgrees harg
  | .ndarray _, _, harg => hkeeps.leafAgrees harg
  | .scalar, _, _ => trivial
  | .dataclass _ _ _, _, harg => fieldsAgree hkeeps harg

theorem fieldsAgree (hkeeps : h.Keeps h' kept) : ∀ {fields : FieldAnnotations} {arg : ObjId},
    kept arg → fields.Agrees h h' arg
  | .nil, _, _ => trivial
  | .final name rest, arg, harg => by
    refine ⟨hkeeps.getattr harg name, fun value hvalue raiseOnTemplatedFloats => ?_,
      fieldsAgree hkeeps harg⟩
    rw [finalScalarKey_eq_face, finalScalarKey_eq_face,
      hkeeps.face (hkeeps.kept_getattr harg hvalue)]
  | .cons name annot rest, arg, harg =>
    ⟨hkeeps.getattr harg name,
      fun _ hvalue => agrees hkeeps (hkeeps.kept_getattr harg hvalue), fieldsAgree hkeeps harg⟩

end

end Heap.Keeps

end Kept

section Update

variable {h : Heap} {id : ObjId} {change : PyObj → PyObj}

theorem Heap.cell_update (id' : ObjId) : (h.update id change).cell id' =
    if id' = id then (h.cell id').map fun cell => { cell with obj := change cell.obj }
    else h.cell id' := by
  unfold Heap.cell Heap.update
  induction h with
  | nil => simp
  | cons entry h ih =>
    obtain ⟨key, cell⟩ := entry
    rw [map_cons]
    by_cases hkey : key = id
    · subst hkey
      by_cases heq : id' = key
      · subst heq
        simp
      · simp only [if_true, lookup_cons, beq_false_of_ne heq]
        exact ih
    · by_cases heq : id' = key
      · subst heq
        simp [hkey]
      · simp only [if_neg hkey, lookup_cons, beq_false_of_ne heq]
        exact ih

theorem Heap.get_update (id' : ObjId) : (h.update id change).get id' =
    if id' = id then (h.get id').map change else h.get id' := by
  unfold Heap.get
  rw [Heap.cell_update]
  split
  · rw [Option.map_map, Option.map_map]
    rfl
  · rfl

theorem Heap.live_update {id' : ObjId} : (h.update id change).Live id' ↔ h.Live id' := by
  unfold Heap.Live
  rw [Heap.cell_update]
  split
  · rw [Option.isSome_map]
  · rfl

theorem Heap.face_update (hface : ∀ obj, (change obj).face = obj.face) (id' : ObjId) :
    (h.update id change).face id' = h.face id' := by
  unfold Heap.face
  rw [Heap.cell_update]
  split
  · rw [Option.map_map]
    congr 1
    funext cell
    simp [Cell.face, hface]
  · rfl

end Update

section Setattr

variable {h : Heap} {id value : ObjId} {attr : Attr}

theorem PyObj.face_setattr (obj : PyObj) : (obj.setattr attr value).face = obj.face := by
  cases obj <;> rfl

theorem unwrap_eq_face (h : Heap) (arg : ObjId) : h.unwrap arg =
    match h.face arg with
    | some ⟨_, .tensor impl⟩ => impl
    | _ => arg := by
  unfold Heap.unwrap Heap.get Heap.face
  cases h.cell arg with
  | none => rfl
  | some cell => cases cell with | mk serial obj => cases obj <;> rfl

theorem unwrap_setattr (arg : ObjId) :
    (h.update id (PyObj.setattr attr value)).unwrap arg = h.unwrap arg := by
  rw [unwrap_eq_face, unwrap_eq_face, Heap.face_update PyObj.face_setattr]

theorem memberInfo_eq_face (h : Heap) (arg : ObjId) : memberInfo h arg =
    match h.face (h.unwrap arg) with
    | some ⟨_, .ndarray info⟩ => some info
    | _ => none := by
  unfold memberInfo Heap.get Heap.face
  cases h.cell (h.unwrap arg) with
  | none => rfl
  | some cell => cases cell with | mk serial obj => cases obj <;> rfl

theorem memberInfo_setattr (arg : ObjId) :
    memberInfo (h.update id (PyObj.setattr attr value)) arg = memberInfo h arg := by
  rw [memberInfo_eq_face, memberInfo_eq_face, unwrap_setattr, Heap.face_update PyObj.face_setattr]

theorem getattr_update {arg : ObjId} (harg : arg ≠ id) (change : PyObj → PyObj) (name : Attr) :
    (h.update id change).getattr arg name = h.getattr arg name := by
  unfold Heap.getattr Heap.members
  rw [Heap.get_update, if_neg harg]

theorem leafAgrees_setattr (arg : ObjId) :
    LeafAgrees h (h.update id (PyObj.setattr attr value)) arg :=
  ⟨unwrap_setattr arg, Heap.face_update PyObj.face_setattr _⟩

mutual

theorem agrees_setattr : ∀ {annot : AnnotationType} {arg : ObjId},
    id ∉ annot.reads h arg →
      annot.Agrees h (h.update id (PyObj.setattr attr value)) arg
  | .template, arg, _ => leafAgrees_setattr arg
  | .tensor, arg, _ => leafAgrees_setattr arg
  | .ndarray _, arg, _ => leafAgrees_setattr arg
  | .scalar, _, _ => trivial
  | .dataclass cls hashable fields, arg, hreads => by
    rw [AnnotationType.reads, mem_cons, not_or] at hreads
    exact fieldsAgree_setattr (Ne.symm hreads.1) hreads.2

theorem fieldsAgree_setattr : ∀ {fields : FieldAnnotations} {arg : ObjId}, arg ≠ id →
    id ∉ fields.reads h arg → fields.Agrees h (h.update id (PyObj.setattr attr value)) arg
  | .nil, _, _, _ => trivial
  | .final name rest, arg, harg, hreads => by
    refine ⟨getattr_update harg _ name, fun member _ raiseOnTemplatedFloats => ?_,
      fieldsAgree_setattr harg hreads⟩
    rw [finalScalarKey_eq_face, finalScalarKey_eq_face, Heap.face_update PyObj.face_setattr]
  | .cons name annot rest, arg, harg, hreads => by
    rw [FieldAnnotations.reads, mem_append, not_or] at hreads
    refine ⟨getattr_update harg _ name, fun member hmember => agrees_setattr ?_,
      fieldsAgree_setattr harg hreads.2⟩
    intro hmem
    apply hreads.1
    rw [hmember]
    exact mem_flatMap.mpr ⟨member, mem_singleton_self _, hmem⟩

end

end Setattr

section SetImpl

variable {h : Heap} {id impl old : ObjId}

theorem not_isFlat_of_tensor (hid : h.get id = some (.tensor old)) : h.isFlat id = false := by
  unfold Heap.isFlat
  rw [hid]

theorem unwrap_ne_wrapper (hsound : h.Sound) (hid : h.get id = some (.tensor old)) (arg : ObjId) :
    h.unwrap arg ≠ id := by
  intro heq
  rcases @Heap.unwrap_eq_or h arg with hself | hget
  · have hold : h.unwrap id = old := by
      unfold Heap.unwrap
      rw [hid]
    rw [← hself.symm.trans heq] at hid hold
    have hflat := hsound.flat hid
    rw [← hold, hself, not_isFlat_of_tensor hid] at hflat
    cases hflat
  · have hflat := hsound.flat hget
    rw [heq, not_isFlat_of_tensor hid] at hflat
    cases hflat

theorem get_setImpl (hid : h.get id = some (.tensor old)) (arg : ObjId) :
    (h.update id (PyObj.setImpl impl)).get arg =
      if arg = id then some (.tensor impl) else h.get arg := by
  rw [Heap.get_update]
  split
  · rename_i heq
    rw [heq, hid]
    rfl
  · rfl

variable {arg : ObjId}

theorem unwrap_setImpl (harg : arg ≠ id) :
    (h.update id (PyObj.setImpl impl)).unwrap arg = h.unwrap arg := by
  unfold Heap.unwrap
  rw [Heap.get_update, if_neg harg]

theorem memberInfo_setImpl (hsound : h.Sound) (hid : h.get id = some (.tensor old))
    (harg : arg ≠ id) : memberInfo (h.update id (PyObj.setImpl impl)) arg = memberInfo h arg := by
  unfold memberInfo
  rw [unwrap_setImpl harg, get_setImpl hid, if_neg (unwrap_ne_wrapper hsound hid arg)]

theorem getattr_setImpl (hid : h.get id = some (.tensor old)) (arg : ObjId) (name : Attr) :
    (h.update id (PyObj.setImpl impl)).getattr arg name = h.getattr arg name := by
  unfold Heap.getattr Heap.members
  by_cases heq : arg = id
  · rw [get_setImpl hid, if_pos heq, heq, hid]
  · rw [get_setImpl hid, if_neg heq]

theorem finalScalarKey_setImpl (hid : h.get id = some (.tensor old)) (arg : ObjId)
    (raiseOnTemplatedFloats : Bool) :
    finalScalarKey (h.update id (PyObj.setImpl impl)) raiseOnTemplatedFloats arg =
      finalScalarKey h raiseOnTemplatedFloats arg := by
  unfold finalScalarKey
  by_cases heq : arg = id
  · rw [get_setImpl hid, if_pos heq, heq, hid]
  · rw [get_setImpl hid, if_neg heq]

theorem leafAgrees_setImpl (hsound : h.Sound) (hid : h.get id = some (.tensor old))
    (hreads : id ∉ leafReads h arg) : LeafAgrees h (h.update id (PyObj.setImpl impl)) arg := by
  have hne := unwrap_ne_wrapper hsound hid arg
  have harg : arg ≠ id := by
    rintro rfl
    apply hreads
    unfold leafReads
    rw [if_neg hne]
    exact mem_singleton_self _
  refine ⟨unwrap_setImpl harg, ?_⟩
  unfold Heap.face
  rw [Heap.cell_update, if_neg hne]

mutual

theorem agrees_setImpl (hsound : h.Sound) (hid : h.get id = some (.tensor old)) :
    ∀ {annot : AnnotationType} {arg : ObjId}, id ∉ annot.reads h arg →
      annot.Agrees h (h.update id (PyObj.setImpl impl)) arg
  | .template, _, hreads => leafAgrees_setImpl hsound hid hreads
  | .tensor, _, hreads => leafAgrees_setImpl hsound hid hreads
  | .ndarray _, _, hreads => leafAgrees_setImpl hsound hid hreads
  | .scalar, _, _ => trivial
  | .dataclass cls hashable fields, arg, hreads => by
    rw [AnnotationType.reads, mem_cons, not_or] at hreads
    exact fieldsAgree_setImpl hsound hid hreads.2

theorem fieldsAgree_setImpl (hsound : h.Sound) (hid : h.get id = some (.tensor old)) :
    ∀ {fields : FieldAnnotations} {arg : ObjId}, id ∉ fields.reads h arg →
      fields.Agrees h (h.update id (PyObj.setImpl impl)) arg
  | .nil, _, _ => trivial
  | .final name rest, arg, hreads =>
    ⟨getattr_setImpl hid arg name, fun member _ raiseOnTemplatedFloats =>
        finalScalarKey_setImpl hid member raiseOnTemplatedFloats,
      fieldsAgree_setImpl hsound hid hreads⟩
  | .cons name annot rest, arg, hreads => by
    rw [FieldAnnotations.reads, mem_append, not_or] at hreads
    refine ⟨getattr_setImpl hid arg name, fun member hmember => agrees_setImpl hsound hid ?_,
      fieldsAgree_setImpl hsound hid hreads.2⟩
    intro hmem
    apply hreads.1
    rw [hmember]
    exact mem_flatMap.mpr ⟨member, mem_singleton_self _, hmem⟩

end

end SetImpl

theorem lookup_filter {β : Type} {ids : List ObjId} {id : ObjId} (entries : List (ObjId × β)) :
    (entries.filter fun entry => entry.1 ∉ ids).lookup id =
      if id ∈ ids then none else entries.lookup id := by
  induction entries with
  | nil => simp
  | cons entry entries ih =>
    rw [filter_cons]
    by_cases hmem : entry.1 ∈ ids
    · rw [if_neg (by simpa using hmem), ih, lookup_cons]
      split
      · rfl
      · rename_i hid
        have hne : id ≠ entry.1 := fun heq => hid (heq ▸ hmem)
        rw [beq_false_of_ne hne]
    · rw [if_pos (by simpa using hmem), lookup_cons, lookup_cons, ih]
      by_cases heq : id = entry.1
      · simp [heq, if_neg hmem]
      · rw [beq_false_of_ne heq]

namespace Heap.Sound

variable {h : Heap}

variable {id : ObjId} {ids : List ObjId}

variable {attr : Attr} {cell : Cell} {id' value : ObjId}

theorem cell_alloc :
    Heap.cell ((id, cell) :: h) id' = if id' = id then some cell else h.cell id' := by
  unfold Heap.cell
  by_cases heq : id' = id
  · subst heq
    simp
  · rw [lookup_cons, beq_false_of_ne heq, if_neg heq]

theorem ne_of_live (hid : h.cell id = none) (hid' : h.Live id') : id' ≠ id := by
  rintro rfl
  unfold Heap.Live at hid'
  rw [hid] at hid'
  cases hid'

theorem keeps_alloc (hsound : h.Sound) (cell : Cell) (hid : h.cell id = none) :
    h.Keeps ((id, cell) :: h) h.Live := by
  refine ⟨fun {id'} hlive => ?_, fun _ hcell ref href => hsound.closed hcell ref href⟩
  rw [cell_alloc, if_neg (ne_of_live hid hlive)]

theorem isFlat_congr {h' : Heap} (hget : h'.get id = h.get id) : h'.isFlat id = h.isFlat id := by
  unfold Heap.isFlat
  rw [hget]

theorem alloc (hsound : h.Sound) (hid : h.cell id = none)
    (hlive : ∀ ref ∈ cell.obj.references, h.Live ref)
    (hflat : ∀ impl, cell.obj = .tensor impl → h.isFlat impl = true) :
    Heap.Sound ((id, cell) :: h) := by
  have hkeeps := hsound.keeps_alloc cell hid
  have hgrow : ∀ {ref}, h.Live ref → Heap.Live ((id, cell) :: h) ref := by
    intro ref href
    unfold Heap.Live
    rw [hkeeps.cell href]
    exact href
  refine ⟨fun {id' cell'} hcell ref href => hgrow ?_, fun {id' impl} hget => ?_⟩
  · rw [cell_alloc] at hcell
    split at hcell
    · obtain rfl := Option.some.inj hcell
      exact hlive ref href
    · exact hsound.closed hcell ref href
  · obtain ⟨serial, hcell⟩ := Heap.get_eq_some.mp hget
    rw [cell_alloc] at hcell
    split at hcell
    · obtain rfl := Option.some.inj hcell
      rw [isFlat_congr (hkeeps.get (hlive impl mem_cons_self))]
      exact hflat impl rfl
    · have hget' := Heap.get_eq_some.mpr ⟨serial, hcell⟩
      rw [isFlat_congr (hkeeps.get (hsound.closed hcell impl mem_cons_self))]
      exact hsound.flat hget'

theorem cell_free :
    Heap.cell (h.filter fun entry => entry.1 ∉ ids) id = if id ∈ ids then none else h.cell id :=
  lookup_filter h

theorem keeps_free (hsound : h.Sound) (hids : ∀ {id cell}, h.cell id = some cell → id ∉ ids →
      ∀ ref ∈ cell.obj.references, ref ∉ ids) :
    h.Keeps (h.filter fun entry => entry.1 ∉ ids) fun id => h.Live id ∧ id ∉ ids := by
  refine ⟨fun hkept => ?_, fun hkept hcell ref href => ?_⟩
  · rw [cell_free, if_neg hkept.2]
  · exact ⟨hsound.closed hcell ref href, hids hcell hkept.2 ref href⟩

theorem free (hsound : h.Sound) (hids : ∀ {id cell}, h.cell id = some cell → id ∉ ids →
      ∀ ref ∈ cell.obj.references, ref ∉ ids) :
    Heap.Sound (h.filter fun entry => entry.1 ∉ ids) := by
  have hkeeps := hsound.keeps_free hids
  have hcells : ∀ {id cell}, Heap.cell (h.filter fun entry => entry.1 ∉ ids) id = some cell →
      h.cell id = some cell ∧ id ∉ ids := by
    intro id cell hcell
    rw [cell_free] at hcell
    split at hcell
    · cases hcell
    · rename_i hmem
      exact ⟨hcell, hmem⟩
  refine ⟨fun {id cell} hcell ref href => ?_, fun {id impl} hget => ?_⟩
  · obtain ⟨hcell, hmem⟩ := hcells hcell
    have hlive := hsound.closed hcell ref href
    unfold Heap.Live
    rw [hkeeps.cell ⟨hlive, hids hcell hmem ref href⟩]
    exact hlive
  · obtain ⟨serial, hcell⟩ := Heap.get_eq_some.mp hget
    obtain ⟨hcell, hmem⟩ := hcells hcell
    have href : impl ∈ (PyObj.tensor impl).references := mem_cons_self
    rw [isFlat_congr (hkeeps.get ⟨hsound.closed hcell impl href, hids hcell hmem impl href⟩)]
    exact hsound.flat (Heap.get_eq_some.mpr ⟨serial, hcell⟩)

theorem isFlat_eq_face (h : Heap) (id : ObjId) : h.isFlat id =
    match h.face id with
    | some ⟨_, .tensor _⟩ | some ⟨_, .dataOriented _ _ _⟩ | some ⟨_, .dataclass _ _⟩ => false
    | _ => true := by
  unfold Heap.isFlat Heap.get Heap.face
  cases h.cell id with
  | none => rfl
  | some cell => cases cell with | mk serial obj => cases obj <;> rfl

theorem references_setattr {obj : PyObj} {ref : ObjId}
    (href : ref ∈ (obj.setattr attr value).references) : ref = value ∨ ref ∈ obj.references := by
  have hmembers : ∀ members : List (Attr × ObjId),
      ref ∈ (members.map fun member => if member.1 = attr then (attr, value) else member).map
        Prod.snd → ref = value ∨ ref ∈ members.map Prod.snd := by
    intro members hmem
    rw [map_map] at hmem
    obtain ⟨member, hmember, heq⟩ := mem_map.mp hmem
    dsimp only [Function.comp] at heq
    split at heq
    · exact Or.inl heq.symm
    · exact Or.inr (mem_map.mpr ⟨member, hmember, heq⟩)
  cases obj with
  | dataOriented cls stableMembers attrs => exact hmembers attrs href
  | dataclass cls fields => exact hmembers fields href
  | _ => exact Or.inr href

theorem setattr (hsound : h.Sound) (hvalue : h.Live value) :
    Heap.Sound (h.update id (PyObj.setattr attr value)) := by
  refine ⟨fun {id' cell} hcell ref href => Heap.live_update.mpr ?_, fun {id' impl} hget => ?_⟩
  · rw [Heap.cell_update] at hcell
    split at hcell
    · obtain ⟨cell', hcell', rfl⟩ := Option.map_eq_some_iff.mp hcell
      rcases references_setattr href with rfl | href
      · exact hvalue
      · exact hsound.closed hcell' ref href
    · exact hsound.closed hcell ref href
  · rw [isFlat_eq_face, Heap.face_update PyObj.face_setattr, ← isFlat_eq_face]
    rw [Heap.get_update] at hget
    split at hget
    · obtain ⟨obj, hobj, heq⟩ := Option.map_eq_some_iff.mp hget
      cases obj with
      | tensor impl' =>
        obtain rfl := PyObj.tensor.inj heq
        exact hsound.flat hobj
      | _ => cases heq
    · exact hsound.flat hget

theorem setImpl (hsound : h.Sound) {impl old : ObjId} (hid : h.get id = some (.tensor old))
    (hlive : h.Live impl) (hflat : h.isFlat impl = true) :
    Heap.Sound (h.update id (PyObj.setImpl impl)) := by
  have hsame : ∀ {id'}, h.isFlat id' = true →
      (h.update id (PyObj.setImpl impl)).isFlat id' = true := by
    intro id' hflat'
    have hne : id' ≠ id := by
      rintro rfl
      rw [not_isFlat_of_tensor hid] at hflat'
      cases hflat'
    have hget : (h.update id (PyObj.setImpl impl)).get id' = h.get id' := by
      rw [get_setImpl hid, if_neg hne]
    rw [isFlat_congr hget]
    exact hflat'
  refine ⟨fun {id' cell} hcell ref href => Heap.live_update.mpr ?_, fun {id' impl'} hget => ?_⟩
  · rw [Heap.cell_update] at hcell
    split at hcell
    · rename_i heq
      obtain ⟨cell', hcell', rfl⟩ := Option.map_eq_some_iff.mp hcell
      obtain ⟨serial, hid⟩ := Heap.get_eq_some.mp hid
      rw [heq, hid] at hcell'
      obtain rfl := Option.some.inj hcell'
      rw [mem_singleton.mp href]
      exact hlive
    · exact hsound.closed hcell ref href
  · rw [get_setImpl hid] at hget
    split at hget
    · obtain rfl := PyObj.tensor.inj (Option.some.inj hget)
      exact hsame hflat
    · exact hsame (hsound.flat hget)

end Heap.Sound

end Quadrants.Template
