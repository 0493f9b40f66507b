import Quadrants.Offload.CrossTask

/-!
How a state of the tasks stands for a state of the root block while a task runs, and what keeps it
so.
-/

namespace Quadrants.CrossTask

open Library.StructuredRuns List

section Codes

variable (c : Setting)

variable {instr : Instr} {kept : Instr → Bool}

theorem Instr.run_of_isRepeatable
    (h : instr.isRepeatable kept = true) {self self' : Loc} {index index' : ℕ → ℤ}
    {args : List Word} {mem mem' : Memory}
    (hload : ∀ loc, args = [.ptr loc] → instr.code = .localLoad ∨ instr.code = .globalLoad →
      mem' loc = mem loc) :
    (instr.code.run c self' index' args mem').1 = (instr.code.run c self index args mem).1 := by
  unfold Instr.isRepeatable at h
  cases hcode : instr.code with
  | const | argLoad | arith | globalPtr | externalPtr => rfl
  | matrixPtr => simp only [Code.run]; split <;> rfl
  | localLoad =>
    simp only [Code.run]
    split
    · exact congrArg Word.int (hload _ rfl (.inl hcode))
    · rfl
  | globalLoad =>
    simp only [Code.run]
    split
    · exact congrArg Word.int (hload _ rfl (.inr hcode))
    · rfl
  | alloca | localStore | globalStore | atomicOp | loopIndex | whileControl =>
    rw [hcode] at h
    cases h

theorem Instr.run_mem_of_isRepeatable
    (h : instr.isRepeatable kept = true) (self : Loc) (index : ℕ → ℤ) (args : List Word)
    (mem : Memory) : (instr.code.run c self index args mem).2 = mem := by
  unfold Instr.isRepeatable at h
  cases hcode : instr.code with
  | const | argLoad | arith | globalPtr | externalPtr => rfl
  | matrixPtr | localLoad | globalLoad => simp only [Code.run]; split <;> rfl
  | alloca | localStore | globalStore | atomicOp | loopIndex | whileControl =>
    rw [hcode] at h
    cases h

end Codes

section Places

variable (promoted : List ℕ)

def Loc.place : Loc → Loc
  | stack alloca element =>
    if alloca ∈ promoted then tmp alloca element else stack alloca element
  | loc => loc

def Word.place : Word → Word
  | int value => int value
  | ptr loc => ptr (loc.place promoted)

/-- What a task can point to: its own variables, variables with a slot that were declared before,
and global memory. -/
def Reach (defs : Defs) (ids : List ℕ) : Loc → Prop
  | .stack alloca _ =>
    alloca ∈ ids ∧ alloca ∉ promoted ∨ alloca ∈ promoted ∧ codeOf defs alloca = some .alloca
  | .global _ _ _ => True
  | .tmp _ _ | .fresh => False

variable {promoted}

@[simp]
theorem Word.place_int (value : ℤ) : (int value).place promoted = int value :=
  rfl

@[simp]
theorem Word.place_ptr (loc : Loc) : (ptr loc).place promoted = ptr (loc.place promoted) :=
  rfl

@[simp]
theorem Word.toInt_place (word : Word) : (word.place promoted).toInt = word.toInt := by
  cases word <;> rfl

@[simp]
theorem Word.observed_place (word : Word) : (word.place promoted).observed = word.observed := by
  cases word with
  | int => rfl
  | ptr loc =>
    cases loc with
    | stack alloca element => simp only [place, Loc.place]; split <;> rfl
    | global | tmp | fresh => rfl

variable {alloca : ℕ} {loc : Loc}

theorem Loc.owner_of_base (h : loc.base = (stack alloca 0).base) :
    loc.owner = some (.alloca alloca) := by
  cases loc with
  | stack => cases h; rfl
  | global | tmp | fresh => cases h

variable {element : ℤ}

theorem Loc.place_of_mem (h : alloca ∈ promoted) :
    (stack alloca element).place promoted = tmp alloca element :=
  if_pos h

theorem Loc.place_of_not_mem (h : alloca ∉ promoted) :
    (stack alloca element).place promoted = stack alloca element :=
  if_neg h

theorem Loc.shift_place (loc : Loc) (k : ℤ) :
    (loc.place promoted).shift k = (loc.shift k).place promoted := by
  cases loc with
  | stack alloca element => by_cases h : alloca ∈ promoted <;> simp [place, shift, h]
  | global | tmp | fresh => rfl

theorem Loc.owner_shift (loc : Loc) (k : ℤ) : (loc.shift k).owner = loc.owner := by
  cases loc <;> rfl

variable {defs : Defs} {ids : List ℕ}

theorem Reach.shift (h : Reach promoted defs ids loc) (k : ℤ) :
    Reach promoted defs ids (loc.shift k) := by
  cases loc <;> exact h

theorem Reach.place_inj {loc' : Loc} (h : Reach promoted defs ids loc)
    (h' : Reach promoted defs ids loc') (heq : loc.place promoted = loc'.place promoted) :
    loc = loc' := by
  cases loc with
  | tmp | fresh => exact h.elim
  | global =>
    cases loc' with
    | tmp | fresh => exact h'.elim
    | global => exact heq
    | stack => simp only [Loc.place] at heq; split at heq <;> cases heq
  | stack =>
    cases loc' with
    | tmp | fresh => exact h'.elim
    | global => simp only [Loc.place] at heq; split at heq <;> cases heq
    | stack =>
      simp only [Loc.place] at heq
      split at heq <;> split at heq <;> cases heq <;> rfl

theorem Reach.place_ne_tmp (h : Reach promoted defs ids loc) {id : ℕ} {k : ℤ}
    (hid : codeOf defs id ≠ some .alloca) : loc.place promoted ≠ .tmp id k := by
  intro heq
  cases loc with
  | tmp | fresh => exact h
  | global => cases heq
  | stack alloca element =>
    simp only [Loc.place] at heq
    split at heq
    · rename_i hp
      cases heq
      rcases h with ⟨-, hnp⟩ | ⟨-, hcode⟩
      · exact hnp hp
      · exact hid hcode
    · cases heq

end Places

structure Settled (c : Setting) (kept : Instr → Bool) (s : State) (instr : Instr) : Prop where
  alloca : instr.code = .alloca → s.env instr.id = .ptr (.stack instr.id 0)
  repeats : instr.isRepeatable kept = true →
    s.env instr.id =
      (instr.code.run c (.stack instr.id 0) s.index (instr.operands.map s.env) s.mem).1

structure Context where
  setting : Setting
  promoted : List ℕ
  table : Defs
  kept : Instr → Bool

/-- The tasks are in state `t` where the root block is in state `s`. `defs` has the statements of
the root block that were executed, `ids` the statements of the current task, and `later` those of
the tasks after it. -/
structure Linked (k : Context) (defs : Defs) (ids later : List ℕ) (s t : State) : Prop where
  env : ∀ id ∈ ids, t.env id = (s.env id).place k.promoted
  reach : ∀ id ∈ ids, ∀ loc, s.env id = .ptr loc → Reach k.promoted defs ids loc
  mem : ∀ loc, Reach k.promoted defs ids loc → t.mem (loc.place k.promoted) = s.mem loc
  saved : ∀ instr, lookup defs instr.id = some instr → instr.id ∈ k.promoted →
    instr.code.isPointer = false → s.env instr.id = .int (t.mem (.tmp instr.id 0))
  settled : ∀ instr, lookup defs instr.id = some instr → Settled k.setting k.kept s instr
  owner : ∀ id loc, s.env id = .ptr loc → ownerOf k.table id = loc.owner
  unused : ∀ id ∈ later, s.env id = .int 0 ∧ ∀ element, s.mem (.stack id element) = 0
  log : t.log = s.log
  stopped : t.stopped = s.stopped

/-- What a statement other than an alloca does to the memories of the root block and of the
tasks. -/
inductive Effect (k : Context) (code : Code) (args : List Word) (mem mem' : Memory) :
    Memory → Memory → Prop where
  | none : Effect k code args mem mem' mem mem'
  | write (loc : Loc) (rest : List Word) (value : ℤ)
      (hcode : code = .localStore ∨ code = .globalStore ∨ code = .atomicOp)
      (hargs : args = .ptr loc :: rest) :
      Effect k code args mem mem' (mem.set loc value) (mem'.set (loc.place k.promoted) value)

section Run

variable {k : Context} {defs : Defs} {ids later : List ℕ}

theorem Code.run_place {code : Code} (hcode : code ≠ .alloca) (self : Loc) {index index' : ℕ → ℤ}
    (hindex : ∀ loop, code = .loopIndex loop → index' loop = index loop) {args : List Word}
    {mem mem' : Memory} (hmem : ∀ loc, .ptr loc ∈ args → mem' (loc.place k.promoted) = mem loc) :
    (code.run k.setting self index' (args.map (Word.place k.promoted)) mem').1 =
        (code.run k.setting self index args mem).1.place k.promoted ∧
      Effect k code args mem mem' (code.run k.setting self index args mem).2
        (code.run k.setting self index' (args.map (Word.place k.promoted)) mem').2 := by
  have htoInt : (args.map (Word.place k.promoted)).map Word.toInt = args.map Word.toInt := by
    simp
  cases code with
  | alloca => exact absurd rfl hcode
  | const | argLoad | whileControl => exact ⟨rfl, .none⟩
  | loopIndex loop => exact ⟨congrArg Word.int (hindex loop rfl), .none⟩
  | arith op =>
    simp only [Code.run, htoInt]
    exact ⟨rfl, .none⟩
  | globalPtr field activate =>
    simp only [Code.run, htoInt]
    exact ⟨rfl, .none⟩
  | externalPtr arg =>
    simp only [Code.run, htoInt]
    exact ⟨rfl, .none⟩
  | matrixPtr =>
    match args with
    | [] | [.int _] | [.ptr _] | .int _ :: _ :: _ | [.ptr _, .ptr _] | .ptr _ :: .ptr _ :: _ :: _
    | .ptr _ :: .int _ :: _ :: _ => exact ⟨rfl, .none⟩
    | [.ptr loc, .int k] => exact ⟨congrArg Word.ptr (loc.shift_place k), .none⟩
  | localLoad | globalLoad =>
    match args with
    | [] | [.int _] | .int _ :: _ :: _ | .ptr _ :: _ :: _ => exact ⟨rfl, .none⟩
    | [.ptr loc] => exact ⟨congrArg Word.int (hmem loc (mem_cons_self ..)), .none⟩
  | localStore =>
    match args with
    | [] | [.int _] | [.ptr _] | [.int _, _] | .int _ :: _ :: _ :: _ | .ptr _ :: _ :: _ :: _ =>
      exact ⟨rfl, .none⟩
    | [.ptr loc, value] =>
      simp only [Code.run, map_cons, map_nil, Word.place_ptr, Word.toInt_place]
      exact ⟨rfl, .write loc [value] _ (.inl rfl) rfl⟩
  | globalStore =>
    match args with
    | [] | [.int _] | [.ptr _] | [.int _, _] | .int _ :: _ :: _ :: _ | .ptr _ :: _ :: _ :: _ =>
      exact ⟨rfl, .none⟩
    | [.ptr loc, value] =>
      simp only [Code.run, map_cons, map_nil, Word.place_ptr, Word.toInt_place]
      exact ⟨rfl, .write loc [value] _ (.inr (.inl rfl)) rfl⟩
  | atomicOp =>
    match args with
    | [] | [.int _] | [.ptr _] | [.int _, _] | .int _ :: _ :: _ :: _ | .ptr _ :: _ :: _ :: _ =>
      exact ⟨rfl, .none⟩
    | [.ptr loc, value] =>
      simp only [Code.run, map_cons, map_nil, Word.place_ptr, Word.toInt_place,
        hmem loc (mem_cons_self ..)]
      exact ⟨rfl, .write loc [value] _ (.inr (.inr rfl)) rfl⟩

end Run

def Code.isLoad (code : Code) : Prop :=
  code = .localLoad ∨ code = .globalLoad

/-- The operands of statements of the root block are statements of the root block. -/
def Closed (defs : Defs) : Prop :=
  ∀ instr ∈ defs, ∀ id ∈ instr.operands, id ∈ defs.map Instr.id

variable {id : ℕ} {instr : Instr}

variable {c : Setting} {defs : Defs} {kept : Instr → Bool} {s : State}

theorem lookup_mem (h : lookup defs id = some instr) : instr ∈ defs ∧ instr.id = id := by
  have hid := List.find?_some h
  exact ⟨List.mem_of_find?_eq_some h, of_decide_eq_true hid⟩

theorem mem_ids_of_lookup (h : lookup defs id = some instr) : id ∈ defs.map Instr.id := by
  obtain ⟨hmem, rfl⟩ := lookup_mem h
  exact mem_map_of_mem hmem

theorem Settled.define
    (h : Settled c kept s instr) (hid : instr.id ≠ id) (hops : id ∉ instr.operands)
    (word : Word) : Settled c kept (s.define id word) instr := by
  have henv : ∀ id', id' ≠ id → (s.define id word).env id' = s.env id' := by
    intro id' hne
    exact if_neg hne
  have hargs : instr.operands.map (s.define id word).env = instr.operands.map s.env := by
    apply map_congr_left
    intro id' hid'
    exact henv id' fun heq => hops (heq ▸ hid')
  constructor
  · intro hcode
    rw [henv _ hid]
    exact h.alloca hcode
  · intro hrepeat
    rw [henv _ hid, hargs, h.repeats hrepeat]
    exact Instr.run_of_isRepeatable c hrepeat fun _ _ _ => rfl

theorem Settled.setMem
    (h : Settled c kept s instr) {mem : Memory} (hload : instr.code.isLoad → kept instr = true →
      ∀ id ∈ instr.operands, ∀ loc, s.env id = .ptr loc → mem loc = s.mem loc) :
    Settled c kept { s with mem := mem } instr := by
  refine ⟨h.alloca, fun hrepeat => (h.repeats hrepeat).trans ?_⟩
  refine Instr.run_of_isRepeatable c hrepeat fun loc hargs hcode => ?_
  obtain ⟨id, hops, hloc⟩ : ∃ id, instr.operands = [id] ∧ s.env id = .ptr loc := by
    match hops : instr.operands with
    | [] => rw [hops] at hargs; cases hargs
    | _ :: _ :: _ => rw [hops] at hargs; simp at hargs
    | [id] => rw [hops] at hargs; exact ⟨id, rfl, singleton_inj.1 hargs⟩
  have hkept : kept instr = true := by
    unfold Instr.isRepeatable at hrepeat
    rcases hcode with hcode | hcode <;> rwa [hcode] at hrepeat
  exact (hload hcode hkept id (by rw [hops]; exact mem_singleton_self id) loc hloc).symm

namespace Linked

variable {k : Context} {defs : Defs} {ids later : List ℕ} {s t : State}

variable {id : ℕ}

theorem define (h : Linked k defs ids later s t) (hclosed : Closed defs)
    (hdefs : id ∉ defs.map Instr.id) (hlater : id ∉ later) {word : Word}
    (hword : ∀ loc, word = .ptr loc →
      Reach k.promoted defs ids loc ∧ ownerOf k.table id = loc.owner) :
    Linked k defs ids later (s.define id word) (t.define id (word.place k.promoted)) := by
  have hne : ∀ {instr}, lookup defs instr.id = some instr → instr.id ≠ id :=
    fun hlookup heq => hdefs (heq ▸ mem_ids_of_lookup hlookup)
  refine ⟨?_, ?_, h.mem, ?_, ?_, ?_, ?_, h.log, h.stopped⟩
  · intro id' hid'
    simp only [State.define]
    split
    · rfl
    · exact h.env id' hid'
  · intro id' hid' loc hloc
    simp only [State.define] at hloc
    split at hloc
    · exact (hword loc hloc).1
    · exact h.reach id' hid' loc hloc
  · intro instr hlookup hpromoted hcode
    simp only [State.define, if_neg (hne hlookup)]
    exact h.saved instr hlookup hpromoted hcode
  · intro instr hlookup
    refine (h.settled instr hlookup).define (hne hlookup) (fun hops => hdefs ?_) word
    exact hclosed instr (lookup_mem hlookup).1 id hops
  · intro id' loc hloc
    simp only [State.define] at hloc
    split at hloc
    · rename_i heq
      rw [heq]
      exact (hword loc hloc).2
    · exact h.owner id' loc hloc
  · intro id' hid'
    have hne' : id' ≠ id := fun heq => hlater (heq ▸ hid')
    simp only [State.define, if_neg hne']
    exact h.unused id' hid'

theorem setMem (h : Linked k defs ids later s t) {mem mem' : Memory}
    (hmem : ∀ loc, Reach k.promoted defs ids loc → mem' (loc.place k.promoted) = mem loc)
    (hsaved : ∀ id, id ∈ defs.map Instr.id → codeOf defs id ≠ some .alloca →
      mem' (.tmp id 0) = t.mem (.tmp id 0))
    (hload : ∀ instr, lookup defs instr.id = some instr → instr.code.isLoad →
      k.kept instr = true → ∀ id ∈ instr.operands, ∀ loc, s.env id = .ptr loc →
      mem loc = s.mem loc)
    (hlater : ∀ id ∈ later, ∀ element, mem (.stack id element) = s.mem (.stack id element)) :
    Linked k defs ids later { s with mem := mem } { t with mem := mem' } := by
  refine ⟨h.env, h.reach, hmem, ?_, ?_, h.owner, ?_, h.log, h.stopped⟩
  · intro instr hlookup hpromoted hcode
    have hne : codeOf defs instr.id ≠ some .alloca := by
      intro heq
      rw [codeOf, hlookup] at heq
      rw [Option.some.inj heq] at hcode
      cases hcode
    have hslot := hsaved instr.id (mem_ids_of_lookup hlookup) hne
    exact (h.saved instr hlookup hpromoted hcode).trans (congrArg Word.int hslot.symm)
  · intro instr hlookup
    exact (h.settled instr hlookup).setMem (hload instr hlookup)
  · intro id hid
    refine ⟨(h.unused id hid).1, fun element => ?_⟩
    exact (hlater id hid element).trans ((h.unused id hid).2 element)

theorem finish (h : Linked k defs ids later s t) {entry : ℕ × List (Option Word)} {stopped : Bool} :
    Linked k defs ids later { s with log := s.log ++ [entry], stopped := stopped }
      { t with log := t.log ++ [entry], stopped := stopped } :=
  ⟨h.env, h.reach, h.mem, h.saved, fun instr hlookup => ⟨(h.settled instr hlookup).alloca,
    (h.settled instr hlookup).repeats⟩, h.owner, h.unused, by rw [h.log], rfl⟩

/-- What a statement writes to, by its owner, is not read by a load that is kept. -/
def Spares (k : Context) (defs : Defs) (owner : Option Owner) : Prop :=
  ∀ instr, lookup defs instr.id = some instr → instr.code.isLoad → k.kept instr = true →
    ∀ id ∈ instr.operands, ownerOf k.table id ≠ owner

theorem write (h : Linked k defs ids later s t) {loc : Loc}
    (hreach : Reach k.promoted defs ids loc) (hspares : Spares k defs loc.owner)
    (hids : ∀ id ∈ ids, id ∉ later) (hdefs : ∀ id ∈ defs.map Instr.id, id ∉ later) (value : ℤ) :
    Linked k defs ids later { s with mem := s.mem.set loc value }
      { t with mem := t.mem.set (loc.place k.promoted) value } := by
  refine h.setMem ?_ ?_ ?_ ?_
  · intro loc' hreach'
    simp only [Memory.set]
    by_cases heq : loc' = loc
    · rw [heq, if_pos rfl, if_pos rfl]
    · rw [if_neg heq, if_neg fun hplace => heq (hreach'.place_inj hreach hplace)]
      exact h.mem loc' hreach'
  · intro id _ hcode
    exact if_neg (hreach.place_ne_tmp hcode).symm
  · intro instr hlookup hcode hkept id hid loc' hloc'
    refine if_neg fun heq => hspares instr hlookup hcode hkept id hid ?_
    rw [← heq]
    exact h.owner id loc' hloc'
  · intro id hid element
    refine if_neg fun heq => ?_
    subst heq
    rcases hreach with ⟨hmem, -⟩ | ⟨-, hcode⟩
    · exact hids id hmem hid
    · obtain ⟨instr, hlookup, -⟩ := Option.map_eq_some_iff.1 hcode
      exact hdefs id (mem_ids_of_lookup hlookup) hid

theorem zero (h : Linked k defs ids later s t)
    (hpromoted : id ∉ k.promoted) (hspares : Spares k defs (some (.alloca id)))
    (hlater : id ∉ later) : Linked k defs ids later { s with mem := s.mem.zero (.stack id 0) }
      { t with mem := t.mem.zero (.stack id 0) } := by
  refine h.setMem ?_ ?_ ?_ ?_
  · intro loc hreach
    have hmem := h.mem loc hreach
    cases loc with
    | tmp | fresh => exact hreach.elim
    | global space indices element => exact hmem
    | stack alloca element =>
      by_cases halloca : alloca ∈ k.promoted
      · have hne : alloca ≠ id := fun heq => hpromoted (heq ▸ halloca)
        rw [Loc.place_of_mem halloca] at hmem ⊢
        rw [Memory.zero, Memory.zero, if_neg (by simp [Loc.base]),
          if_neg (by simp [Loc.base, hne]), hmem]
      · rw [Loc.place_of_not_mem halloca] at hmem ⊢
        rw [Memory.zero, Memory.zero, hmem]
  · intro id' _ _
    exact if_neg (by simp [Loc.base])
  · intro instr hlookup hcode hkept id' hid' loc hloc
    refine if_neg fun heq => hspares instr hlookup hcode hkept id' hid' ?_
    rw [h.owner id' loc hloc, Loc.owner_of_base heq]
  · intro id' hid' element
    refine if_neg fun heq => ?_
    cases heq
    exact hlater hid'

theorem save (h : Linked k defs ids later s t) (hdefs : id ∉ defs.map Instr.id)
    (value : ℤ) : Linked k defs ids later s { t with mem := t.mem.set (.tmp id 0) value } := by
  have hcode : codeOf defs id ≠ some .alloca := by
    intro heq
    obtain ⟨instr, hlookup, -⟩ := Option.map_eq_some_iff.1 heq
    exact hdefs (mem_ids_of_lookup hlookup)
  refine h.setMem ?_ ?_ (fun _ _ _ _ _ _ _ _ => rfl) (fun _ _ _ => rfl)
  · intro loc hreach
    rw [← h.mem loc hreach]
    exact if_neg (hreach.place_ne_tmp hcode)
  · intro id' hid' _
    refine if_neg fun heq => hdefs ?_
    cases heq
    exact hid'

end Linked

end Quadrants.CrossTask
