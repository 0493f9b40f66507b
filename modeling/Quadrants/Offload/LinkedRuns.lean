import Quadrants.Offload.Linked

/-!
Every statement of a task keeps the tasks linked to the root block.
-/

namespace Quadrants.CrossTask

open Library.StructuredRuns List Option

variable {c : Setting} {id : ℕ} {instr : Instr} {mem : Memory}

theorem Code.run_ptr {code : Code} {self loc : Loc} {index : ℕ → ℤ}
    {args : List Word} (h : (code.run c self index args mem).1 = .ptr loc) :
    code = .alloca ∧ loc = self ∨ (∃ field activate indices, code = .globalPtr field activate ∧
      loc = .global (.field field) indices 0) ∨
    (∃ arg indices, code = .externalPtr arg ∧ loc = .global (.external arg) indices 0) ∨
    ∃ origin offset, code = .matrixPtr ∧ args = [.ptr origin, .int offset] ∧
      loc = origin.shift offset := by
  cases code with
  | const | argLoad | arith | loopIndex | whileControl => cases h
  | alloca => exact .inl ⟨rfl, (Word.ptr.inj h).symm⟩
  | globalPtr field activate => exact .inr (.inl ⟨field, activate, _, rfl, (Word.ptr.inj h).symm⟩)
  | externalPtr arg => exact .inr (.inr (.inl ⟨arg, _, rfl, (Word.ptr.inj h).symm⟩))
  | matrixPtr =>
    simp only [Code.run] at h
    split at h
    · exact .inr (.inr (.inr ⟨_, _, rfl, rfl, (Word.ptr.inj h).symm⟩))
    · cases h
  | localLoad | globalLoad | localStore | globalStore | atomicOp =>
    simp only [Code.run] at h
    split at h <;> cases h

theorem evalArgs_map {t : State} {f : ℕ → Arg} {g : ℕ → Word} :
    ∀ operands : List ℕ, (∀ id ∈ operands, (f id).eval c t mem = (g id, mem)) →
      evalArgs c t (operands.map f) mem = (operands.map g, mem)
  | [], _ => rfl
  | id :: operands, h => by
    have hrest := evalArgs_map operands fun id' hid' => h id' (mem_cons_of_mem id hid')
    simp [evalArgs, h id (mem_cons_self ..), hrest]

theorem lookup_cons_self (instr : Instr) (defs : Defs) :
    lookup (instr :: defs) instr.id = some instr := by
  simp [lookup]

theorem lookup_cons_of_ne (h : instr.id ≠ id) (defs : Defs) :
    lookup (instr :: defs) id = lookup defs id := by
  simp [lookup, h]

theorem lookup_cons {other : Instr} {defs : Defs} (h : lookup (instr :: defs) id = some other) :
    instr = other ∧ instr.id = id ∨ instr.id ≠ id ∧ lookup defs id = some other := by
  by_cases heq : instr.id = id
  · subst heq
    rw [lookup_cons_self] at h
    exact .inl ⟨Option.some.inj h, rfl⟩
  · rw [lookup_cons_of_ne heq] at h
    exact .inr ⟨heq, h⟩

namespace Linked

variable {k : Context} {defs : Defs} {ids later : List ℕ} {s t : State}

theorem reach_run {code : Code} (hcode : code ≠ .alloca) {self : Loc} {index : ℕ → ℤ}
    {args : List Word} (hargs : ∀ loc, .ptr loc ∈ args → Reach k.promoted defs ids loc)
    {mem : Memory} {loc : Loc} (hloc : (code.run k.setting self index args mem).1 = .ptr loc) :
    Reach k.promoted defs ids loc := by
  rcases Code.run_ptr hloc with ⟨halloca, -⟩ | ⟨_, _, _, -, rfl⟩ | ⟨_, _, -, rfl⟩ |
    ⟨origin, offset, -, rfl, rfl⟩
  · exact absurd halloca hcode
  · trivial
  · trivial
  · exact (hargs origin (mem_cons_self ..)).shift offset

theorem eval_fixCross (h : Linked k defs ids later s t) (before : Defs) :
    (∀ instr ∈ before, lookup defs instr.id = some instr) → ∀ id,
    recomputes k.promoted k.kept before id = true →
      (fixCross k.promoted before id).eval k.setting t t.mem =
        ((s.env id).place k.promoted, t.mem) ∧
      ∀ loc, s.env id = .ptr loc → Reach k.promoted defs ids loc := by
  induction before with
  | nil => intro _ id hid; cases hid
  | cons instr before ih =>
    intro hbefore id hid
    have ih := ih fun instr' hinstr' => hbefore instr' (mem_cons_of_mem instr hinstr')
    have hlookup := hbefore instr (mem_cons_self ..)
    have hsettled := h.settled instr hlookup
    unfold recomputes at hid
    unfold fixCross
    by_cases heq : instr.id = id
    · subst heq
      rw [if_pos rfl] at hid ⊢
      by_cases hcloned : isCloned k.promoted instr = true
      · rw [if_pos hcloned] at hid ⊢
        obtain ⟨hrepeat, hops⟩ := Bool.and_eq_true_iff.1 hid
        have hops := all_eq_true.1 hops
        have hargs : ∀ loc, .ptr loc ∈ instr.operands.map s.env →
            Reach k.promoted defs ids loc := by
          intro loc hloc
          obtain ⟨id, hmem, hid⟩ := mem_map.1 hloc
          exact (ih id (hops id hmem)).2 loc hid
        have hcode : instr.code ≠ .alloca := by
          intro halloca
          rw [Instr.isRepeatable, halloca] at hrepeat
          cases hrepeat
        have hindex : ∀ loop, instr.code = .loopIndex loop → t.index loop = s.index loop := by
          intro loop hloop
          rw [Instr.isRepeatable, hloop] at hrepeat
          cases hrepeat
        have hself : s.env instr.id =
            (instr.code.run k.setting .fresh s.index (instr.operands.map s.env) s.mem).1 :=
          (hsettled.repeats hrepeat).trans
            (Instr.run_of_isRepeatable k.setting hrepeat fun _ _ _ => rfl)
        have hvalue := (Code.run_place (k := k) hcode .fresh hindex
          fun loc hloc => h.mem loc (hargs loc hloc)).1
        rw [← hself] at hvalue
        rw [Arg.eval, evalArgs_map instr.operands fun id hid => (ih id (hops id hid)).1]
        refine ⟨Prod.ext ?_ (Instr.run_mem_of_isRepeatable k.setting hrepeat _ _ _ _), ?_⟩
        · simpa only [List.map_map, Function.comp_def] using hvalue
        · intro loc hloc
          rw [hsettled.repeats hrepeat] at hloc
          exact reach_run hcode hargs hloc
      · rw [if_neg hcloned] at hid ⊢
        have hpromoted : instr.id ∈ k.promoted := by
          unfold isCloned at hcloned
          split at hcloned
          · exact absurd rfl hcloned
          · simpa using hcloned
        by_cases halloca : instr.code = .alloca
        · rw [if_pos (by rw [halloca]; rfl), hsettled.alloca halloca, Word.place_ptr,
            Loc.place_of_mem hpromoted]
          refine ⟨rfl, fun loc hloc => ?_⟩
          cases hloc
          exact .inr ⟨hpromoted, by rw [codeOf, hlookup, ← halloca]; rfl⟩
        · have hpointer : instr.code.isPointer = false := by
            simpa [halloca] using hid
          rw [if_neg (by simp [hpointer]), h.saved instr hlookup hpromoted hpointer]
          exact ⟨rfl, fun loc hloc => by cases hloc⟩
    · rw [if_neg heq] at hid ⊢
      exact ih id hid

end Linked

structure OwnerKnown (table : Defs) (instr : Instr) : Prop where
  alloca : instr.code = .alloca → ownerOf table instr.id = some (.alloca instr.id)
  globalPtr : ∀ field activate, instr.code = .globalPtr field activate →
    ownerOf table instr.id = some (.space (.field field))
  externalPtr : ∀ arg, instr.code = .externalPtr arg →
    ownerOf table instr.id = some (.space (.external arg))
  matrixPtr : instr.code = .matrixPtr → ∀ origin rest, instr.operands = origin :: rest →
    ownerOf table instr.id = ownerOf table origin

/-- What the statements before, `defs`, and those before the task, `before`, give an operand. -/
def Available (k : Context) (before defs : Defs) (task : Block) (id : ℕ) : Prop :=
  id ∈ idsOf task ∧ (codeOf (blockLeaves task) id = some .alloca → id ∈ k.promoted →
    codeOf defs id = some .alloca) ∨
  id ∉ idsOf task ∧ recomputes k.promoted k.kept before id = true

structure Ready (k : Context) (before defs : Defs) (task : Block) (later : List ℕ)
    (instr : Instr) : Prop where
  inTask : instr.id ∈ idsOf task
  isNew : instr.id ∉ defs.map Instr.id
  operands : ∀ id ∈ instr.operands, Available k before defs task id
  alloca : instr.code = .alloca → instr.operands = []
  loop : ∀ loop, instr.code = .loopIndex loop → loop ∈ idsOf task
  spares : ∀ owner ∈ instr.writes k.table, Linked.Spares k defs owner
  owner : OwnerKnown k.table instr

/-- How the statements before, those of the task and those after it stand to each other. -/
structure Arranged (before defs : Defs) (task : Block) (later : List ℕ) : Prop where
  closed : Closed defs
  before : ∀ instr ∈ before, lookup defs instr.id = some instr
  task : ∀ id ∈ idsOf task, id ∉ later
  defs : ∀ id ∈ defs.map Instr.id, id ∉ later

namespace Linked

variable {k : Context} {before defs : Defs} {task : Block} {later : List ℕ} {s t : State}

variable {args : List Word} {id : ℕ} {ids : List ℕ} {mem : Memory}
variable {result result' : Word × Memory}

theorem eval_fixOperand (h : Linked k defs (idsOf task) later s t)
    (ha : Arranged before defs task later) (hid : Available k before defs task id) :
    (fixOperand k.promoted before task id).eval k.setting t t.mem =
        ((s.env id).place k.promoted, t.mem) ∧
      ∀ loc, s.env id = .ptr loc → Reach k.promoted defs (idsOf task) loc := by
  unfold fixOperand
  rcases hid with ⟨hmem, hslot⟩ | ⟨hmem, hid⟩
  · rw [if_pos hmem]
    refine ⟨?_, h.reach id hmem⟩
    split
    · rename_i hcond
      simp only [Bool.and_eq_true, decide_eq_true_eq] at hcond
      obtain ⟨instr, hlookup, halloca⟩ := map_eq_some_iff.1 (hslot hcond.1 hcond.2)
      obtain ⟨-, rfl⟩ := lookup_mem hlookup
      rw [(h.settled instr hlookup).alloca halloca, Word.place_ptr, Loc.place_of_mem hcond.2]
      rfl
    · rw [← h.env id hmem]
      rfl
  · rw [if_neg hmem]
    exact h.eval_fixCross before ha.before id hid

variable {instr : Instr}

theorem owner_run (h : Linked k defs (idsOf task) later s t)
    (howner : OwnerKnown k.table instr) {index : ℕ → ℤ} {loc : Loc}
    (hloc : (instr.code.run k.setting (.stack instr.id 0) index
      (instr.operands.map s.env) mem).1 = .ptr loc) :
    ownerOf k.table instr.id = loc.owner := by
  rcases Code.run_ptr hloc with ⟨hcode, rfl⟩ | ⟨field, activate, _, hcode, rfl⟩ |
    ⟨arg, _, hcode, rfl⟩ | ⟨origin, offset, hcode, hargs, rfl⟩
  · exact howner.alloca hcode
  · exact howner.globalPtr field activate hcode
  · exact howner.externalPtr arg hcode
  · obtain ⟨id, rest, hops, hid, -⟩ := map_eq_cons_iff.1 hargs
    rw [howner.matrixPtr hcode id rest hops, h.owner id origin hid, Loc.owner_shift]

theorem stops_place (code : Code) (args : List Word) :
    code.stops (args.map (Word.place k.promoted)) = code.stops args := by
  cases code with
  | whileControl => simp [Code.stops, List.all_map, Function.comp_def]
  | _ => rfl

theorem finished {mem' : Memory}
    (h : Linked k defs ids later { s with mem := mem } { t with mem := mem' })
    (hclosed : Closed defs) (hdefs : id ∉ defs.map Instr.id) (hlater : id ∉ later)
    {word : Word} (hword : ∀ loc, word = .ptr loc →
      Reach k.promoted defs ids loc ∧ ownerOf k.table id = loc.owner)
    (code : Code) (args : List Word) :
    Linked k defs ids later (s.finish id code args (word, mem))
      (t.finish id code (args.map (Word.place k.promoted)) (word.place k.promoted, mem')) := by
  have hobserved : (args.map (Word.place k.promoted)).map Word.observed =
      args.map Word.observed := by
    simp
  unfold State.finish
  rw [hobserved, stops_place]
  exact (h.define hclosed hdefs hlater hword).finish

theorem run_instr (h : Linked k defs (idsOf task) later s t) (ha : Arranged before defs task later)
    (hready : Ready k before defs task later instr)
    (hslot : instr.code = .alloca → instr.id ∉ k.promoted)
    (hargs : args = instr.operands.map s.env)
    (hreach : ∀ loc, .ptr loc ∈ args → Reach k.promoted defs (idsOf task) loc)
    (hresult : result = instr.code.run k.setting (.stack instr.id 0) s.index args s.mem)
    (hresult' : result' = instr.code.run k.setting (.stack instr.id 0) t.index
      (args.map (Word.place k.promoted)) t.mem) :
    result'.1 = result.1.place k.promoted ∧
      (∀ loc, result.1 = .ptr loc → Reach k.promoted defs (idsOf task) loc) ∧
      Linked k defs (idsOf task) later { s with mem := result.2 } { t with mem := result'.2 } := by
  by_cases hcode : instr.code = .alloca
  · have hpromoted := hslot hcode
    have hspares := hready.spares (some (.alloca instr.id)) (by simp [Instr.writes, hcode])
    have hzero := h.zero hpromoted hspares (ha.task _ hready.inTask)
    rw [hcode] at hresult hresult'
    subst hresult hresult'
    refine ⟨?_, ?_, hzero⟩
    · simp [Code.run, Loc.place_of_not_mem hpromoted]
    · intro loc hloc
      cases hloc
      exact .inl ⟨hready.inTask, hpromoted⟩
  · have hindex : ∀ loop, instr.code = .loopIndex loop → t.index loop = s.index loop := by
      intro loop hloop
      rw [State.index, State.index, h.env loop (hready.loop loop hloop), Word.toInt_place]
    obtain ⟨hvalue, heffect⟩ := Code.run_place (k := k) hcode (.stack instr.id 0) hindex
      fun loc hloc => h.mem loc (hreach loc hloc)
    rw [← hresult, ← hresult'] at hvalue heffect
    refine ⟨hvalue, fun loc hloc => reach_run hcode hreach (hresult ▸ hloc), ?_⟩
    revert heffect
    generalize result.2 = mem
    generalize result'.2 = mem'
    intro heffect
    cases heffect with
    | none => exact h
    | write loc rest value hstore hptr =>
      have hloc := hreach loc (by rw [hptr]; exact mem_cons_self ..)
      obtain ⟨id, ids, hops, hid, -⟩ := map_eq_cons_iff.1 (hargs.symm.trans hptr)
      refine h.write hloc (hready.spares _ ?_) ha.task ha.defs value
      rw [← h.owner id loc hid, Instr.writes, hops]
      rcases hstore with hstore | hstore | hstore <;> simp [hstore]

theorem reach_operands (h : Linked k defs (idsOf task) later s t)
    (ha : Arranged before defs task later) (hready : Ready k before defs task later instr) :
    ∀ loc, .ptr loc ∈ instr.operands.map s.env → Reach k.promoted defs (idsOf task) loc := by
  intro loc hloc
  obtain ⟨id, hmem, hid⟩ := mem_map.1 hloc
  exact (h.eval_fixOperand ha (hready.operands id hmem)).2 loc hid

theorem exec_fixInstr (h : Linked k defs (idsOf task) later s t)
    (ha : Arranged before defs task later) (hready : Ready k before defs task later instr)
    (hslot : instr.code = .alloca → instr.id ∉ k.promoted)
    (hargs : args = instr.operands.map s.env)
    (hresult : result = instr.code.run k.setting (.stack instr.id 0) s.index args s.mem)
    (hresult' : result' = instr.code.run k.setting (.stack instr.id 0) t.index
      (args.map (Word.place k.promoted)) t.mem) :
    (fixInstr k.promoted before task instr).exec k.setting t =
      t.finish instr.id instr.code (args.map (Word.place k.promoted))
        (result.1.place k.promoted,
          if instr.id ∈ k.promoted then result'.2.set (.tmp instr.id 0) result.1.toInt
          else result'.2) := by
  have hfixed : fixInstr k.promoted before task instr =
      .instr instr.id instr.code (instr.operands.map (fixOperand k.promoted before task))
        (instr.id ∈ k.promoted) := by
    unfold fixInstr
    simpa using hslot
  have hplaced : instr.operands.map (fun id => (s.env id).place k.promoted) =
      args.map (Word.place k.promoted) := by
    rw [hargs, List.map_map]
    rfl
  have hreach := h.reach_operands ha hready
  rw [← hargs] at hreach
  have hvalue := (h.run_instr ha hready hslot hargs hreach hresult hresult').1
  rw [hfixed, FixedInstr.exec, evalArgs_map instr.operands
    fun id hid => (h.eval_fixOperand ha (hready.operands id hid)).1, hplaced]
  simp [← hresult', hvalue]

theorem exec_instr (h : Linked k defs (idsOf task) later s t) (ha : Arranged before defs task later)
    (hready : Ready k before defs task later instr)
    (hslot : instr.code = .alloca → instr.id ∉ k.promoted) :
    Linked k defs (idsOf task) later (instr.exec k.setting s)
      ((fixInstr k.promoted before task instr).exec k.setting t) := by
  obtain ⟨-, hreach, hmem⟩ :=
    h.run_instr ha hready hslot rfl (h.reach_operands ha hready) rfl rfl
  rw [h.exec_fixInstr ha hready hslot rfl rfl rfl]
  refine finished ?_ ha.closed hready.isNew (ha.task _ hready.inTask)
    (fun loc hloc => ⟨hreach loc hloc, h.owner_run hready.owner hloc⟩) _ _
  by_cases hstored : instr.id ∈ k.promoted
  · rw [if_pos hstored]
    exact hmem.save hready.isNew _
  · rw [if_neg hstored]
    exact hmem

theorem extend (h : Linked k defs ids later s t)
    (hnew : instr.id ∉ defs.map Instr.id) (hslot : instr.code = .alloca → instr.id ∉ k.promoted)
    (hsettled : Settled k.setting k.kept s instr)
    (hsaved : instr.id ∈ k.promoted → instr.code.isPointer = false →
      s.env instr.id = .int (t.mem (.tmp instr.id 0))) :
    Linked k (instr :: defs) ids later s t := by
  have hreach : ∀ loc, Reach k.promoted (instr :: defs) ids loc ↔
      Reach k.promoted defs ids loc := by
    intro loc
    cases loc with
    | global | tmp | fresh => exact Iff.rfl
    | stack alloca element =>
      refine or_congr Iff.rfl (and_congr_right fun hpromoted => ?_)
      by_cases heq : instr.id = alloca
      · subst heq
        have hdefs : codeOf defs instr.id ≠ some .alloca := by
          intro hcode
          obtain ⟨_, hlookup, -⟩ := map_eq_some_iff.1 hcode
          exact hnew (mem_ids_of_lookup hlookup)
        have hinstr : codeOf (instr :: defs) instr.id ≠ some .alloca := by
          rw [codeOf, lookup_cons_self]
          exact fun hcode => hslot (Option.some.inj hcode) hpromoted
        exact iff_of_false hinstr hdefs
      · rw [codeOf, codeOf, lookup_cons_of_ne heq]
  refine ⟨h.env, ?_, ?_, ?_, ?_, h.owner, h.unused, h.log, h.stopped⟩
  · intro id hid loc hloc
    exact (hreach loc).2 (h.reach id hid loc hloc)
  · intro loc hloc
    exact h.mem loc ((hreach loc).1 hloc)
  · intro other hlookup hpromoted hcode
    rcases lookup_cons hlookup with ⟨rfl, -⟩ | ⟨-, hlookup⟩
    · exact hsaved hpromoted hcode
    · exact h.saved other hlookup hpromoted hcode
  · intro other hlookup
    rcases lookup_cons hlookup with ⟨rfl, -⟩ | ⟨-, hlookup⟩
    · exact hsettled
    · exact h.settled other hlookup

theorem settled_exec (hself : instr.id ∉ instr.operands) :
    Settled k.setting k.kept (instr.exec k.setting s) instr := by
  have henv : (instr.exec k.setting s).env instr.id =
      (instr.code.run k.setting (.stack instr.id 0) s.index (instr.operands.map s.env)
        s.mem).1 := if_pos rfl
  have hargs : instr.operands.map (instr.exec k.setting s).env = instr.operands.map s.env := by
    apply map_congr_left
    intro id hid
    refine if_neg ?_
    rintro rfl
    exact hself hid
  constructor
  · intro hcode
    rw [henv, hcode]
    rfl
  · intro hrepeat
    rw [henv, hargs]
    refine Instr.run_of_isRepeatable k.setting hrepeat fun loc _ _ => ?_
    exact (congrFun (Instr.run_mem_of_isRepeatable k.setting hrepeat _ _ _ _) loc).symm

theorem run_int {c : Setting} {code : Code} (hcode : code.isPointer = false) (self : Loc)
    (index : ℕ → ℤ) (args : List Word) (mem : Memory) :
    (code.run c self index args mem).1 = .int (code.run c self index args mem).1.toInt := by
  cases hvalue : (code.run c self index args mem).1 with
  | int value => rfl
  | ptr loc =>
    rcases Code.run_ptr hvalue with ⟨rfl, -⟩ | ⟨_, _, _, rfl, -⟩ | ⟨_, _, rfl, -⟩ |
      ⟨_, _, rfl, -, -⟩ <;> cases hcode

theorem exec_slot (h : Linked k defs (idsOf task) later s t) (ha : Arranged before defs task later)
    (hready : Ready k before defs task later instr) (hcode : instr.code = .alloca)
    (hpromoted : instr.id ∈ k.promoted) :
    Linked k (instr :: defs) (idsOf task) later (instr.exec k.setting s)
      ((FixedInstr.slot instr.id).exec k.setting t) := by
  have hexec : instr.exec k.setting s =
      s.finish instr.id .alloca [] (.ptr (.stack instr.id 0), s.mem.zero (.stack instr.id 0)) := by
    rw [Instr.exec, hready.alloca hcode, hcode]
    rfl
  have hself : ∀ element, Reach k.promoted (instr :: defs) (idsOf task) (.stack instr.id element) :=
    fun _ => .inr ⟨hpromoted, by rw [codeOf, lookup_cons_self, ← hcode]; rfl⟩
  have hne : ∀ {other}, lookup defs other.id = some other → other.id ≠ instr.id :=
    fun hlookup heq => hready.isNew (heq ▸ mem_ids_of_lookup hlookup)
  have hmono : ∀ loc, Reach k.promoted defs (idsOf task) loc →
      Reach k.promoted (instr :: defs) (idsOf task) loc := by
    intro loc hloc
    cases loc with
    | global | tmp | fresh => exact hloc
    | stack alloca element =>
      refine hloc.imp_right fun hboth => ⟨hboth.1, ?_⟩
      have halloca := hboth.2
      obtain ⟨other, hlookup, -⟩ := map_eq_some_iff.1 halloca
      obtain ⟨-, rfl⟩ := lookup_mem hlookup
      rwa [codeOf, lookup_cons_of_ne (hne hlookup).symm]
  have hspares := hready.spares (some (.alloca instr.id)) (by simp [Instr.writes, hcode])
  rw [hexec]
  refine ⟨?_, ?_, ?_, ?_, ?_, ?_, ?_, ?_, rfl⟩
  · intro id hid
    by_cases heq : id = instr.id
    · simp [FixedInstr.exec, State.finish, State.define, if_pos heq, Loc.place_of_mem hpromoted]
    · simp only [FixedInstr.exec, State.finish, State.define, if_neg heq]
      exact h.env id hid
  · intro id hid loc hloc
    by_cases heq : id = instr.id
    · simp only [State.finish, State.define, if_pos heq] at hloc
      cases hloc
      exact hself 0
    · simp only [State.finish, State.define, if_neg heq] at hloc
      exact hmono loc (h.reach id hid loc hloc)
  · intro loc hloc
    change (t.mem.zero (.tmp instr.id 0)) (loc.place k.promoted) =
      (s.mem.zero (.stack instr.id 0)) loc
    cases loc with
    | tmp | fresh => exact hloc.elim
    | global space indices element => exact h.mem _ hloc
    | stack alloca element =>
      by_cases heq : instr.id = alloca
      · subst heq
        rw [Loc.place_of_mem hpromoted, Memory.zero, Memory.zero, if_pos (by rfl), if_pos (by rfl)]
      · have hold : Reach k.promoted defs (idsOf task) (.stack alloca element) := by
          refine hloc.imp_right fun hboth => ⟨hboth.1, ?_⟩
          have halloca := hboth.2
          rwa [codeOf, lookup_cons_of_ne heq] at halloca
        have hmem := h.mem _ hold
        by_cases halloca : alloca ∈ k.promoted
        · rw [Loc.place_of_mem halloca] at hmem ⊢
          rw [Memory.zero, Memory.zero, if_neg (by simp [Loc.base, Ne.symm heq]),
            if_neg (by simp [Loc.base, Ne.symm heq]), hmem]
        · rw [Loc.place_of_not_mem halloca] at hmem ⊢
          rw [Memory.zero, Memory.zero, if_neg (by simp [Loc.base]),
            if_neg (by simp [Loc.base, Ne.symm heq]), hmem]
  · intro other hlookup hpromoted' hcode'
    rcases lookup_cons hlookup with ⟨rfl, -⟩ | ⟨hother, hlookup⟩
    · rw [hcode] at hcode'
      cases hcode'
    · simp only [FixedInstr.exec, State.finish, State.define, if_neg hother.symm, Memory.zero]
      rw [if_neg (by simp [Loc.base, hother.symm])]
      exact h.saved other hlookup hpromoted' hcode'
  · intro other hlookup
    rcases lookup_cons hlookup with ⟨rfl, -⟩ | ⟨hother, hlookup⟩
    · refine ⟨fun _ => if_pos rfl, fun hrepeat => ?_⟩
      rw [Instr.isRepeatable, hcode] at hrepeat
      cases hrepeat
    · have hops : instr.id ∉ other.operands :=
        fun hmem => hready.isNew (ha.closed other (lookup_mem hlookup).1 _ hmem)
      have hzero : Settled k.setting k.kept { s with mem := s.mem.zero (.stack instr.id 0) }
          other := by
        refine (h.settled other hlookup).setMem fun hload hkept id hid loc hloc => ?_
        refine if_neg fun hbase => hspares other hlookup hload hkept id hid ?_
        exact (h.owner id loc hloc).trans (Loc.owner_of_base hbase)
      have hsettled := hzero.define hother.symm hops (.ptr (.stack instr.id 0))
      exact ⟨hsettled.alloca, hsettled.repeats⟩
  · intro id loc hloc
    by_cases heq : id = instr.id
    · simp only [State.finish, State.define, if_pos heq] at hloc
      cases hloc
      rw [heq]
      exact hready.owner.alloca hcode
    · simp only [State.finish, State.define, if_neg heq] at hloc
      exact h.owner id loc hloc
  · intro id hid
    have hid' : id ≠ instr.id := fun heq => ha.task _ hready.inTask (heq ▸ hid)
    simp only [State.finish, State.define, if_neg hid', Memory.zero]
    refine ⟨(h.unused id hid).1, fun element => ?_⟩
    rw [if_neg (by simp [Loc.base, hid'])]
    exact (h.unused id hid).2 element
  · simp only [FixedInstr.exec, State.finish, h.log]

theorem exec_top (h : Linked k defs (idsOf task) later s t) (ha : Arranged before defs task later)
    (hready : Ready k before defs task later instr) (hself : instr.id ∉ instr.operands) :
    Linked k (instr :: defs) (idsOf task) later (instr.exec k.setting s)
      ((fixInstr k.promoted before task instr).exec k.setting t) := by
  by_cases hslot : instr.code = .alloca ∧ instr.id ∈ k.promoted
  · have hfixed : fixInstr k.promoted before task instr = .slot instr.id := by
      unfold fixInstr
      simpa using hslot
    rw [hfixed]
    exact h.exec_slot ha hready hslot.1 hslot.2
  · have hslot' : instr.code = .alloca → instr.id ∉ k.promoted :=
      fun hcode hpromoted => hslot ⟨hcode, hpromoted⟩
    have hexec := h.exec_instr ha hready hslot'
    refine hexec.extend hready.isNew hslot' (settled_exec hself) fun hpromoted hcode => ?_
    rw [h.exec_fixInstr ha hready hslot' rfl rfl rfl, if_pos hpromoted]
    refine Eq.trans (if_pos rfl) ((run_int hcode _ _ _ _).trans (congrArg Word.int ?_))
    exact (if_pos rfl).symm

end Linked

end Quadrants.CrossTask

/-!
The tasks of a kernel compute what its root block computes, as long as every statement finds its
operands.
-/

namespace Quadrants.CrossTask

open Library.StructuredRuns

/-- What the kernel and its tasks have in common in the end: the global memory, the statements that
were executed, and the values they have read. -/
structure Agree (s t : State) : Prop where
  mem : ∀ space indices element,
    t.mem (.global space indices element) = s.mem (.global space indices element)
  log : t.log = s.log
  stopped : t.stopped = s.stopped

/-- Every statement of the block finds its operands when it is its turn. -/
def Runs (k : Context) (before : Defs) (task : Block) (later : List ℕ) : Defs → Block → Prop
  | _, [] => True
  | defs, .leaf instr :: rest =>
    Arranged before defs task later ∧ Ready k before defs task later instr ∧
      instr.id ∉ instr.operands ∧ Runs k before task later (instr :: defs) rest
  | defs, stmt :: rest =>
    Arranged before defs task later ∧
      stmt.Within (fun instr => Ready k before defs task later instr ∧ instr.id ∉ k.promoted)
        (Available k before defs task) (fun id => id ∈ idsOf task ∧ id ∉ defs.map Instr.id) ∧
      Runs k before task later defs rest

def RunsTasks (k : Context) : Defs → List Block → Prop
  | _, [] => True
  | defs, task :: rest =>
    Runs k defs task (idsOf rest.flatten) defs task ∧ RunsTasks k (addDefs defs task) rest

namespace Linked

variable {k : Context} {before defs : Defs} {task : Block} {later : List ℕ} {s t : State}

variable {ids : List ℕ}

theorem agree (h : Linked k defs ids later s t) : Agree s t :=
  ⟨fun space indices element => h.mem (.global space indices element) trivial, h.log, h.stopped⟩

theorem simulates (ha : Arranged before defs task later) :
    Simulates (rootMachine k.setting) (taskMachine k.setting) (fixInstr k.promoted before task)
      (fixOperand k.promoted before task)
      (fun instr => Ready k before defs task later instr ∧ instr.id ∉ k.promoted)
      (Available k before defs task) (fun id => id ∈ idsOf task ∧ id ∉ defs.map Instr.id)
      (Linked k defs (idsOf task) later) where
  onLeaf := fun instr s t hinstr h => h.exec_instr ha hinstr.1 fun _ => hinstr.2
  onRead := by
    intro id s t hid h
    have heval := (h.eval_fixOperand ha hid).1
    simp only [rootMachine, taskMachine, heval, Word.toInt_place]
    exact ⟨trivial, h⟩
  onIndex := by
    intro id index s t hid h
    exact h.define ha.closed hid.2 (ha.task id hid.1) fun loc hloc => (nomatch hloc)
  onStopped := fun s t h => h.stopped
  onResume := fun s t h => ⟨h.env, h.reach, h.mem, h.saved, fun instr hlookup =>
    ⟨(h.settled instr hlookup).alloca, (h.settled instr hlookup).repeats⟩, h.owner, h.unused, h.log,
    rfl⟩

theorem exec_block (block : Block) : ∀ {defs s t}, Linked k defs (idsOf task) later s t →
    Runs k before task later defs block → ∀ {s' t'},
    s' = execBlock (rootMachine k.setting) k.setting.rounds block s →
    t' = execBlock (taskMachine k.setting) k.setting.rounds
      (mapBlock (fixInstr k.promoted before task) (fixOperand k.promoted before task) block) t →
    Linked k (addDefs defs block) (idsOf task) later s' t' ∨ s'.stopped = true ∧ Agree s' t' := by
  induction block with
  | nil =>
    intro defs s t h _ s' t' hs' ht'
    subst hs' ht'
    exact .inl h
  | cons stmt rest ih =>
    intro defs s t h hruns s' t' hs' ht'
    by_cases hstopped : s.stopped = true
    · have hskip : (rootMachine k.setting).stopped s = true := hstopped
      have hskip' : (taskMachine k.setting).stopped t = true := h.stopped.trans hstopped
      rw [execBlock_of_stopped hskip] at hs'
      rw [execBlock_of_stopped hskip'] at ht'
      subst hs' ht'
      exact .inr ⟨hstopped, h.agree⟩
    · have hnext : (rootMachine k.setting).stopped s ≠ true := hstopped
      have hnext' : (taskMachine k.setting).stopped t ≠ true :=
        fun heq => hstopped (h.stopped.symm.trans heq)
      rw [execBlock, Machine.unlessStopped, if_neg hnext] at hs'
      rw [mapBlock, execBlock, Machine.unlessStopped, if_neg hnext'] at ht'
      cases stmt with
      | leaf instr =>
        obtain ⟨ha, hready, hself, hrest⟩ := hruns
        refine ih (h.exec_top ha hready hself) hrest ?_ ?_
        · rw [hs']
          rfl
        · rw [ht', Stmt.map]
          rfl
      | branch test thenBlock elseBlock =>
        obtain ⟨ha, hwithin, hrest⟩ := hruns
        exact ih ((simulates ha).exec _ _ hwithin s t h) hrest hs' ht'
      | loop id first last body =>
        obtain ⟨ha, hwithin, hrest⟩ := hruns
        exact ih ((simulates ha).exec _ _ hwithin s t h) hrest hs' ht'
      | forever body =>
        obtain ⟨ha, hwithin, hrest⟩ := hruns
        exact ih ((simulates ha).exec _ _ hwithin s t h) hrest hs' ht'

theorem enter {rest : List Block} (h : Linked k defs [] (idsOf (task :: rest).flatten) s t) :
    Linked k defs (idsOf task) (idsOf rest.flatten) s t.enter := by
  have htask : ∀ id ∈ idsOf task, id ∈ idsOf (task :: rest).flatten := by
    intro id hid
    simp only [idsOf, List.flatten_cons, blockLeaves_append, blockLoops_append, List.map_append,
      List.mem_append] at hid ⊢
    tauto
  have hrest : ∀ id ∈ idsOf rest.flatten, id ∈ idsOf (task :: rest).flatten := by
    intro id hid
    simp only [idsOf, List.flatten_cons, blockLeaves_append, blockLoops_append, List.map_append,
      List.mem_append] at hid ⊢
    tauto
  refine ⟨?_, ?_, ?_, h.saved, h.settled, h.owner, fun id hid => h.unused id (hrest id hid), h.log,
    h.stopped⟩
  · intro id hid
    rw [(h.unused id (htask id hid)).1]
    rfl
  · intro id hid loc hloc
    rw [(h.unused id (htask id hid)).1] at hloc
    cases hloc
  · intro loc hloc
    cases loc with
    | tmp | fresh => exact hloc.elim
    | global space indices element => exact h.mem _ hloc
    | stack alloca element =>
      rcases hloc with ⟨hmem, hpromoted⟩ | ⟨hpromoted, hcode⟩
      · rw [Loc.place_of_not_mem hpromoted, (h.unused alloca (htask alloca hmem)).2]
        rfl
      · have hslot := h.mem (.stack alloca element) (.inr ⟨hpromoted, hcode⟩)
        rw [Loc.place_of_mem hpromoted] at hslot ⊢
        exact hslot

theorem leave (h : Linked k defs ids later s t) : Linked k defs [] later s t := by
  refine ⟨fun id hid => (nomatch hid), fun id hid => (nomatch hid), ?_, h.saved, h.settled,
    h.owner, h.unused, h.log, h.stopped⟩
  intro loc hloc
  refine h.mem loc ?_
  cases loc with
  | global | tmp | fresh => exact hloc
  | stack alloca element => exact hloc.imp_left fun hmem => (nomatch hmem.1)

end Linked

variable {k : Context} {s : State}

theorem Agree.enter {t : State} (h : Agree s t) : Agree s t.enter :=
  ⟨h.mem, h.log, h.stopped⟩

theorem Agree.foldl_stopped (hstopped : s.stopped = true)
    (tasks : List (List (Stmt FixedInstr Arg))) : ∀ {t : State}, Agree s t →
    Agree s (tasks.foldl
      (fun s task => execBlock (taskMachine k.setting) k.setting.rounds task s.enter) t) := by
  induction tasks with
  | nil => exact fun h => h
  | cons task tasks ih =>
    intro t h
    have hskip : (taskMachine k.setting).stopped t.enter = true := h.stopped.trans hstopped
    refine ih ?_
    simp only [execBlock_of_stopped hskip]
    exact h.enter

theorem Linked.exec_tasks (tasks : List Block) : ∀ {defs : Defs} {s t : State},
    Linked k defs [] (idsOf tasks.flatten) s t → RunsTasks k defs tasks →
    Agree (execBlock (rootMachine k.setting) k.setting.rounds tasks.flatten s)
      ((fixTasks k.promoted defs tasks).foldl
        (fun s task => execBlock (taskMachine k.setting) k.setting.rounds task s.enter) t) := by
  induction tasks with
  | nil =>
    intro defs s t h _
    exact h.agree
  | cons task rest ih =>
    intro defs s t h hruns
    rw [List.flatten_cons, execBlock_append, fixTasks]
    rcases h.enter.exec_block task hruns.1 rfl rfl with h | ⟨hstopped, h⟩
    · exact ih h.leave hruns.2
    · have hskip : (rootMachine k.setting).stopped _ = true := hstopped
      rw [execBlock_of_stopped hskip]
      exact h.foldl_stopped hstopped _

end Quadrants.CrossTask
