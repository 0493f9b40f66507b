import Quadrants.Simplify.LoopInvariantRounds
import Mathlib.Data.List.Nodup

/-!
The runs of a program before and after a visit of loop-invariant code motion: what was moved has its
value from before the loop on, the other statements see the same values and the same memory.
-/

namespace Quadrants.Simplify.LoopInvariant

open Library.TracedLoops Library.SsaBlocks List

variable {S C V M : Type}

section Moved

variable [DecidableEq S] (config : CompileConfig) (sem : Semantics C V M)

theorem exec_movable {kind : Kind C} (hmovable : kind.movable config = true) (values : List V)
    (mem other : M) :
    sem.exec kind values mem = ((sem.exec kind values other).1, mem, .normal) := by
  cases kind with
  | other fields => cases hmovable
  | binaryOp | unaryOp | globalPtr | externalPtr | argLoad => rfl

def event (s : State S V M) (name : S) (kind : Kind C) (operands : List S) : Event S (Kind C) V :=
  ⟨name, some kind, operands.map s.env, some (sem.exec kind (operands.map s.env) s.mem).1⟩

theorem exec_plain_movable (limit : ℕ) (name : S) {kind : Kind C}
    (hmovable : kind.movable config = true) (operands : List S) (s : State S V M) :
    Stmt.exec sem.machine limit (.plain name kind operands) s =
      ⟨[event sem s name kind operands], .normal,
        s.set name (sem.exec kind (operands.map s.env) s.mem).1⟩ := by
  have hexec := exec_movable config sem hmovable (operands.map s.env) s.mem s.mem
  have hmem : (sem.exec kind (operands.map s.env) s.mem).2.1 = s.mem :=
    congrArg (fun result => result.2.1) hexec
  have hsignal : (sem.exec kind (operands.map s.env) s.mem).2.2 = .normal :=
    congrArg (fun result => result.2.2) hexec
  show (⟨[event sem s name kind operands], (sem.exec kind (operands.map s.env) s.mem).2.2,
    (⟨s.env, (sem.exec kind (operands.map s.env) s.mem).2.1⟩ : State S V M).set name
      (sem.exec kind (operands.map s.env) s.mem).1⟩ :
    Outcome (Event S (Kind C) V) (State S V M)) = _
  rw [hmem, hsignal]

/-- A statement that can be moved to a place where `values` are defined. -/
def Movable (values : List S) (stmt : Stmt S (Kind C)) : Prop :=
  ∃ name kind operands, stmt = .plain name kind operands ∧ kind.movable config = true ∧
    operands ⊆ values

structure Hoisted (block : List (Stmt S (Kind C))) (s : State S V M)
    (r : Outcome (Event S (Kind C) V) (State S V M)) : Prop where
  signal : r.signal = .normal
  mem : r.state.mem = s.mem
  others : ∀ y, y ∉ directNames block → r.state.env y = s.env y
  saved : ∀ name kind operands, Stmt.plain name kind operands ∈ block →
    r.state.env name = (sem.exec kind (operands.map s.env) s.mem).1
  shown : ∀ name kind operands, Stmt.plain name kind operands ∈ block →
    event sem s name kind operands ∈ r.trace
  names : ∀ e ∈ r.trace, e.name ∈ directNames block
  kinds : ∀ e ∈ r.trace, e.kind.any (·.movable config) = true

theorem exec_hoisted (limit : ℕ) {values : List S} (block : List (Stmt S (Kind C))) :
    (∀ stmt ∈ block, Movable config values stmt) → (directNames block).Nodup →
    values.Disjoint (directNames block) → ∀ s : State S V M,
    Hoisted config sem block s (execBlock sem.machine limit block s) := by
  induction block with
  | nil =>
    intro _ _ _ s
    exact ⟨rfl, rfl, fun _ _ => rfl, fun _ _ _ h => (nomatch h), fun _ _ _ h => (nomatch h),
      fun _ h => (nomatch h), fun _ h => (nomatch h)⟩
  | cons stmt block ih =>
    intro hmovable hnodup hdisjoint s
    obtain ⟨name, kind, operands, rfl, hkind, hoperands⟩ :=
      hmovable stmt mem_cons_self
    obtain ⟨hname, hnodup⟩ := nodup_cons.1 hnodup
    have hnotName : name ∉ values := fun h => hdisjoint h mem_cons_self
    have hfirst := exec_plain_movable config sem limit name hkind operands s
    have hrest := ih (fun other hother => hmovable other (mem_cons_of_mem _ hother)) hnodup
      (fun y hy hy' => hdisjoint hy (mem_cons_of_mem _ hy'))
      (s.set name (sem.exec kind (operands.map s.env) s.mem).1)
    -- the operands are not among the names that were just set
    have hmap : ∀ name' kind' operands', Stmt.plain name' kind' operands' ∈ block →
        operands'.map (s.set name (sem.exec kind (operands.map s.env) s.mem).1).env =
          operands'.map s.env := by
      intro name' kind' operands' hmem
      obtain ⟨_, _, _, heq, -, hsubset⟩ := hmovable _ (mem_cons_of_mem _ hmem)
      injection heq with _ _ heq
      refine map_congr_left fun y hy => State.set_env_of_ne _ ?_ _
      rintro rfl
      exact hnotName (hsubset (heq ▸ hy))
    rw [execBlock, andThen_of_normal (by rw [hfirst]), hfirst]
    refine ⟨hrest.signal, hrest.mem, ?_, ?_, ?_, ?_, ?_⟩
    · intro y hy
      rw [directNames_cons, Stmt.value, mem_append, not_or, mem_singleton] at hy
      exact (hrest.others y hy.2).trans (State.set_env_of_ne _ hy.1 _)
    · intro name' kind' operands' hmem
      rcases mem_cons.1 hmem with heq | hmem
      · injection heq with hname' hkind' hoperands'
        subst hname' hkind' hoperands'
        exact (hrest.others _ hname).trans (State.set_env_self _ _ _)
      · have hsaved := hrest.saved name' kind' operands' hmem
        rw [hmap name' kind' operands' hmem] at hsaved
        exact hsaved
    · intro name' kind' operands' hmem
      rcases mem_cons.1 hmem with heq | hmem
      · injection heq with hname' hkind' hoperands'
        subst hname' hkind' hoperands'
        exact mem_append_left _ (mem_singleton_self _)
      · have hshown := hrest.shown name' kind' operands' hmem
        rw [event, hmap name' kind' operands' hmem] at hshown
        exact mem_append_right _ hshown
    · intro e he
      rcases mem_append.1 he with he | he
      · obtain rfl := mem_singleton.1 he
        exact mem_append_left _ (mem_singleton_self _)
      · exact mem_append_right _ (hrest.names e he)
    · intro e he
      rcases mem_append.1 he with he | he
      · rw [mem_singleton.1 he]
        exact hkind
      · exact hrest.kinds e he

end Moved

section Simulation

def keep [DecidableEq S] (config : CompileConfig) (moved : List S) (e : Event S (Kind C) V) :
    Bool :=
  decide (e.name ∉ moved) || !(e.kind.any (·.movable config))

structure Agree (names : List S) (t t' : State S V M) : Prop where
  mem : t'.mem = t.mem
  env : ∀ y ∈ names, t'.env y = t.env y

variable {blocked nested : Option (List S)} {loops names values : List S}
variable {rest : List (Stmt S (Kind C))} {t t' : State S V M}

theorem Agree.mono {fewer : List S} (h : Agree names t t')
    (hsubset : fewer ⊆ names) : Agree fewer t t' :=
  ⟨h.mem, fun y hy => h.env y (hsubset hy)⟩

theorem Agree.map {operands : List S} (h : Agree names t t')
    (hsubset : operands ⊆ names) : operands.map t'.env = operands.map t.env :=
  map_congr_left fun y hy => h.env y (hsubset hy)

theorem Agree.set [DecidableEq S] (h : Agree names t t')
    (name : S) (value : V) : Agree (name :: names) (t.set name value) (t'.set name value) where
  mem := h.mem
  env y hy := by
    by_cases hname : y = name
    · rw [hname, State.set_env_self, State.set_env_self]
    · rw [State.set_env_of_ne _ hname, State.set_env_of_ne _ hname]
      rcases mem_cons.1 hy with heq | hy
      · exact absurd heq hname
      · exact h.env y hy

/-- The names around a block agree after it, and the names in it if it came to its end. -/
def Post (names direct : List S) (signal : Signal) (t t' : State S V M) : Prop :=
  Agree names t t' ∧ (signal = .normal → ∀ y ∈ direct, t'.env y = t.env y)

/-- A loop that the runs are in: the names defined around it, what was moved out of it, the state in
which it was entered, and the events of the second run up to there. -/
structure Context (S C V M : Type) where
  outer : List S
  hoisted : List (Stmt S (Kind C))
  start : State S V M
  past : List (Event S (Kind C) V)

variable (config : CompileConfig) (sem : Semantics C V M) (limit : ℕ) (moved : List S)

structure Context.Valid (ctx : Context S C V M) (values : List S) : Prop where
  outer : ctx.outer ⊆ values
  movable : ∀ stmt ∈ ctx.hoisted, Movable config ctx.outer stmt
  past : ∀ name kind operands, Stmt.plain name kind operands ∈ ctx.hoisted →
    event sem ctx.start name kind operands ∈ ctx.past

structure Context.Holds (ctx : Context S C V M) (t t' : State S V M) : Prop where
  outer : ∀ y ∈ ctx.outer, t.env y = ctx.start.env y
  saved : ∀ name kind operands, Stmt.plain name kind operands ∈ ctx.hoisted →
    t'.env name = (sem.exec kind (operands.map ctx.start.env) ctx.start.mem).1

structure Ready (blocked nested : Option (List S)) (values loops : List S)
    (block : List (Stmt S (Kind C))) : Prop where
  blocks : Blocks block blocked nested
  inScope : BlockScoped values loops block
  nodup : (blockNames block).Nodup
  fresh : (values ++ loops).Disjoint (blockNames block)

structure Fits (ctx : Context S C V M) (swept : Swept S C) : Prop where
  hoisted : swept.moved ⊆ ctx.hoisted
  kept : (directNames ctx.hoisted).Disjoint (blockNames swept.kept)
  names : directNames swept.moved ⊆ moved
  inner : swept.inner ⊆ moved

variable {config sem limit moved}

theorem Context.Valid.mono {ctx : Context S C V M} {more : List S}
    (h : ctx.Valid config sem values) (hsubset : values ⊆ more) : ctx.Valid config sem more :=
  ⟨List.Subset.trans h.outer hsubset, h.movable, h.past⟩

theorem Fits.append {ctx : Context S C V M} {first second : Swept S C}
    (h : Fits moved ctx (first.append second)) : Fits moved ctx first ∧ Fits moved ctx second := by
  obtain ⟨hhoisted, hkept, hmoved, hinner⟩ := h
  simp only [Swept.append, directNames, flatMap_append, append_subset, blockNames_append,
    disjoint_append_right] at hhoisted hkept hmoved hinner
  exact ⟨⟨hhoisted.1, hkept.1, hmoved.1, hinner.1⟩, ⟨hhoisted.2, hkept.2, hmoved.2, hinner.2⟩⟩

theorem Ready.tail {stmt : Stmt S (Kind C)} (h : Ready blocked nested values loops (stmt :: rest)) :
    Ready blocked nested (stmt.value ++ values) loops rest := by
  obtain ⟨hblocks, hscoped, hnodup, hfresh⟩ := h
  rw [blockNames] at hnodup hfresh
  rw [nodup_append'] at hnodup
  rw [disjoint_append_right] at hfresh
  refine ⟨hblocks.tail, hscoped.2, hnodup.2.1, ?_⟩
  rw [append_assoc, disjoint_append_left]
  exact ⟨fun y hy => hnodup.2.2 (stmt.value_subset hy), hfresh.2⟩

theorem Ready.branches {name cond : S} {t f : List (Stmt S (Kind C))}
    (h : Ready blocked nested values loops (.ifStmt name cond t f :: rest)) :
    cond ∈ values ∧ Ready nested nested values loops t ∧
      Ready nested nested values loops f := by
  obtain ⟨hblocks, hscoped, hnodup, hfresh⟩ := h
  rw [blockNames, Stmt.names] at hnodup hfresh
  rw [nodup_append', nodup_append'] at hnodup
  rw [disjoint_append_right, disjoint_append_right] at hfresh
  exact ⟨hscoped.1.1, ⟨hblocks.branches.1, hscoped.1.2.1, hnodup.1.1, hfresh.1.1⟩,
    hblocks.branches.2, hscoped.1.2.2, hnodup.1.2.1, hfresh.1.2⟩

theorem Ready.body {depth : ℕ}
    {name : S} {kind : Kind C} {operands : List S} {body : List (Stmt S (Kind C))}
    (h : Ready blocked nested values loops (.loop name kind operands body :: rest)) :
    operands ⊆ values ∧ name ∉ values ++ loops ∧
      Ready (if 1 ≤ depth then some (directNames body) else none)
        (if 1 ≤ depth ∧ config.moveLoopInvariantOutsideIf then some (blockNames body) else none)
        values (name :: loops) body := by
  obtain ⟨hblocks, hscoped, hnodup, hfresh⟩ := h
  rw [blockNames, Stmt.names] at hnodup hfresh
  rw [nodup_append', nodup_cons] at hnodup
  rw [disjoint_append_right, disjoint_cons_right] at hfresh
  refine ⟨hscoped.1.1, hfresh.1.1, blocks_body config depth body, hscoped.1.2, hnodup.1.2, ?_⟩
  intro y hy hbody
  rcases mem_append.1 hy with hy | hy
  · exact hfresh.1.2 (mem_append_left _ hy) hbody
  · rcases mem_cons.1 hy with rfl | hy
    · exact hnodup.1.1 hbody
    · exact hfresh.1.2 (mem_append_right _ hy) hbody

end Simulation

section Blocks

variable [DecidableEq S] (config : CompileConfig) (sem : Semantics C V M) (limit : ℕ)

theorem Context.Holds.block {ctx : Context S C V M} {t t' : State S V M} (h : ctx.Holds sem t t')
    (block kept : List (Stmt S (Kind C))) (houter : ctx.outer.Disjoint (blockNames block))
    (hkept : (directNames ctx.hoisted).Disjoint (blockNames kept)) :
    ctx.Holds sem (execBlock sem.machine limit block t).state
      (execBlock sem.machine limit kept t').state where
  outer := execBlock_frame sem.machine limit ctx.start.env block ctx.outer houter t h.outer
  saved name kind operands hmem := by
    have hname : name ∈ directNames ctx.hoisted :=
      mem_flatMap.2 ⟨_, hmem, mem_singleton_self name⟩
    have hframe := execBlock_frame sem.machine limit t'.env kept _ hkept t' (fun _ _ => rfl) name
      hname
    exact hframe.trans (h.saved name kind operands hmem)

theorem Context.Holds.set {ctx : Context S C V M} {t t' : State S V M} (h : ctx.Holds sem t t')
    {name : S} (houter : name ∉ ctx.outer) (hhoisted : name ∉ directNames ctx.hoisted) (value : V) :
    ctx.Holds sem (t.set name value) (t'.set name value) where
  outer y hy := by
    refine (State.set_env_of_ne _ ?_ _).trans (h.outer y hy)
    rintro rfl
    exact houter hy
  saved name' kind operands hmem := by
    refine (State.set_env_of_ne _ ?_ _).trans (h.saved name' kind operands hmem)
    rintro rfl
    exact hhoisted (mem_flatMap.2 ⟨_, hmem, mem_singleton_self _⟩)

theorem body_movable {depth : ℕ} {values loops : List S} {body : List (Stmt S (Kind C))}
    (h : Ready (if 1 ≤ depth then some (directNames body) else none)
      (if 1 ≤ depth ∧ config.moveLoopInvariantOutsideIf then some (blockNames body) else none)
      values loops body) :
    ∀ stmt ∈ (sweepBlock config (depth + 1) (if 1 ≤ depth then some (directNames body) else none)
      (if 1 ≤ depth ∧ config.moveLoopInvariantOutsideIf then some (blockNames body) else none)
      body).moved, Movable config values stmt := by
  intro stmt hstmt
  obtain ⟨name, kind, operands, rfl, hmovable⟩ := sweepBlock_plain config (depth + 1) body _ _ stmt
    hstmt
  exact ⟨name, kind, operands, rfl, hmovable, sweepBlock_operands config (depth + 1) body _ _ values
    loops h.blocks h.inScope name kind operands hstmt⟩

theorem Ready.names (depth : ℕ) {blocked nested : Option (List S)} {values loops : List S}
    {block : List (Stmt S (Kind C))} (h : Ready blocked nested values loops block) :
    (directNames (sweepBlock config depth blocked nested block).moved).Nodup ∧
      (directNames (sweepBlock config depth blocked nested block).moved).Disjoint
        (blockNames (sweepBlock config depth blocked nested block).kept) ∧
      directNames (sweepBlock config depth blocked nested block).moved ⊆ blockNames block := by
  have hperm := sweepBlock_names config depth block blocked nested
  have hnodup := hperm.nodup_iff.2 h.nodup
  rw [nodup_append'] at hnodup
  refine ⟨hnodup.1.sublist (directNames_sublist _), ?_, ?_⟩
  · exact fun y hy => hnodup.2.2 (directNames_subset _ hy)
  · exact fun y hy => hperm.subset (mem_append_left _ (directNames_subset _ hy))

end Blocks

end Quadrants.Simplify.LoopInvariant
