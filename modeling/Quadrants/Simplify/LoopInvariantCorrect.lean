import Quadrants.Simplify.LoopInvariantRuns

/-!
A visit of loop-invariant code motion does not change what a program does, but for the statements
that it moved.
-/

namespace Quadrants.Simplify.LoopInvariant

open Library.TracedLoops Library.SsaBlocks List

variable {S C V M : Type} {config : CompileConfig} {sem : Semantics C V M}
  {limit : ℕ} {moved : List S}

section Statements

variable [DecidableEq S] {names operands : List S} {t t' : State S V M}
  {past : List (Event S (Kind C) V)}

theorem matches_plain (h : Agree names t t') (name : S) (kind : Kind C)
    (hoperands : operands ⊆ names) : Matches (keep config moved) past (Post names [name])
      (Stmt.exec sem.machine limit (.plain name kind operands) t)
      (Stmt.exec sem.machine limit (.plain name kind operands) t') := by
  have hset (value : V) (mem : M) : Agree (name :: names)
      ((⟨t.env, mem⟩ : State S V M).set name value)
      ((⟨t'.env, mem⟩ : State S V M).set name value) := by
    apply Agree.set
    exact ⟨rfl, h.env⟩
  rw [Stmt.exec, Stmt.exec, execPlain, execPlain, h.map hoperands, h.mem]
  refine ⟨rfl, fun e he => .inr he, rfl, ?_, fun _ y hy => ?_⟩
  · exact (hset _ _).mono (subset_cons_self _ _)
  · rw [mem_singleton.1 hy]
    exact (hset _ _).env name mem_cons_self

theorem matches_loopIndex (h : Agree names t t') (name : S) {loop : S} (axis : ℕ)
    (hloop : loop ∈ names) : Matches (keep config moved) past (Post names [name])
      (Stmt.exec sem.machine limit (.loopIndex name loop axis) t)
      (Stmt.exec sem.machine limit (.loopIndex name loop axis) t') := by
  have hset (value : V) := h.set name value
  rw [Stmt.exec, Stmt.exec, h.env loop hloop]
  refine ⟨rfl, fun e he => .inr he, rfl, ?_, fun _ y hy => ?_⟩
  · exact (hset _).mono (subset_cons_self _ _)
  · rw [mem_singleton.1 hy]
    exact (hset _).env name mem_cons_self

theorem matches_moved {ctx : Context S C V M} {values : List S}
    (hvalid : ctx.Valid config sem values) (h : Agree names t t') (hholds : ctx.Holds sem t t')
    {name : S} {kind : Kind C} (hmem : Stmt.plain name kind operands ∈ ctx.hoisted)
    (hname : name ∉ names) (hmoved : name ∈ moved) :
    Matches (keep config moved) ctx.past (Post names [name])
      (Stmt.exec sem.machine limit (.plain name kind operands) t) (skip t') := by
  obtain ⟨_, _, _, heq, hmovable, hsubset⟩ := hvalid.movable _ hmem
  injection heq with hname' hkind hoperands
  subst hname' hkind hoperands
  have hstart : operands.map t.env = operands.map ctx.start.env :=
    map_congr_left fun y hy => hholds.outer y (hsubset hy)
  have hvalue : (sem.exec kind (operands.map t.env) t.mem).1 =
      (sem.exec kind (operands.map ctx.start.env) ctx.start.mem).1 := by
    rw [hstart, exec_movable config sem hmovable _ t.mem ctx.start.mem]
  rw [exec_plain_movable config sem limit name hmovable]
  refine ⟨?_, ?_, rfl, ⟨h.mem, fun y hy => ?_⟩, fun _ y hy => ?_⟩
  · simp [skip, event, keep, hmoved, hmovable]
  · intro e he
    rw [mem_singleton.1 he, event, hvalue, hstart]
    exact .inl (hvalid.past name kind operands hmem)
  · refine (h.env y hy).trans (State.set_env_of_ne _ ?_ _).symm
    rintro rfl
    exact hname hy
  · rw [mem_singleton.1 hy, State.set_env_self, hvalue]
    exact hholds.saved name kind operands hmem

end Statements

section Loops

variable {values loops : List S} {t t' : State S V M}

variable {block body : List (Stmt S (Kind C))} {names operands : List S}
variable {r : Outcome (Event S (Kind C) V) (State S V M)}

theorem hoisted_holds
    (hmovable : ∀ stmt ∈ block, Movable config values stmt) (h : Agree (values ++ loops) t t')
    (hhoisted : Hoisted config sem block t' r) (past : List (Event S (Kind C) V)) :
    ∃ ctx : Context S C V M, ctx.outer = values ∧ ctx.hoisted = block ∧ ctx.past = past ++ r.trace ∧
      ctx.Valid config sem values ∧ ctx.Holds sem t r.state := by
  have hmap : ∀ name kind operands, Stmt.plain name kind operands ∈ block →
      operands.map t'.env = operands.map t.env := by
    intro name kind operands hmem
    obtain ⟨_, _, _, heq, -, hsubset⟩ := hmovable _ hmem
    injection heq with _ _ hoperands
    exact (h.mono (subset_append_left _ _)).map (hoperands ▸ hsubset)
  refine ⟨⟨values, block, t, past ++ r.trace⟩, rfl, rfl, rfl, ⟨List.Subset.refl _, hmovable, ?_⟩,
    fun _ _ => rfl, ?_⟩
  · intro name kind operands hmem
    have hshown := hhoisted.shown name kind operands hmem
    rw [event, hmap name kind operands hmem, h.mem] at hshown
    exact mem_append_right _ hshown
  · intro name kind operands hmem
    have hsaved := hhoisted.saved name kind operands hmem
    rw [hmap name kind operands hmem, h.mem] at hsaved
    exact hsaved

theorem matches_loop [DecidableEq S] {past : List (Event S (Kind C) V)}
    {I : State S V M → State S V M → Prop} (name : S) (kind : Kind C)
    {body' : List (Stmt S (Kind C))}
    (hround : ∀ i t t', I t t' → Matches (keep config moved) past (fun _ => I)
      (execBlock sem.machine limit body (t.set name i))
      (execBlock sem.machine limit body' (t'.set name i)))
    (hI : I t t') (h : Agree names t t') (hoperands : operands ⊆ names) :
    Matches (keep config moved) past (fun _ => I)
      (Stmt.exec sem.machine limit (.loop name kind operands body) t)
      (Stmt.exec sem.machine limit (.loop name kind operands body') t') := by
  rw [Stmt.exec, Stmt.exec, h.map hoperands, h.mem]
  refine Matches.after ?_ rfl fun e he => .inr he
  cases sem.machine.iterations kind (operands.map t.env) t.mem with
  | none => exact matches_forever (hround _) limit t t' hI
  | some indices => exact matches_forEach hround indices t t' hI

theorem Hoisted.agree [DecidableEq S] (hhoisted : Hoisted config sem block t' r)
    (h : Agree names t t') (hnames : names.Disjoint (directNames block)) :
    Agree names t r.state where
  mem := hhoisted.mem.trans h.mem
  env y hy := (hhoisted.others y fun hmoved => hnames hy hmoved).trans (h.env y hy)

theorem matches_hoisted [DecidableEq S] (name : S) (kind : Kind C) {swept : Swept S C}
    (hoperands : operands ⊆ values)
    (hmovable : ∀ stmt ∈ swept.moved, Movable config values stmt)
    (hnodup : (directNames swept.moved).Nodup)
    (hkept : (directNames swept.moved).Disjoint (blockNames swept.kept))
    (hsubset : directNames swept.moved ⊆ blockNames body)
    (hinner : swept.inner ++ directNames swept.moved ⊆ moved)
    (hfresh : (values ++ name :: loops).Disjoint (blockNames body))
    (hname : name ∉ values ++ loops) (h : Agree (values ++ loops) t t')
    (past : List (Event S (Kind C) V))
    (hbody : ∀ ctx : Context S C V M, ctx.Valid config sem values → Fits moved ctx swept →
      ∀ t t', Agree (values ++ name :: loops) t t' → ctx.Holds sem t t' →
        Matches (keep config moved) ctx.past (Post (values ++ name :: loops) (directNames body))
          (execBlock sem.machine limit body t) (execBlock sem.machine limit swept.kept t')) :
    Matches (keep config moved) past (Post (values ++ loops) [])
      (Stmt.exec sem.machine limit (.loop name kind operands body) t)
      (execBlock sem.machine limit (swept.moved ++ [.loop name kind operands swept.kept]) t') := by
  rw [List.append_subset] at hinner
  rw [disjoint_append_left, disjoint_cons_left] at hfresh
  obtain ⟨hvalues, hnameBody, hloops⟩ := hfresh
  have hvaluesMoved : values.Disjoint (directNames swept.moved) :=
    fun y hy hmoved => hvalues hy (hsubset hmoved)
  have hloopsMoved : loops.Disjoint (directNames swept.moved) :=
    fun y hy hmoved => hloops hy (hsubset hmoved)
  have hhoisted := exec_hoisted config sem limit swept.moved hmovable hnodup hvaluesMoved t'
  have hagree := hhoisted.agree h (disjoint_append_left.2 ⟨hvaluesMoved, hloopsMoved⟩)
  obtain ⟨ctx, houter, hmoved, hpast, hvalid, hholds⟩ := hoisted_holds hmovable h hhoisted past
  have hfits : Fits moved ctx swept :=
    ⟨hmoved ▸ List.Subset.refl _, hmoved ▸ hkept, hinner.2, hinner.1⟩
  have hnameOuter : name ∉ ctx.outer := fun hy => hname (mem_append_left _ (houter ▸ hy))
  have hnameMoved : name ∉ directNames ctx.hoisted := fun hy => hnameBody (hsubset (hmoved ▸ hy))
  have hinto : values ++ name :: loops ⊆ name :: (values ++ loops) := by
    intro y hy
    simp only [List.mem_append, mem_cons] at hy ⊢
    tauto
  have hback : values ++ loops ⊆ values ++ name :: loops := by
    intro y hy
    simp only [List.mem_append, mem_cons] at hy ⊢
    tauto
  have hround (i : V) (s s' : State S V M)
      (hI : Agree (values ++ loops) s s' ∧ ctx.Holds sem s s') : Matches (keep config moved) ctx.past
        (fun _ s s' => Agree (values ++ loops) s s' ∧ ctx.Holds sem s s')
        (execBlock sem.machine limit body (s.set name i))
        (execBlock sem.machine limit swept.kept (s'.set name i)) := by
    have hset := hI.2.set sem hnameOuter hnameMoved i
    have hrun := hbody ctx hvalid hfits _ _ ((hI.1.set name i).mono hinto) hset
    refine hrun.weaken fun hpost => ⟨hpost.1.mono hback, ?_⟩
    exact hset.block sem limit body swept.kept (houter ▸ hvalues) hfits.kept
  have hloop := matches_loop name kind hround ⟨hagree, hholds⟩ hagree
    (List.Subset.trans hoperands (subset_append_left _ _))
  rw [execBlock_append, andThen_of_normal hhoisted.signal, execBlock_singleton]
  rw [hpast] at hloop
  refine (hloop.weaken fun hpost => ?_).recall ?_
  · exact ⟨hpost.1, fun _ _ hy => by cases hy⟩
  · rw [filter_eq_nil_iff]
    intro e he
    have hevent := hinner.2 (hhoisted.names e he)
    have hkind := hhoisted.kinds e he
    simp [keep, hevent, hkind]

end Loops

variable [DecidableEq S]

mutual

theorem sweepStmt_matches (depth : ℕ) : ∀ (stmt : Stmt S (Kind C)) (rest : List (Stmt S (Kind C)))
    (blocked nested : Option (List S)) (values loops : List S) (ctx : Context S C V M),
    Ready blocked nested values loops (stmt :: rest) →
    ctx.Valid config sem values → Fits moved ctx (sweepStmt config depth blocked nested stmt) →
    ∀ t t', Agree (values ++ loops) t t' → ctx.Holds sem t t' →
      Matches (keep config moved) ctx.past (Post (values ++ loops) stmt.value)
        (stmt.exec sem.machine limit t)
        (execBlock sem.machine limit (sweepStmt config depth blocked nested stmt).kept t')
  | .plain name kind operands, rest, blocked, nested, values, loops, ctx, hready, hvalid, hfits, t,
      t', h, hholds => by
      have hscope := hready.inScope
      rw [BlockScoped, Stmt.Scoped] at hscope
      have hplain : Matches (keep config moved) ctx.past (Post (values ++ loops) [name])
          (Stmt.exec sem.machine limit (.plain name kind operands) t)
          (execBlock sem.machine limit [.plain name kind operands] t') := by
        rw [execBlock_singleton]
        exact matches_plain h name kind (List.Subset.trans hscope.1 (subset_append_left _ _))
      cases blocked with
      | none =>
        rw [sweepStmt]
        exact hplain
      | some names =>
        simp only [sweepStmt] at hfits ⊢
        split at hfits
        · next hcond =>
            have hname : name ∉ values ++ loops := by
              intro hname
              apply hready.fresh hname
              rw [blockNames, Stmt.names]
              exact mem_append_left _ (mem_singleton_self _)
            rw [if_pos hcond, execBlock]
            exact matches_moved hvalid h hholds (hfits.hoisted (mem_singleton_self _)) hname
              (hfits.names (mem_singleton_self _))
        · next hcond =>
            rw [if_neg hcond]
            exact hplain
  | .loopIndex name loop axis, rest, blocked, nested, values, loops, ctx, hready, hvalid, hfits, t,
      t', h, hholds => by
      have hscope := hready.inScope
      rw [BlockScoped, Stmt.Scoped] at hscope
      rw [sweepStmt, execBlock_singleton]
      exact matches_loopIndex h name axis (mem_append_right _ hscope.1)
  | .ifStmt name cond b f, rest, blocked, nested, values, loops, ctx, hready, hvalid, hfits, t, t',
      h, hholds => by
      obtain ⟨hcond, hb, hf⟩ := hready.branches
      rw [sweepStmt] at hfits ⊢
      obtain ⟨hhoisted, hkept, hnames, hinner⟩ := hfits
      simp only [directNames, flatMap_append, List.append_subset, blockNames, Stmt.names,
        append_nil, disjoint_append_right] at hhoisted hkept hnames hinner
      have htrue := sweepBlock_matches depth b nested nested values loops ctx hb hvalid
        ⟨hhoisted.1, hkept.1, hnames.1, hinner.1⟩ t t' h hholds
      have hfalse := sweepBlock_matches depth f nested nested values loops ctx hf hvalid
        ⟨hhoisted.2, hkept.2, hnames.2, hinner.2⟩ t t' h hholds
      rw [execBlock_singleton, Stmt.exec, Stmt.exec, h.env cond (mem_append_left _ hcond)]
      refine Matches.after ?_ rfl fun e he => .inr he
      cases sem.machine.test (t.env cond) with
      | true => exact htrue.weaken fun hpost => ⟨hpost.1, fun _ _ hy => (nomatch hy)⟩
      | false => exact hfalse.weaken fun hpost => ⟨hpost.1, fun _ _ hy => (nomatch hy)⟩
  | .loop name kind operands body, rest, blocked, nested, values, loops, ctx, hready, hvalid, hfits,
      t, t', h, hholds => by
      obtain ⟨hoperands, hname, hbody⟩ := hready.body
      have hnames := hbody.names config (depth + 1)
      have hinner := hfits.inner
      rw [sweepStmt] at hinner ⊢
      exact matches_hoisted name kind hoperands (body_movable config hbody) hnames.1 hnames.2.1
        hnames.2.2 hinner hbody.fresh hname h ctx.past
        fun ctx' hvalid' hfits' => sweepBlock_matches (depth + 1) body _ _ values (name :: loops)
          ctx' hbody hvalid' hfits'

theorem sweepBlock_matches (depth : ℕ) : ∀ (block : List (Stmt S (Kind C)))
    (blocked nested : Option (List S)) (values loops : List S) (ctx : Context S C V M),
    Ready blocked nested values loops block → ctx.Valid config sem values →
    Fits moved ctx (sweepBlock config depth blocked nested block) →
    ∀ t t', Agree (values ++ loops) t t' → ctx.Holds sem t t' →
      Matches (keep config moved) ctx.past (Post (values ++ loops) (directNames block))
        (execBlock sem.machine limit block t)
        (execBlock sem.machine limit (sweepBlock config depth blocked nested block).kept t')
  | [], blocked, nested, values, loops, ctx, hready, hvalid, hfits, t, t', h, hholds => by
    rw [sweepBlock, execBlock, execBlock]
    exact ⟨rfl, fun e he => (nomatch he), rfl, h, fun _ _ hy => (nomatch hy)⟩
  | stmt :: rest, blocked, nested, values, loops, ctx, hready, hvalid, hfits, t, t', h, hholds => by
    rw [sweepBlock] at hfits ⊢
    obtain ⟨hfirst, hsecond⟩ := hfits.append
    have hstmt := sweepStmt_matches depth stmt rest blocked nested values loops ctx hready hvalid
      hfirst t t' h hholds
    have houter : ctx.outer.Disjoint (blockNames [stmt]) := by
      intro y hy hnames
      rw [blockNames, blockNames, append_nil] at hnames
      apply hready.fresh (mem_append_left _ (hvalid.outer hy))
      rw [blockNames]
      exact mem_append_left _ hnames
    have hholds' := hholds.block sem limit [stmt] _ houter hfirst.kept
    rw [execBlock_singleton] at hholds'
    rw [execBlock, directNames_cons]
    simp only [Swept.append]
    rw [execBlock_append]
    refine matches_andThen hstmt (fun hnormal => ?_) fun hstop => ?_
    · have hstate := hstmt.state
      have hagree : Agree (stmt.value ++ values ++ loops) (stmt.exec sem.machine limit t).state
          (execBlock sem.machine limit (sweepStmt config depth blocked nested stmt).kept
            t').state := by
        refine ⟨hstate.1.mem, fun y hy => ?_⟩
        rw [append_assoc] at hy
        rcases List.mem_append.1 hy with hy | hy
        · exact hstate.2 hnormal y hy
        · exact hstate.1.env y hy
      have hrest := sweepBlock_matches depth rest blocked nested (stmt.value ++ values) loops ctx
        hready.tail (hvalid.mono (subset_append_right _ _)) hsecond _ _ hagree hholds'
      refine hrest.weaken fun hpost => ⟨hpost.1.mono ?_, fun hnormal' y hy => ?_⟩
      · rw [append_assoc]
        exact subset_append_right _ _
      · rcases List.mem_append.1 hy with hy | hy
        · rw [Post, append_assoc] at hpost
          exact hpost.1.env y (mem_append_left _ hy)
        · exact hpost.2 hnormal' y hy
    · exact ⟨hstmt.state.1, fun hnormal => absurd hnormal hstop⟩

end

end Quadrants.Simplify.LoopInvariant

/-!
Loop-invariant code motion leaves the memory and the values as they are. It may execute statements
in front of a loop that the loop would not have executed.
-/

namespace Quadrants.Simplify.LoopInvariant

open Library.TracedLoops Library.SsaBlocks

variable {S C : Type} [DecidableEq S] (config : CompileConfig)

section Round

variable {block : List (Stmt S (Kind C))}

theorem sweep_ready (h : Ready none none [] [] block) :
    Ready none none [] [] (sweepBlock config 0 none none block).kept := by
  have hperm := sweepBlock_names config 0 block none none
  have hscoped := sweepBlock_scoped config 0 block none none [] [] [] h.blocks h.inScope
  rw [sweepBlock_none] at hperm hscoped
  refine ⟨⟨fun _ hnames => (nomatch hnames), fun _ hnames => (nomatch hnames)⟩,
    hscoped (List.Subset.refl _), hperm.nodup_iff.2 h.nodup, fun _ hy => (nomatch hy)⟩

theorem sweep_matches {V M : Type} (h : Ready none none [] [] block) {moved : List S}
    (hmoved : (sweepBlock config 0 none none block).inner ⊆ moved) (sem : Semantics C V M)
    (limit : ℕ) (s : State S V M) : Matches (keep config moved) [] (Post [] (directNames block))
      (execBlock sem.machine limit block s)
      (execBlock sem.machine limit (sweepBlock config 0 none none block).kept s) := by
  have hnone := sweepBlock_none config 0 block
  refine sweepBlock_matches 0 block none none [] [] ⟨[], [], s, []⟩ h ?_ ?_ s s
    ⟨rfl, fun _ _ => rfl⟩ ?_
  · exact ⟨List.Subset.refl _, fun _ hstmt => (nomatch hstmt), fun _ _ _ hstmt => (nomatch hstmt)⟩
  · refine ⟨?_, fun _ hy => (nomatch hy), ?_, hmoved⟩
    · rw [hnone]
      exact List.Subset.refl _
    · rw [hnone]
      exact List.nil_subset _
  · exact ⟨fun _ hy => (nomatch hy), fun _ _ _ hstmt => (nomatch hstmt)⟩

end Round

/-- What code motion leaves of a program, where statements with the given names left loops. -/
structure Preserved (block result : List (Stmt S (Kind C))) (moved : List S) : Prop where
  inScope : BlockScoped [] [] result
  names : List.Perm (blockNames result) (blockNames block)
  deep : moved ⊆ deepNames config 0 block
  runs : ∀ (V M : Type) (sem : Semantics C V M) (limit : ℕ) (s : State S V M),
    Matches (keep config moved) [] (Post [] (directNames block))
      (execBlock sem.machine limit block s) (execBlock sem.machine limit result s)

theorem rounds_preserved (fuel : ℕ) : ∀ block : List (Stmt S (Kind C)), blockDepths 0 block < fuel →
    Ready none none [] [] block →
    ∃ result moved,
      rounds config fuel block = some result ∧ Preserved config block result moved := by
  induction fuel with
  | zero => exact fun block hfuel => absurd hfuel (by omega)
  | succ fuel ih =>
    intro block hfuel hready
    have hkept := sweep_ready config hready
    have hperm := sweepBlock_names config 0 block none none
    have hdepths := sweepBlock_depths config 0 block none none
    have hvalue := sweepBlock_value config 0 block none none
    have hdeep := sweepBlock_deepNames config 0 block none none
    rw [sweepBlock_none] at hperm hdepths hvalue
    simp only [rounds]
    split
    · next hinner =>
        have hnil := List.isEmpty_iff.1 hinner
        refine ⟨_, [], rfl, hkept.inScope, hperm, List.nil_subset _, fun V M sem limit s => ?_⟩
        apply sweep_matches config hready
        rw [hnil]
        exact List.Subset.refl _
    · next hinner =>
        have hpos : 0 < (sweepBlock config 0 none none block).inner.length := by
          rw [List.length_pos_iff]
          exact fun hnil => hinner (List.isEmpty_iff.2 hnil)
        have hless : blockDepths 0 (sweepBlock config 0 none none block).kept < fuel := by
          omega
        obtain ⟨result, moved, hresult, hscoped, hnames, hmoved, hruns⟩ := ih _ hless hkept
        refine ⟨result, (sweepBlock config 0 none none block).inner ++ moved, hresult, hscoped,
          hnames.trans hperm, ?_, fun V M sem limit s => ?_⟩
        · exact List.append_subset.2 ⟨hdeep.2, List.Subset.trans hmoved hdeep.1⟩
        · have hfirst := sweep_matches config hready (List.Subset.refl _) sem limit s
          refine hfirst.trans (hruns V M sem limit s) (fun e he => ?_) fun hpost hpost' => ?_
          · simp only [keep, List.mem_append, not_or, Bool.or_eq_true, decide_eq_true_eq] at he ⊢
            tauto
          · refine ⟨⟨hpost'.1.mem.trans hpost.1.mem, fun _ hy => by cases hy⟩,
              fun hnormal y hy => ?_⟩
            have hy' : y ∈ directNames (sweepBlock config 0 none none block).kept :=
              (List.mem_append.1 (hvalue hy)).resolve_right fun hnil => by cases hnil
            exact (hpost'.2 hnormal y hy').trans (hpost.2 hnormal y hy)

def countedLoops : Semantics ℕ ℕ Unit where
  binary _ values := values.head! / values.getLast!
  unary _ values := values.head!
  globalPtr fields _ := fields
  externalPtr fields _ := fields
  argLoad arg := arg
  other fields _ mem := (fields, mem, .normal)
  test value := value != 0
  iterations kind _ _ :=
    match kind with
    | .other count => some (List.range count)
    | _ => none
  noIndex := 0
  index value _ := value

def guardedDivision : List (Stmt ℕ (Kind ℕ)) :=
  [.plain 0 (.other 6) [], .plain 1 (.other 0) [],
    .loop 2 (.other 1) [] [.loop 3 (.other 0) [] [.plain 4 (.binaryOp 0) [0, 1]]]]

end Quadrants.Simplify.LoopInvariant
