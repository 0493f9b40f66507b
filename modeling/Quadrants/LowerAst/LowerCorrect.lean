import Quadrants.LowerAst.Loops

/-!
Runs of frontend bodies: more rounds show more of the same run, a statement without a break does not
leave its loop, and a loop that does not assign its variable goes on with the next index.
-/

namespace Quadrants.LowerAst

open Library.TracedLoops

variable {V : Type} [MachineValue V] [DecidableEq V]

mutual

theorem Stmt.signal_ne_broke (rounds : ℕ) : ∀ (stmt : Stmt V) (s : State V),
    stmt.breaks = false → (stmt.exec rounds s).signal ≠ .broke
  | .alloca _ _, s, _ => by simp [Stmt.exec]
  | .assign _ _, s, _ => by simp [Stmt.exec]
  | .assignIndex _ _ _, s, _ => by simp [Stmt.exec]
  | .ifThen condition trueStatements falseStatements, s, h => by
    simp only [Stmt.breaks, Bool.or_eq_false_iff] at h
    simp only [Stmt.exec]
    split
    · exact execBlock_signal_ne_broke rounds falseStatements s h.2
    · exact execBlock_signal_ne_broke rounds trueStatements s h.1
  | .breakLoop, s, h => by simp [Stmt.breaks] at h
  | .continueLoop, s, _ => by simp [Stmt.exec]
  | .whileLoop cond body, s, _ => by
    simp only [Stmt.exec]
    rcases forever_signal (whileRound cond (execBlock rounds body)) rounds s with h | h
    · rw [h]
      decide
    · rw [h]
      decide
  | .rangeFor loopVar begin last body, s, _ => by
    simp only [Stmt.exec, Outcome.mapState]
    rcases forever_signal (forRound loopVar (toInt32 (last.eval s)).toInt
      (execBlock rounds body)) rounds (s, (toInt32 (begin.eval s)).toInt) with h | h
    · rw [h]
      decide
    · rw [h]
      decide

theorem execBlock_signal_ne_broke (rounds : ℕ) : ∀ (stmts : List (Stmt V)) (s : State V),
    breaksBlock stmts = false → (execBlock rounds stmts s).signal ≠ .broke
  | [], s, _ => by simp [execBlock, skip]
  | stmt :: rest, s, h => by
    simp only [breaksBlock, Bool.or_eq_false_iff] at h
    rw [execBlock]
    by_cases hnormal : (stmt.exec rounds s).signal = .normal
    · rw [andThen_of_normal hnormal]
      exact execBlock_signal_ne_broke rounds rest _ h.2
    · rw [andThen_of_ne_normal hnormal]
      exact Stmt.signal_ne_broke rounds stmt s h.1

end

mutual

theorem Stmt.vars_kept (rounds : ℕ) {x : Identifier} : ∀ (stmt : Stmt V) (s : State V),
    x ∉ stmt.assigned → x ∉ stmt.declared → (stmt.exec rounds s).state.vars x = s.vars x
  | .alloca y zero, s, _, hdeclared => by
    exact assign_vars_of_ne (by simpa [Stmt.declared] using hdeclared) s zero
  | .assign y rhs, s, hassigned, _ => by
    exact assign_vars_of_ne (by simpa [Stmt.assigned] using hassigned) s _
  | .assignIndex _ _ _, s, _, _ => by simp only [Stmt.exec, store_vars]
  | .ifThen _ trueStatements falseStatements, s, hassigned, hdeclared => by
    simp only [Stmt.assigned, List.mem_append, not_or] at hassigned
    simp only [Stmt.declared, List.mem_append, not_or] at hdeclared
    simp only [Stmt.exec]
    split
    · exact execBlock_vars_kept rounds falseStatements s hassigned.2 hdeclared.2
    · exact execBlock_vars_kept rounds trueStatements s hassigned.1 hdeclared.1
  | .breakLoop, s, _, _ => by simp only [Stmt.exec]
  | .continueLoop, s, _, _ => by simp only [Stmt.exec]
  | .whileLoop cond body, s, hassigned, hdeclared => by
    refine (forever_keeps (I := fun s' => s'.vars x = s.vars x) (P := fun _ => True) ?_ rounds s
      rfl).1
    intro s' hs'
    refine ⟨?_, fun _ _ => trivial⟩
    simp only [whileRound]
    split
    · exact hs'
    · exact (execBlock_vars_kept rounds body s' hassigned hdeclared).trans hs'
  | .rangeFor y begin last body, s, hassigned, hdeclared => by
    simp only [Stmt.declared, List.mem_cons, not_or] at hdeclared
    refine (forever_keeps (I := fun p => p.1.vars x = s.vars x) (P := fun _ => True) ?_ rounds
      (s, (toInt32 (begin.eval s)).toInt) rfl).1
    rintro ⟨s', index⟩ hs'
    refine ⟨?_, fun _ _ => trivial⟩
    have hround : ∀ value, (execBlock rounds body (s'.assign y value)).state.vars x =
        s.vars x := by
      intro value
      rw [execBlock_vars_kept rounds body _ hassigned hdeclared.2, assign_vars_of_ne hdeclared.1]
      exact hs'
    simp only [forRound]
    split
    · split <;> exact hround _
    · exact hs'

theorem execBlock_vars_kept (rounds : ℕ) {x : Identifier} :
    ∀ (stmts : List (Stmt V)) (s : State V), x ∉ assignedBlock stmts → x ∉ declaredBlock stmts →
      (execBlock rounds stmts s).state.vars x = s.vars x
  | [], s, _, _ => by simp only [execBlock, skip]
  | stmt :: rest, s, hassigned, hdeclared => by
    simp only [assignedBlock, List.mem_append, not_or] at hassigned
    simp only [declaredBlock, List.mem_append, not_or] at hdeclared
    have hfirst := Stmt.vars_kept rounds stmt s hassigned.1 hdeclared.1
    rw [execBlock]
    by_cases hnormal : (stmt.exec rounds s).signal = .normal
    · rw [andThen_of_normal hnormal, after_state,
        execBlock_vars_kept rounds rest _ hassigned.2 hdeclared.2]
      exact hfirst
    · rw [andThen_of_ne_normal hnormal]
      exact hfirst

end

mutual

theorem Stmt.nextAgrees (rounds : ℕ) : ∀ (stmt : Stmt V), stmt.indexKept [] = true →
    stmt.declared.Nodup → ∀ s, ∀ e ∈ (stmt.exec rounds s).trace, NextAgrees e
  | .alloca _ _, _, _, s, e, he => by simp [Stmt.exec] at he
  | .assign _ _, _, _, s, e, he => by
    simp only [Stmt.exec, List.mem_singleton] at he
    subst he
    trivial
  | .assignIndex _ _ _, _, _, s, e, he => by
    simp only [Stmt.exec, List.mem_singleton] at he
    subst he
    trivial
  | .ifThen _ trueStatements falseStatements, hkept, hunique, s, e, he => by
    simp only [Stmt.indexKept, Bool.and_eq_true] at hkept
    have hparts := List.nodup_append.1 hunique
    simp only [Stmt.exec] at he
    split at he
    · exact execBlock_nextAgrees rounds falseStatements hkept.2 hparts.2.1 s e he
    · exact execBlock_nextAgrees rounds trueStatements hkept.1 hparts.1 s e he
  | .breakLoop, _, _, s, e, he => by simp [Stmt.exec] at he
  | .continueLoop, _, _, s, e, he => by simp [Stmt.exec] at he
  | .whileLoop cond body, hkept, hunique, s, e, he => by
    refine (forever_keeps (I := fun _ => True) (P := NextAgrees) ?_ rounds s trivial).2 e he
    intro s' _
    refine ⟨trivial, fun e he => ?_⟩
    simp only [whileRound] at he
    split at he
    · cases he
    · exact execBlock_nextAgrees rounds body hkept hunique s' e he
  | .rangeFor x begin last body, hkept, hunique, s, e, he => by
    simp only [Stmt.indexKept, Bool.and_eq_true, Bool.or_eq_true] at hkept
    have hdeclared := List.nodup_cons.1 hunique
    have hassigned : x ∉ assignedBlock body := by simpa using hkept.1
    refine (forever_keeps (I := fun _ => True) (P := NextAgrees) ?_ rounds
      (s, (toInt32 (begin.eval s)).toInt) trivial).2 e he
    rintro ⟨s', index⟩ -
    refine ⟨trivial, fun e he => ?_⟩
    have hvar := execBlock_vars_kept rounds body
      (s'.assign x (ofInt32 (BitVec.ofInt 32 index))) hassigned hdeclared.1
    rw [assign_vars_self] at hvar
    have hinner := execBlock_nextAgrees rounds body hkept.2 hdeclared.2
      (s'.assign x (ofInt32 (BitVec.ofInt 32 index)))
    have hnext : NextAgrees (.next x index (toInt32 ((execBlock rounds body
        (s'.assign x (ofInt32 (BitVec.ofInt 32 index)))).state.vars x))
        (toInt32 (last.eval s)).toInt : Event V) := by
      left
      rw [hvar, MachineValue.toInt32_ofInt32]
    simp only [forRound] at he
    split at he
    · split at he
      · rcases List.mem_append.1 he with he | he
        · exact hinner e he
        · rw [List.mem_singleton.1 he]
          exact hnext
      · rcases List.mem_append.1 he with he | he
        · exact hinner e he
        · rw [List.mem_singleton.1 he]
          exact hnext
      · exact hinner e he
      · exact hinner e he
    · cases he

theorem execBlock_nextAgrees (rounds : ℕ) : ∀ (stmts : List (Stmt V)),
    indexKeptBlock [] stmts = true → (declaredBlock stmts).Nodup →
    ∀ s, ∀ e ∈ (execBlock rounds stmts s).trace, NextAgrees e
  | [], _, _, s, e, he => by simp [execBlock, skip] at he
  | stmt :: rest, hkept, hunique, s, e, he => by
    simp only [indexKeptBlock, Bool.and_eq_true] at hkept
    have hparts := List.nodup_append.1 hunique
    rw [execBlock] at he
    by_cases hnormal : (stmt.exec rounds s).signal = .normal
    · rw [andThen_of_normal hnormal] at he
      rcases List.mem_append.1 he with he | he
      · exact Stmt.nextAgrees rounds stmt hkept.1 hparts.1 s e he
      · exact execBlock_nextAgrees rounds rest hkept.2 hparts.2.1 _ e he
    · rw [andThen_of_ne_normal hnormal] at he
      exact Stmt.nextAgrees rounds stmt hkept.1 hparts.1 s e he

end

end Quadrants.LowerAst

/-!
A frontend body and its lowered form make the same assignments, and one of them ends if and only if
the other one does.
-/

namespace Quadrants.LowerAst

open Library.TracedLoops

variable {V : Type} [MachineValue V] [DecidableEq V]

section Statements

variable {fors : List Identifier}

def SimulatesStmt (visible : List Identifier) (scope : Scope) (n : ℕ) (stmt : Stmt V)
    (l : Lowered V) (rounds : ℕ) : Prop :=
  ∀ s t, Related visible scope s t →
    Agrees NextAgrees Event.observe
      (fun signal s' t' => Kept visible scope n t s' t' ∧
        (signal = .normal → Related (stmt.declares ++ visible) l.scope s' t'))
      (stmt.exec rounds s) (runBlock rounds l.code t)

variable {n rounds : ℕ} {scope : Scope} {visible : List Identifier}

theorem Simulates.stmt {stmt : Stmt V}
    (hset : Setting scope visible n stmt.declared) {capturing : Option ℕ} {l : Lowered V}
    (hlower : stmt.lower fors capturing scope n = some l) (hdeclares : stmt.declares = [])
    (h : Simulates visible scope n (stmt.exec rounds) (runBlock rounds l.code)) :
    SimulatesStmt visible scope n stmt l rounds := by
  intro s t hrelated
  refine (h s t hrelated).weaken fun hkept => ⟨hkept, fun _ => ?_⟩
  rw [hdeclares]
  refine hkept.1.restrict (fun _ hx => hx) fun x hx => ?_
  refine ((Stmt.lower_scope stmt hlower).2 x fun hmem => ?_).symm
  exact hset.notMem (stmt.binds_subset hmem) hx

theorem simulates_alloca {x : Identifier} {zero : V} (hset : Setting scope visible n [x]) :
    SimulatesStmt visible scope n (.alloca x zero)
      ⟨[.plain (.alloca n zero)], scope.insert x (.alloca n), n + 1⟩ rounds := by
  intro s t h
  have hx : x ∉ visible := hset.notMem List.mem_cons_self
  have hkept : Related visible scope (s.assign x zero) (t.setAlloca n zero) :=
    (h.assign_of_notMem hx zero).undisturbed hset.covers
      ((Undisturbed.refl n t).setAlloca (Nat.le_refl n) zero)
  refine fun _ => ⟨rfl, rfl, ⟨hkept, fun _ _ => rfl⟩, fun _ => ?_⟩
  refine hkept.insert hx ?_
  rw [assign_vars_self]
  exact setAlloca_allocas_self _ _ _

theorem simulates_assign
    {x : Identifier} {rhs : Expr V} (hcovers : Covers scope visible n) (hx : x ∈ visible)
    (hrhs : rhs.inScope visible = true) {e : Flattened V} (he : rhs.flatten scope n = some e)
    {a : ℕ} (ha : scope.lookupVar x = some (.alloca a)) :
    Simulates visible scope n ((Stmt.assign x rhs).exec rounds)
      (runBlock rounds (e.stmts.map .plain ++ [.assignStore x a e.result])) := by
  intro s t h
  obtain ⟨-, hcorrect⟩ := rhs.flatten_correct hcovers hrhs he
  obtain ⟨hkept, hvalue⟩ := hcorrect s t h
  rw [runBlock_plain_append, runBlock_singleton, Instr.run, hvalue]
  refine fun _ => ⟨rfl, rfl, ?_, hkept.values⟩
  exact (h.undisturbed hcovers hkept).assign hcovers hx ha _

theorem simulates_assignIndex {field : ℕ} {indices rhs : Expr V} (hcovers : Covers scope visible n)
    (hindices : indices.inScope visible = true) (hrhs : rhs.inScope visible = true)
    {e i : Flattened V} (he : rhs.flatten scope n = some e)
    (hi : indices.flatten scope e.next = some i) :
    Simulates visible scope n ((Stmt.assignIndex field indices rhs).exec rounds)
      (runBlock rounds ((e.stmts ++ i.stmts).map .plain ++
        [.globalStore field i.result e.result])) := by
  intro s t h
  have hnext := rhs.le_next he
  obtain ⟨hlt, hcorrect⟩ := rhs.flatten_correct hcovers hrhs he
  obtain ⟨-, hcorrect'⟩ := indices.flatten_correct (hcovers.mono hnext) hindices hi
  obtain ⟨hkept, hvalue⟩ := hcorrect s t h
  obtain ⟨hkept', hvalue'⟩ := hcorrect' s _ (h.undisturbed hcovers hkept)
  have hboth := hkept.trans (hkept'.mono hnext)
  rw [runBlock_plain_append, stepAll_append, runBlock_singleton, Instr.run, hvalue',
    hkept'.values _ hlt, hvalue]
  exact fun _ => ⟨rfl, rfl, (h.undisturbed hcovers hboth).store _ _ _, hboth.values⟩

theorem simulates_ifThen {condition : Expr V} {trueStatements falseStatements : List (Stmt V)}
    (hcovers : Covers scope visible n) (hcondition : condition.inScope visible = true)
    {c : Flattened V} (hc : condition.flatten scope n = some c) {t f : Lowered V}
    (hle : c.next ≤ t.next)
    (htrue : Simulates visible ([] :: scope) c.next (execBlock rounds trueStatements)
      (runBlock rounds t.code))
    (hfalse : Simulates visible ([] :: scope) t.next (execBlock rounds falseStatements)
      (runBlock rounds f.code)) :
    Simulates visible scope n ((Stmt.ifThen condition trueStatements falseStatements).exec rounds)
      (runBlock rounds (c.stmts.map .plain ++ [.ifStmt c.result t.code f.code])) := by
  intro s t₀ h
  have hnext := condition.le_next hc
  obtain ⟨-, hcorrect⟩ := condition.flatten_correct hcovers hcondition hc
  obtain ⟨hkept, hvalue⟩ := hcorrect s t₀ h
  have hrelated := (h.undisturbed hcovers hkept).push
  rw [runBlock_plain_append, runBlock_singleton, Stmt.exec, Instr.run, hvalue]
  split
  · refine (hfalse s _ hrelated).weaken fun hpost => ⟨hpost.1.pop, fun k hk => ?_⟩
    exact (hpost.2 k (by omega)).trans (hkept.values k hk)
  · refine (htrue s _ hrelated).weaken fun hpost => ⟨hpost.1.pop, fun k hk => ?_⟩
    exact (hpost.2 k (by omega)).trans (hkept.values k hk)

theorem simulates_break (hcovers : Covers scope visible n) (mask : ℕ) :
    Simulates visible scope n ((Stmt.breakLoop : Stmt V).exec rounds)
      (runBlock rounds [.plain (.const n (ofInt32 0)), .whileControl mask n]) := by
  intro s t h
  have hkept : Undisturbed n t (t.setValue n (ofInt32 0)) :=
    (Undisturbed.refl n t).setValue (Nat.le_refl n) _
  rw [runBlock_plain_cons, runBlock_whileControl, Plain.step, setValue_values_self,
    MachineValue.isZero_ofInt32_zero]
  exact fun _ => ⟨rfl, rfl, h.undisturbed hcovers hkept, hkept.values⟩

theorem simulates_continue : Simulates visible scope n ((Stmt.continueLoop : Stmt V).exec rounds)
      (runBlock rounds [.continueStmt]) := by
  intro s t h
  exact fun _ => ⟨rfl, rfl, h, fun _ _ => rfl⟩

mutual

theorem Stmt.simulates (rounds : ℕ) : ∀ (stmt : Stmt V) {capturing : Option ℕ} {scope : Scope}
    {visible : List Identifier} {n : ℕ} {l : Lowered V},
    Setting scope visible n stmt.declared → stmt.inScope visible = true →
    stmt.marked fors = true → stmt.lower fors capturing scope n = some l →
    SimulatesStmt visible scope n stmt l rounds
  | .alloca x zero, capturing, scope, visible, n, l, hset, _, _, hlower => by
    simp only [Stmt.lower] at hlower
    split at hlower
    · cases hlower
    · cases hlower
      exact simulates_alloca hset
  | .assign x rhs, capturing, scope, visible, n, l, hset, hinScope, _, hlower => by
    obtain ⟨e, a, he, ha, rfl⟩ := lower_assign hlower
    simp only [Stmt.inScope, Bool.and_eq_true, List.contains_iff_mem] at hinScope
    exact (simulates_assign hset.covers hinScope.1 hinScope.2 he ha).stmt hset hlower rfl
  | .assignIndex field indices rhs, capturing, scope, visible, n, l, hset, hinScope, _,
      hlower => by
      have hlower' := hlower
      simp only [Stmt.lower, Option.bind_eq_bind, Option.bind_eq_some_iff] at hlower'
      obtain ⟨e, he, i, hi, hlower'⟩ := hlower'
      cases hlower'
      simp only [Stmt.inScope, Bool.and_eq_true] at hinScope
      exact (simulates_assignIndex hset.covers hinScope.1 hinScope.2 he hi).stmt hset hlower rfl
  | .ifThen condition trueStatements falseStatements, capturing, scope, visible, n, l, hset,
      hinScope, hmarked, hlower => by
      have hlower' := hlower
      simp only [Stmt.lower, Option.bind_eq_bind, Option.bind_eq_some_iff] at hlower'
      obtain ⟨c, hc, t, ht, f, hf, hlower'⟩ := hlower'
      cases hlower'
      simp only [Stmt.inScope, Bool.and_eq_true] at hinScope
      simp only [Stmt.marked, Bool.and_eq_true] at hmarked
      have hnext := condition.le_next hc
      have hnext' := (lowerBlock_scope trueStatements ht).1
      have hset' := hset
      have htrue := simulatesBlock rounds trueStatements
        ((hset'.sub (List.sublist_append_left _ _)).mono hnext).push hinScope.1.2 hmarked.1 ht
      have hfalse := simulatesBlock rounds falseStatements
        ((hset'.sub (List.sublist_append_right _ _)).mono (Nat.le_trans hnext hnext')).push
        hinScope.2 hmarked.2 hf
      exact (simulates_ifThen hset.covers hinScope.1.1 hc hnext' htrue hfalse).stmt hset hlower rfl
  | .breakLoop, capturing, scope, visible, n, l, hset, _, _, hlower => by
    have hlower' := hlower
    simp only [Stmt.lower, Option.bind_eq_bind, Option.bind_eq_some_iff] at hlower'
    obtain ⟨mask, -, hlower'⟩ := hlower'
    cases hlower'
    exact (simulates_break hset.covers mask).stmt hset hlower rfl
  | .continueLoop, capturing, scope, visible, n, l, hset, _, _, hlower => by
    have hlower' := hlower
    simp only [Stmt.lower, Option.some.injEq] at hlower'
    subst hlower'
    exact simulates_continue.stmt hset hlower rfl
  | .whileLoop cond body, capturing, scope, visible, n, l, hset, hinScope, hmarked, hlower => by
    have hlower' := hlower
    simp only [Stmt.lower, Option.bind_eq_bind, Option.bind_eq_some_iff] at hlower'
    obtain ⟨c, hc, b, hb, hlower'⟩ := hlower'
    cases hlower'
    simp only [Stmt.inScope, Bool.and_eq_true] at hinScope
    have hnext := cond.le_next hc
    have hset' := hset
    have hbody := simulatesBlock rounds body
      (hset'.mono (Nat.le_trans hnext (Nat.le_add_right _ 2))).push hinScope.2 hmarked hb
    refine Simulates.stmt hset hlower rfl ?_
    have hloop := simulates_while hset.covers hinScope.1 hc hbody
    intro s t h
    exact hloop s t h
  | .rangeFor x begin last body, capturing, scope, visible, n, l, hset, hinScope, hmarked,
      hlower => by
      simp only [Stmt.inScope, Bool.and_eq_true] at hinScope
      simp only [Stmt.marked, Bool.and_eq_true, Bool.or_eq_true] at hmarked
      have hset' := hset
      obtain ⟨b, e, hb, he, ⟨hfor, inner, hinner, rfl⟩ | ⟨hfor, inner, hinner, rfl⟩⟩ :=
        lower_rangeFor hlower
      · have hnext : n ≤ e.next := Nat.le_trans (begin.le_next hb) (last.le_next he)
        have hbody := simulatesBlock rounds body
          (((hset'.mono hnext).insert (.alloca e.next) (Nat.le_refl _)).mono
            (by simp only [Place.number]; omega)).push hinScope.2 hmarked.2 hinner
        refine Simulates.stmt hset hlower rfl ?_
        have hloop := simulates_forWithBreak hset' hinScope.1.1 hinScope.1.2 hb he hbody
        intro s t h
        exact hloop s t h
      · have hnext : n ≤ e.next := Nat.le_trans (begin.le_next hb) (last.le_next he)
        have hbody := simulatesBlock rounds body
          ((hset'.mono hnext).push.insert (.index (e.next + 1)) (Nat.le_succ _)) hinScope.2
          hmarked.2 hinner
        have hbreaks : breaksBlock body = false := by
          rw [hfor] at hmarked
          simpa using hmarked.1
        refine Simulates.stmt hset hlower rfl ?_
        have hloop := simulates_forRange hset' hinScope.1.1 hinScope.1.2 hb he
          (fun s => execBlock_signal_ne_broke rounds body s hbreaks) hbody
        intro s t h
        exact hloop s t h

theorem simulatesBlock (rounds : ℕ) : ∀ (stmts : List (Stmt V)) {capturing : Option ℕ}
    {scope : Scope} {visible : List Identifier} {n : ℕ} {l : Lowered V},
    Setting scope visible n (declaredBlock stmts) → inScopeBlock visible stmts = true →
    markedBlock fors stmts = true → lowerBlock fors capturing stmts scope n = some l →
    Simulates visible scope n (execBlock rounds stmts) (runBlock rounds l.code)
  | [], capturing, scope, visible, n, l, _, _, _, hlower => by
    simp only [lowerBlock, Option.some.injEq] at hlower
    subst hlower
    intro s t h
    exact fun _ => ⟨rfl, rfl, h, fun _ _ => rfl⟩
  | stmt :: rest, capturing, scope, visible, n, l, hset, hinScope, hmarked, hlower => by
    simp only [lowerBlock, Option.bind_eq_bind, Option.bind_eq_some_iff] at hlower
    obtain ⟨first, hfirst, others, hothers, hlower⟩ := hlower
    cases hlower
    simp only [inScopeBlock, Bool.and_eq_true] at hinScope
    simp only [markedBlock, Bool.and_eq_true] at hmarked
    obtain ⟨hnext, hlookup⟩ := Stmt.lower_scope stmt hfirst
    have hstmt := Stmt.simulates rounds stmt (hset.sub (List.sublist_append_left _ _))
      hinScope.1 hmarked.1 hfirst
    have hrest := simulatesBlock rounds rest (hset.rest hfirst) hinScope.2 hmarked.2 hothers
    intro s t h
    rw [runBlock_append]
    refine agrees_andThen (hstmt s t h) ?_ fun _ _ _ _ hpost => hpost.1
    intro s' t' hpost
    refine (hrest s' t' (hpost.2 rfl)).weaken fun hkept => ⟨?_, fun k hk => ?_⟩
    · refine hkept.1.restrict (List.subset_append_right _ _) fun x hx => hlookup x fun hmem => ?_
      exact hset.notMem (List.mem_append_left _ (stmt.binds_subset hmem)) hx
    · exact (hkept.2 k (Nat.lt_of_lt_of_le hk hnext)).trans (hpost.1.2 k hk)

end

end Statements

/-- The lowered body shows the assignments of the body, and ends when and as the body does. -/
structure Refines (root : List (Stmt V)) (code : List (Instr V)) (s : State V) (t : IrState V) :
    Prop where
  assignments : ∀ rounds, (runBlock rounds code t).trace =
    (execBlock rounds root s).trace.filterMap Event.observe
  ends : ∀ rounds, (runBlock rounds code t).signal = (execBlock rounds root s).signal
  fields : ∀ rounds, (runBlock rounds code t).state.fields =
    (execBlock rounds root s).state.fields

def Preserves (root : List (Stmt V)) (s : State V) : Prop :=
  ∃ code, lowerAst root = some code ∧ ∀ t, t.fields = s.fields → Refines root code s t

/-- If no range-for without a break assigns its loop variable, and every round of the others that
goes to its end is followed by the round with the next index, then lowering preserves the body. -/
theorem lowerAst_preserves {root : List (Stmt V)} (hwell : WellFormed root) {fors : List Identifier}
    (hfors : detectForsWithBreak root = some fors) (hkept : indexKeptBlock fors root = true)
    {s : State V} (hnext : ∀ rounds, ∀ e ∈ (execBlock rounds root s).trace, NextAgrees e) :
    Preserves root s := by
  obtain ⟨hmarked, hbreaks⟩ := marked_of_detectForsWithBreak hfors
  have hset : Setting [[]] [] 0 (declaredBlock root) := by
    refine ⟨⟨fun x hx => (by cases hx), fun x hx => by cases hx⟩, fun x _ => ?_, hwell.unique⟩
    simp [Scope.lookupVar]
  have hcaptured : breaksBlock root = true → (none : Option ℕ).isSome = true := by
    rw [hbreaks]
    rintro ⟨⟩
  have hassigned : Assignable [[]] (assignedBlock root) := by
    intro x _ r
    simp [Scope.lookupVar]
  obtain ⟨l, hl⟩ := exists_lowerBlock root hset hwell.inScope hmarked hcaptured hkept hassigned
  refine ⟨l.code, ?_, fun t ht => ?_⟩
  · simp [lowerAst, hfors, hl]
  · have hrelated : Related [] [[]] s t := ⟨ht, fun x hx => by cases hx⟩
    have hagrees := fun rounds =>
      simulatesBlock rounds root hset hwell.inScope hmarked hl s t hrelated (hnext rounds)
    exact ⟨fun rounds => (hagrees rounds).1, fun rounds => (hagrees rounds).2.1,
      fun rounds => (hagrees rounds).2.2.1.fields⟩

instance int32Machine : MachineValue (BitVec 32) where
  ofInt32 := id
  toInt32 := id
  ofBool b := if b then 1 else 0
  isZero b := b == 0
  toInt32_ofInt32 _ := rfl
  isZero_ofInt32_zero := rfl
  isZero_ofBool b := by cases b <;> rfl

def sumBody : List (Stmt (BitVec 32)) :=
  [.alloca 0 0, .rangeFor 1 (.const 0) (.const 3)
    [.ifThen (.binary (fun a b => if a = b then 1 else 0) (.id 1) (.const 1)) [.breakLoop] [],
      .assign 0 (.binary (fun a b => a + b) (.id 0) (.id 1))]]

theorem sumBody_preserved : Preserves sumBody ⟨fun _ => 0, fun _ _ => 0⟩ := by
  have hwell : WellFormed sumBody := ⟨by decide, by decide⟩
  have hfors : detectForsWithBreak sumBody = some [1] := by decide
  refine lowerAst_preserves hwell hfors (by decide) fun rounds => ?_
  exact execBlock_nextAgrees rounds sumBody (by decide) hwell.unique _

def skipBody : List (Stmt (BitVec 32)) :=
  [.alloca 0 0, .rangeFor 1 (.const 0) (.const 4)
    [.ifThen (.const 0) [.breakLoop] [], .assign 1 (.binary (fun a b => a + b) (.id 1) (.const 1)),
      .assign 0 (.id 1)]]

/-- The body goes through its loop four times, and the lowered body twice. -/
theorem skipBody_not_preserved : WellFormed skipBody ∧ detectForsWithBreak skipBody = some [1] ∧
    ((execBlock 5 skipBody ⟨fun _ => 0, fun _ _ => 0⟩).trace.filterMap Event.observe).length = 8 ∧
    (lowerAst skipBody).map (fun code =>
      (runBlock 5 code ⟨fun _ => 0, fun _ => 0, fun _ => 0, fun _ _ => 0⟩).trace.length) = some 4 ∧
    ¬Preserves skipBody ⟨fun _ => 0, fun _ _ => 0⟩ := by
  have hexec : ((execBlock 5 skipBody ⟨fun _ => 0, fun _ _ => 0⟩).trace.filterMap
      Event.observe).length = 8 := by decide +kernel
  have hrun : (lowerAst skipBody).map (fun code => (runBlock 5 code
      ⟨fun _ => 0, fun _ => 0, fun _ => 0, fun _ _ => 0⟩).trace.length) = some 4 := by
    decide +kernel
  refine ⟨⟨by decide, by decide⟩, by decide, hexec, hrun, ?_⟩
  rintro ⟨code, hcode, hrefines⟩
  have hassignments :=
    (hrefines ⟨fun _ => 0, fun _ => 0, fun _ => 0, fun _ _ => 0⟩ rfl).assignments 5
  rw [hcode, Option.map_some, Option.some.injEq, hassignments, hexec] at hrun
  exact absurd hrun (by decide)

end Quadrants.LowerAst
