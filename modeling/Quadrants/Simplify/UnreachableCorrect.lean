import Quadrants.Simplify.UnreachableCode

/-!
Unreachable-code elimination ends, leaves every run as it is and removes only what no run executes,
besides `continue` at the end of a loop body and an `if` on a constant.
-/

namespace Quadrants.Simplify.Unreachable

open Library.TracedLoops List Option Prod

variable {S σ ι : Type}

section Runs

variable {m : Machine S ι σ} {full : Bool} {rounds : ℕ}

theorem execBlock_append (block rest : List (Stmt S)) (state : σ) :
    execBlock m full rounds (block ++ rest) state =
      andThen (execBlock m full rounds block) (execBlock m full rounds rest) state := by
  induction block generalizing state with
  | nil => simp [execBlock, andThen, skip, Outcome.after]
  | cons stmt block ih =>
    rw [cons_append, execBlock]
    have hcons : execBlock m full rounds (stmt :: block) = andThen
        (fun state => stmt.exec m full rounds state) (execBlock m full rounds block) := by
      funext state
      rw [execBlock]
    have hrest : (fun state => execBlock m full rounds (block ++ rest) state) =
        andThen (execBlock m full rounds block) (execBlock m full rounds rest) := funext ih
    rw [hcons, hrest, andThen_assoc]

theorem execBlock_singleton (stmt : Stmt S) (state : σ) :
    execBlock m full rounds [stmt] state = stmt.exec m full rounds state := by
  rw [execBlock]
  have hnil : (fun state => execBlock m full rounds ([] : List (Stmt S)) state) = skip := by
    funext state
    rw [execBlock]
  rw [hnil, andThen_skip]

theorem execBranch_getD (branch : Option (List (Stmt S))) (state : σ) :
    execBlock m full rounds (branch.getD []) state = execBranch m full rounds branch state := by
  cases branch with
  | none => rw [getD_none, execBlock, execBranch]
  | some block => rw [getD_some, execBranch]

theorem cutAfterContinue_exec (block : List (Stmt S)) (state : σ) :
    execBlock m full rounds (cutAfterContinue block).1 state =
      execBlock m full rounds block state := by
  induction block generalizing state with
  | nil => rfl
  | cons stmt rest ih =>
    simp only [cutAfterContinue]
    split
    · next h =>
        obtain ⟨hc, -⟩ := Bool.and_eq_true_iff.1 h
        cases stmt with
        | continueStmt s => simp [execBlock, Stmt.exec, andThen]
        | _ => cases hc
    · exact congrArg (fun f => andThen _ f state) (funext ih)

section Eliminated

variable (m rounds)

mutual

theorem Stmt.eliminateContinue_exec : ∀ (stmt : Stmt S) (state : σ),
    settled (execBlock m false rounds stmt.eliminateContinue.1.toList state) =
      settled (stmt.exec m false rounds state)
  | .plain s, state => by
    rw [Stmt.eliminateContinue, toList, execBlock_singleton]
  | .continueStmt s, state => by
    simp [Stmt.eliminateContinue, execBlock, Stmt.exec, settled, skip, quiet]
  | .whileControl s cond, state => by
    rw [Stmt.eliminateContinue, toList, execBlock_singleton]
  | .ifStmt s (.const val) t f, state => by
    rw [Stmt.eliminateContinue, toList, execBlock_singleton, Stmt.exec, Stmt.exec]
    rw [settled_after, settled_after]
    split
    · rw [eliminateBranch_exec f]
    · rw [eliminateBranch_exec t]
  | .ifStmt s (.stmt cond) t f, state => by
    rw [Stmt.eliminateContinue, toList, execBlock_singleton, Stmt.exec, Stmt.exec]
    rw [settled_after, settled_after]
    split
    · rw [eliminateBranch_exec t]
    · rw [eliminateBranch_exec f]
  | .whileStmt s body, state => by
    rw [Stmt.eliminateContinue, toList, execBlock_singleton]
  | .forStmt s body, state => by
    rw [Stmt.eliminateContinue, toList, execBlock_singleton]
  | .offloaded _ _ _ _ _ _ _ _, state => by
    rw [Stmt.eliminateContinue, toList, execBlock_singleton]

theorem eliminateBack_exec : ∀ (block : List (Stmt S)) (state : σ),
    settled (execBlock m false rounds (eliminateBack block).1 state) =
      settled (execBlock m false rounds block state)
  | [], state => by rw [eliminateBack]
  | stmt :: rest, state => by
    simp only [eliminateBack]
    split
    · next h =>
        rw [List.isEmpty_iff.1 h, execBlock_singleton]
        exact Stmt.eliminateContinue_exec stmt state
    · rw [execBlock, execBlock]
      exact settled_andThen (eliminateBack_exec rest) state

theorem eliminateBranch_exec : ∀ (branch : Option (List (Stmt S))) (state : σ),
    settled (execBranch m false rounds (eliminateBranch branch).1 state) =
      settled (execBranch m false rounds branch state)
  | none, state => by rw [eliminateBranch]
  | some block, state => by
    rw [eliminateBranch, execBranch, execBranch]
    exact eliminateBack_exec block state

end

end Eliminated

section Swept

variable (m rounds)

theorem sweepBlock_exec (block : List (Stmt S)) : ∀ state : σ,
    execBlock m false rounds (sweepBlock block).1 state =
      execBlock m false rounds block state := by
  refine sweepBlock.induct
    (fun stmt => ∀ state : σ,
      execBlock m false rounds stmt.sweep.1 state = stmt.exec m false rounds state)
    (fun body => ∀ state : σ, settled (execBranch m false rounds (sweepTask body).1 state) =
      settled (execBranch m false rounds body state))
    (fun body => ∀ state : σ, settled (execBlock m false rounds (sweepLoop body).1 state) =
      settled (execBlock m false rounds body state))
    (fun block => ∀ state : σ, execBlock m false rounds (sweepBlock block).1 state =
      execBlock m false rounds block state)
    (fun stmts => ∀ state : σ, execBlock m false rounds (sweepStmts stmts).1 state =
      execBlock m false rounds stmts state)
    (fun branch => ∀ state : σ, execBranch m false rounds (sweepBranch branch).1 state =
      execBranch m false rounds branch state)
    ?ifConst ?ifStmt ?whileStmt ?forStmt ?offloaded ?plain ?continueStmt ?whileControl ?noTask
    ?task ?loop ?block ?nil ?cons ?noBranch ?branch block
  case ifConst =>
    intro s val t f state
    rw [Stmt.sweep, execBranch_getD, Stmt.exec]
    split <;> rfl
  case ifStmt =>
    intro s cond t f ht hf state
    rw [Stmt.sweep, execBlock_singleton, Stmt.exec, Stmt.exec, ht, hf]
  case whileStmt =>
    intro s body hbody state
    rw [Stmt.sweep, execBlock_singleton, Stmt.exec, Stmt.exec]
    rw [forever_congr_settled hbody rounds state]
  case forStmt =>
    intro s body hbody state
    rw [Stmt.sweep, execBlock_singleton, Stmt.exec, Stmt.exec]
    rw [forEach_congr_settled (fun i state => hbody (m.enter s i state))]
  case offloaded =>
    intro s isLoop tlsPrologue meshPrologue blsPrologue body blsEpilogue tlsEpilogue h₁ h₂ h₃ htask
      hbranch h₅ h₆ state
    have hbody : ∀ state,
        (if isLoop then
          forEach (fun i state => execBranch m false rounds
            (if isLoop then sweepTask body else sweepBranch body).1 (m.enter s i state))
            (m.iterations s state) state
        else execBranch m false rounds
          (if isLoop then sweepTask body else sweepBranch body).1 state) =
        if isLoop then
          forEach (fun i state => execBranch m false rounds body (m.enter s i state))
            (m.iterations s state) state
        else execBranch m false rounds body state := by
      intro state
      cases isLoop with
      | true => exact forEach_congr_settled (fun i state => htask (m.enter s i state)) _ _
      | false => exact hbranch state
    rw [Stmt.sweep, execBlock_singleton, Stmt.exec, Stmt.exec]
    simp only [hbody, h₁, h₂, h₃, h₅, h₆]
  case plain =>
    intro s state
    rw [Stmt.sweep, execBlock_singleton]
  case continueStmt =>
    intro s state
    rw [Stmt.sweep, execBlock_singleton]
  case whileControl =>
    intro s cond state
    rw [Stmt.sweep, execBlock_singleton]
  case noTask =>
    intro state
    rw [sweepTask]
  case task =>
    intro body hbody state
    rw [sweepTask, execBranch]
    exact hbody state
  case loop =>
    intro body back hback state
    rw [sweepLoop, hback]
    exact eliminateBack_exec m rounds body state
  case block =>
    intro block cut hcut state
    rw [sweepBlock, hcut, cutAfterContinue_exec]
  case nil =>
    intro state
    rw [sweepStmts]
  case cons =>
    intro stmt rest hstmt hrest state
    have hfirst : execBlock m false rounds stmt.sweep.1 =
        fun state => stmt.exec m false rounds state := funext hstmt
    have hsecond : execBlock m false rounds (sweepStmts rest).1 =
        fun state => execBlock m false rounds rest state := funext hrest
    rw [sweepStmts, execBlock_append, hfirst, hsecond, execBlock]
  case noBranch =>
    intro state
    rw [sweepBranch]
  case branch =>
    intro block hblock state
    rw [sweepBranch, execBranch]
    exact hblock state

end Swept

end Runs

theorem getD_size (branch : Option (List (Stmt S))) :
    sizeBlock (branch.getD []) = sizeBranch branch := by
  cases branch with
  | none => rw [getD_none, sizeBlock, sizeBranch]
  | some block => rw [getD_some, sizeBranch]

theorem sizeBlock_singleton (stmt : Stmt S) : sizeBlock [stmt] = stmt.size := by
  rw [sizeBlock, sizeBlock, Nat.add_zero]

theorem sweepBlock_size (block : List (Stmt S)) :
    sizeBlock (sweepBlock block).1 + (sweepBlock block).2.toNat ≤ sizeBlock block := by
  refine sweepBlock.induct
    (fun stmt => sizeBlock stmt.sweep.1 + stmt.sweep.2.toNat ≤ stmt.size)
    (fun body => sizeBranch (sweepTask body).1 + (sweepTask body).2.toNat ≤ sizeBranch body)
    (fun body => sizeBlock (sweepLoop body).1 + (sweepLoop body).2.toNat ≤ sizeBlock body)
    (fun block => sizeBlock (sweepBlock block).1 + (sweepBlock block).2.toNat ≤ sizeBlock block)
    (fun stmts => sizeBlock (sweepStmts stmts).1 + (sweepStmts stmts).2.toNat ≤ sizeBlock stmts)
    (fun branch => sizeBranch (sweepBranch branch).1 + (sweepBranch branch).2.toNat ≤
      sizeBranch branch)
    ?ifConst ?ifStmt ?whileStmt ?forStmt ?offloaded ?plain ?continueStmt ?whileControl ?noTask
    ?task ?loop ?block ?nil ?cons ?noBranch ?branch block
  case ifConst =>
    intro s val t f
    simp only [Stmt.sweep, getD_size, Stmt.size, Bool.toNat_true]
    split <;> omega
  case ifStmt =>
    intro s cond t f ht hf
    have hor := toNat_or_le (sweepBranch t).2 (sweepBranch f).2
    simp only [Stmt.sweep, sizeBlock_singleton, Stmt.size]
    omega
  case whileStmt =>
    simp only [Stmt.sweep, sizeBlock_singleton, Stmt.size]
    omega
  case forStmt =>
    simp only [Stmt.sweep, sizeBlock_singleton, Stmt.size]
    omega
  case offloaded =>
    intro s isLoop tlsPrologue meshPrologue blsPrologue body blsEpilogue tlsEpilogue h₁ h₂ h₃ htask
      hbranch h₅ h₆
    have h₄ : sizeBranch (if isLoop then sweepTask body else sweepBranch body).1 +
        (if isLoop then sweepTask body else sweepBranch body).2.toNat ≤ sizeBranch body := by
      split
      · exact htask
      · exact hbranch
    simp only [Stmt.sweep, sizeBlock_singleton, Stmt.size]
    generalize (if isLoop then sweepTask body else sweepBranch body) = swept at h₄ ⊢
    have hor := toNat_or_le ((sweepBranch tlsPrologue).2 || (sweepBranch meshPrologue).2 ||
      (sweepBranch blsPrologue).2 || swept.2 || (sweepBranch blsEpilogue).2)
      (sweepBranch tlsEpilogue).2
    have hor₅ := toNat_or_le ((sweepBranch tlsPrologue).2 || (sweepBranch meshPrologue).2 ||
      (sweepBranch blsPrologue).2 || swept.2) (sweepBranch blsEpilogue).2
    have hor₄ := toNat_or_le ((sweepBranch tlsPrologue).2 || (sweepBranch meshPrologue).2 ||
      (sweepBranch blsPrologue).2) swept.2
    have hor₃ := toNat_or_le ((sweepBranch tlsPrologue).2 || (sweepBranch meshPrologue).2)
      (sweepBranch blsPrologue).2
    have hor₂ := toNat_or_le (sweepBranch tlsPrologue).2 (sweepBranch meshPrologue).2
    omega
  case plain => simp [Stmt.sweep, sizeBlock, Stmt.size]
  case continueStmt => simp [Stmt.sweep, sizeBlock, Stmt.size]
  case whileControl => simp [Stmt.sweep, sizeBlock, Stmt.size]
  case noTask => simp [sweepTask, sizeBranch]
  case task =>
    intro body hbody
    simpa only [sweepTask, sizeBranch] using hbody
  case loop =>
    intro body back hback
    have hsize := eliminateBack_size body
    simp only [back] at hback
    have hor := toNat_or_le (eliminateBack body).2 (sweepBlock (eliminateBack body).1).2
    simp only [sweepLoop]
    omega
  case block =>
    intro block cut hcut
    have hsize := cutAfterContinue_size block
    simp only [cut] at hcut
    have hor := toNat_or_le (cutAfterContinue block).2 (sweepStmts (cutAfterContinue block).1).2
    simp only [sweepBlock]
    omega
  case nil => simp [sweepStmts, sizeBlock]
  case cons =>
    intro stmt rest hstmt hrest
    have hor := toNat_or_le stmt.sweep.2 (sweepStmts rest).2
    simp only [sweepStmts, sizeBlock_append, sizeBlock]
    omega
  case noBranch => simp [sweepBranch, sizeBranch]
  case branch =>
    intro block hblock
    simpa only [sweepBranch, sizeBranch] using hblock

section Names

variable {full : Bool}

theorem blockNames_append (block rest : List (Stmt S)) :
    blockNames full (block ++ rest) = blockNames full block ++ blockNames full rest := by
  induction block with
  | nil => simp [blockNames]
  | cons stmt block ih => simp [blockNames, ih]

theorem blockNames_singleton (stmt : Stmt S) : blockNames full [stmt] = stmt.names full := by
  rw [blockNames, blockNames, append_nil]

theorem getD_names (branch : Option (List (Stmt S))) :
    blockNames full (branch.getD []) = branchNames full branch := by
  cases branch with
  | none => rw [getD_none, blockNames, branchNames]
  | some block => rw [getD_some, branchNames]

theorem cutAfterContinue_names (block : List (Stmt S)) :
    (blockNames full (cutAfterContinue block).1).Sublist (blockNames full block) := by
  induction block with
  | nil => exact List.Sublist.refl _
  | cons stmt rest ih =>
    simp only [cutAfterContinue]
    split
    · rw [blockNames_singleton]
      exact sublist_append_left _ _
    · exact ih.append_left _

section Eliminated

variable (full)

mutual

theorem Stmt.eliminateContinue_names : ∀ stmt : Stmt S,
    (blockNames full stmt.eliminateContinue.1.toList).Sublist (stmt.names full)
  | .ifStmt s cond t f => by
    have hbranches := (eliminateBranch_names t).append (eliminateBranch_names f)
    rw [Stmt.eliminateContinue, toList, blockNames_singleton]
    cases cond with
    | const val => exact hbranches.append_left _
    | stmt cond => exact hbranches.cons_cons s
  | .continueStmt s => by
    rw [Stmt.eliminateContinue, toList, blockNames]
    exact nil_sublist _
  | .plain s => by
    rw [Stmt.eliminateContinue, toList, blockNames_singleton]
  | .whileControl s cond => by
    rw [Stmt.eliminateContinue, toList, blockNames_singleton]
  | .whileStmt s body => by
    rw [Stmt.eliminateContinue, toList, blockNames_singleton]
  | .forStmt s body => by
    rw [Stmt.eliminateContinue, toList, blockNames_singleton]
  | .offloaded _ _ _ _ _ _ _ _ => by
    rw [Stmt.eliminateContinue, toList, blockNames_singleton]

theorem eliminateBack_names : ∀ block : List (Stmt S),
    (blockNames full (eliminateBack block).1).Sublist (blockNames full block)
  | [] => List.Sublist.refl _
  | stmt :: rest => by
    simp only [eliminateBack]
    split
    · next h =>
        rw [List.isEmpty_iff.1 h, blockNames_singleton]
        exact Stmt.eliminateContinue_names stmt
    · rw [blockNames, blockNames]
      exact (eliminateBack_names rest).append_left _

theorem eliminateBranch_names : ∀ branch : Option (List (Stmt S)),
    (branchNames full (eliminateBranch branch).1).Sublist (branchNames full branch)
  | none => List.Sublist.refl _
  | some block => by
    rw [eliminateBranch, branchNames, branchNames]
    exact eliminateBack_names block

end

end Eliminated

section Swept

variable (full)

theorem sweepBlock_names (block : List (Stmt S)) :
    (blockNames full (sweepBlock block).1).Sublist (blockNames full block) := by
  refine sweepBlock.induct
    (fun stmt => (blockNames full stmt.sweep.1).Sublist (stmt.names full))
    (fun body => (branchNames full (sweepTask body).1).Sublist (branchNames full body))
    (fun body => (blockNames full (sweepLoop body).1).Sublist (blockNames full body))
    (fun block => (blockNames full (sweepBlock block).1).Sublist (blockNames full block))
    (fun stmts => (blockNames full (sweepStmts stmts).1).Sublist (blockNames full stmts))
    (fun branch => (branchNames full (sweepBranch branch).1).Sublist (branchNames full branch))
    ?ifConst ?ifStmt ?whileStmt ?forStmt ?offloaded ?plain ?continueStmt ?whileControl ?noTask
    ?task ?loop ?block ?nil ?cons ?noBranch ?branch block
  case ifConst =>
    intro s val t f
    rw [Stmt.sweep, getD_names]
    split
    · exact (sublist_append_right _ _).trans (sublist_append_right _ _)
    · exact (sublist_append_left _ _).trans (sublist_append_right _ _)
  case ifStmt =>
    intro s cond t f ht hf
    rw [Stmt.sweep, blockNames_singleton]
    exact (ht.append hf).cons_cons s
  case whileStmt =>
    intro s body hbody
    rw [Stmt.sweep, blockNames_singleton]
    exact hbody.cons_cons s
  case forStmt =>
    intro s body hbody
    rw [Stmt.sweep, blockNames_singleton]
    exact hbody.cons_cons s
  case offloaded =>
    intro s isLoop tlsPrologue meshPrologue blsPrologue body blsEpilogue tlsEpilogue h₁ h₂ h₃ htask
      hbranch h₅ h₆
    have hbody : (branchNames full (if isLoop then sweepTask body else sweepBranch body).1).Sublist
        (branchNames full body) := by
      split
      · exact htask
      · exact hbranch
    rw [Stmt.sweep, blockNames_singleton]
    exact (h₁.append (h₂.append (h₃.append (hbody.append (h₅.append h₆))))).cons_cons s
  case plain =>
    intro s
    rw [Stmt.sweep, blockNames_singleton]
  case continueStmt =>
    intro s
    rw [Stmt.sweep, blockNames_singleton]
  case whileControl =>
    intro s cond
    rw [Stmt.sweep, blockNames_singleton]
  case noTask => rw [sweepTask]
  case task =>
    intro body hbody
    rw [sweepTask, branchNames]
    exact hbody
  case loop =>
    intro body back hback
    rw [sweepLoop]
    exact hback.trans (eliminateBack_names full body)
  case block =>
    intro block cut hcut
    rw [sweepBlock]
    exact hcut.trans (cutAfterContinue_names block)
  case nil => rw [sweepStmts]
  case cons =>
    intro stmt rest hstmt hrest
    rw [sweepStmts, blockNames_append]
    exact hstmt.append hrest
  case noBranch => rw [sweepBranch]
  case branch =>
    intro block hblock
    rw [sweepBranch, branchNames]
    exact hblock

end Swept

end Names

section Events

theorem after_events {r : Outcome S σ} {trace names : List S} (h : ∀ e ∈ r.trace, e ∈ names) :
    ∀ e ∈ (r.after trace).trace, e ∈ trace ++ names := by
  intro e he
  rcases mem_append.1 he with he | he
  · exact mem_append_left _ he
  · exact mem_append_right _ (h e he)

theorem andThen_names {first second : σ → Outcome S σ} {names names' : List S}
    (hfirst : ∀ state, ∀ e ∈ (first state).trace, e ∈ names)
    (hsecond : ∀ state, ∀ e ∈ (second state).trace, e ∈ names') (state : σ) :
    ∀ e ∈ (andThen first second state).trace, e ∈ names ++ names' :=
  andThen_events (fun state e he => mem_append_left _ (hfirst state e he))
    (fun state e he => mem_append_right _ (hsecond state e he)) state

variable (m : Machine S ι σ) (full : Bool) (rounds : ℕ)

mutual

theorem Stmt.exec_names : ∀ (stmt : Stmt S) (state : σ),
    ∀ e ∈ (stmt.exec m full rounds state).trace, e ∈ stmt.names full
  | .plain s, state => fun e he => he
  | .continueStmt s, state => fun e he => he
  | .whileControl s cond, state => fun e he => he
  | .ifStmt s (.const val) t f, state => by
    rw [Stmt.exec, Stmt.names]
    apply after_events
    intro e he
    split at he
    · exact mem_append_right _ (execBranch_names f state e he)
    · exact mem_append_left _ (execBranch_names t state e he)
  | .ifStmt s (.stmt cond) t f, state => by
    rw [Stmt.exec, Stmt.names]
    apply after_events
    intro e he
    split at he
    · exact mem_append_left _ (execBranch_names t state e he)
    · exact mem_append_right _ (execBranch_names f state e he)
  | .whileStmt s body, state => by
    rw [Stmt.exec, Stmt.names]
    have hround : ∀ state, True → True ∧
        ∀ e ∈ (execBlock m full rounds body state).trace, e ∈ blockNames full body :=
      fun state _ => ⟨trivial, execBlock_names body state⟩
    exact after_events (forever_keeps hround rounds state trivial).2
  | .forStmt s body, state => by
    rw [Stmt.exec, Stmt.names]
    exact after_events (forEach_events
      (fun i state => execBlock_names body (m.enter s i state)) _ state)
  | .offloaded s isLoop tlsPrologue meshPrologue blsPrologue body blsEpilogue tlsEpilogue,
      state => by
      rw [Stmt.exec, Stmt.names]
      apply after_events
      refine andThen_names (execBranch_names tlsPrologue) ?_ state
      refine andThen_names (execBranch_names meshPrologue) ?_
      refine andThen_names (execBranch_names blsPrologue) ?_
      refine andThen_names ?_
        (andThen_names (execBranch_names blsEpilogue) (execBranch_names tlsEpilogue))
      intro state
      split
      · exact forEach_events (fun i state => execBranch_names body (m.enter s i state)) _ state
      · exact execBranch_names body state

theorem execBlock_names : ∀ (block : List (Stmt S)) (state : σ),
    ∀ e ∈ (execBlock m full rounds block state).trace, e ∈ blockNames full block
  | [], state => fun e he => he
  | stmt :: rest, state => by
    rw [execBlock, blockNames]
    exact andThen_names (Stmt.exec_names stmt) (execBlock_names rest) state

theorem execBranch_names : ∀ (branch : Option (List (Stmt S))) (state : σ),
    ∀ e ∈ (execBranch m full rounds branch state).trace, e ∈ branchNames full branch
  | none, state => fun e he => he
  | some block, state => by
    rw [execBranch, branchNames]
    exact execBlock_names block state

end

end Events

theorem rounds_induction {P : List (Stmt S) → List (Stmt S) → Prop}
    (htrans : ∀ block mid result, P block mid → P mid result → P block result)
    (hround : ∀ block, P block (sweepBlock block).1) :
    ∀ (fuel : ℕ) (block : List (Stmt S)), sizeBlock block < fuel →
      ∃ result, rounds fuel block = some result ∧ P block result := by
  intro fuel
  induction fuel with
  | zero => exact fun block h => absurd h (Nat.not_lt_zero _)
  | succ fuel ih =>
    intro block hfuel
    have hsize := sweepBlock_size block
    simp only [rounds]
    split
    · next hchanged =>
        rw [hchanged, Bool.toNat_true] at hsize
        obtain ⟨result, hresult, hP⟩ := ih (sweepBlock block).1 (by omega)
        exact ⟨result, hresult, htrans _ _ _ (hround block) hP⟩
    · exact ⟨_, rfl, hround block⟩

/-- Every run of the result does what the same run of the kernel body does, and what is removed is
executed by no run, besides `continue` and an `if` on a constant. -/
theorem unreachableCodeElimination_preserves (block : List (Stmt S)) :
    ∃ result, unreachableCodeElimination block = some result ∧
      (blockNames true result).Sublist (blockNames true block) ∧
      ∀ (ι σ : Type) (m : Machine S ι σ) (rounds : ℕ) (state : σ),
        execBlock m false rounds result state = execBlock m false rounds block state ∧
        ∀ s ∈ (execBlock m false rounds block state).trace, s ∈ blockNames false result := by
  obtain ⟨result, hresult, hnames, hexec⟩ := rounds_induction
    (P := fun block result => (blockNames true result).Sublist (blockNames true block) ∧
      ∀ (ι σ : Type) (m : Machine S ι σ) (rounds : ℕ) (state : σ),
        execBlock m false rounds result state = execBlock m false rounds block state)
    (fun block mid result h h' => ⟨h'.1.trans h.1,
      fun ι σ m rounds state => (h'.2 ι σ m rounds state).trans (h.2 ι σ m rounds state)⟩)
    (fun block => ⟨sweepBlock_names true block, fun _ _ m rounds => sweepBlock_exec m rounds block⟩)
    _ block (Nat.lt_succ_self _)
  refine ⟨result, hresult, hnames, fun ι σ m rounds state => ⟨hexec ι σ m rounds state, ?_⟩⟩
  rw [← hexec ι σ m rounds state]
  exact execBlock_names m false rounds result state

def onceAround : Machine ℕ Unit Unit where
  exec _ _ := ()
  test _ _ := true
  iterations _ _ := [()]
  enter _ _ _ := ()

/-- A `continue` at the end of a loop body is executed and removed. -/
theorem loopEndContinue_removed :
    unreachableCodeElimination [Stmt.forStmt 0 [.plain 1, .continueStmt 2]] =
        some [.forStmt 0 [.plain 1]] ∧
      2 ∈ (execBlock onceAround true 0 [.forStmt 0 [.plain 1, .continueStmt 2]] ()).trace ∧
      2 ∉ blockNames true [Stmt.forStmt 0 [.plain 1]] := by
  refine ⟨?_, ?_, ?_⟩
  · simp [unreachableCodeElimination, rounds, sizeBlock, Stmt.size, sweepBlock, sweepStmts,
      cutAfterContinue, Stmt.isContinue, Stmt.sweep, sweepLoop, eliminateBack,
      Stmt.eliminateContinue]
  · simp [execBlock, Stmt.exec, forEach, andThen, onceAround, quiet, skip]
  · simp [blockNames, Stmt.names]

end Quadrants.Simplify.Unreachable
