import Quadrants.Library.TracedLoops
import Mathlib.Data.Int.Notation

/-!
`unreachable_code_elimination.cpp` on kernel bodies. Every statement has a name; what the plain
statements do is up to a machine. The changes of the delayed modifier are made where they belong.
-/

namespace Quadrants.Simplify.Unreachable

open Library.TracedLoops

/-- The condition of an `if`: a `ConstStmt` with its value, or another statement. -/
inductive Cond (S : Type) where
  | const (val : ℤ)
  | stmt (cond : S)

/-- Range-for, struct-for and mesh-for are one kind here. A branch or a part of a task may be
absent; `isLoop` is true of the range-for, mesh-for and struct-for tasks. -/
inductive Stmt (S : Type) where
  | plain (s : S)
  | continueStmt (s : S)
  | whileControl (s cond : S)
  | ifStmt (s : S) (cond : Cond S) (trueStatements falseStatements : Option (List (Stmt S)))
  | whileStmt (s : S) (body : List (Stmt S))
  | forStmt (s : S) (body : List (Stmt S))
  | offloaded (s : S) (isLoop : Bool)
      (tlsPrologue meshPrologue blsPrologue body blsEpilogue tlsEpilogue : Option (List (Stmt S)))

variable {S σ ι : Type}

mutual

def Stmt.size : Stmt S → ℕ
  | .plain _ => 1
  | .continueStmt _ => 1
  | .whileControl _ _ => 1
  | .ifStmt _ _ t f => sizeBranch t + sizeBranch f + 1
  | .whileStmt _ body => sizeBlock body + 1
  | .forStmt _ body => sizeBlock body + 1
  | .offloaded _ _ tlsPrologue meshPrologue blsPrologue body blsEpilogue tlsEpilogue =>
    sizeBranch tlsPrologue + sizeBranch meshPrologue + sizeBranch blsPrologue +
      sizeBranch body + sizeBranch blsEpilogue + sizeBranch tlsEpilogue + 1

def sizeBlock : List (Stmt S) → ℕ
  | [] => 0
  | stmt :: rest => stmt.size + sizeBlock rest

def sizeBranch : Option (List (Stmt S)) → ℕ
  | none => 0
  | some block => sizeBlock block

end

mutual

/-- `UselessContinueEliminator` on a statement at the end of a block, and whether it changed
something. The statement is gone when it is a `continue`. -/
def Stmt.eliminateContinue : Stmt S → Option (Stmt S) × Bool
  | .continueStmt _ => (none, true)
  | .ifStmt s cond t f =>
    let t := eliminateBranch t
    let f := eliminateBranch f
    (some (.ifStmt s cond t.1 f.1), t.2 || f.2)
  | .plain s => (some (.plain s), false)
  | .whileControl s cond => (some (.whileControl s cond), false)
  | .whileStmt s body => (some (.whileStmt s body), false)
  | .forStmt s body => (some (.forStmt s body), false)
  | .offloaded s isLoop tlsPrologue meshPrologue blsPrologue body blsEpilogue tlsEpilogue =>
    (some (.offloaded s isLoop tlsPrologue meshPrologue blsPrologue body blsEpilogue tlsEpilogue),
      false)

def eliminateBack : List (Stmt S) → List (Stmt S) × Bool
  | [] => ([], false)
  | stmt :: rest =>
    if rest.isEmpty then
      let back := stmt.eliminateContinue
      (back.1.toList, back.2)
    else
      let rest := eliminateBack rest
      (stmt :: rest.1, rest.2)

def eliminateBranch : Option (List (Stmt S)) → Option (List (Stmt S)) × Bool
  | none => (none, false)
  | some block =>
    let block := eliminateBack block
    (some block.1, block.2)

end

def Stmt.isContinue : Stmt S → Bool
  | .continueStmt _ => true
  | _ => false

def cutAfterContinue : List (Stmt S) → List (Stmt S) × Bool
  | [] => ([], false)
  | stmt :: rest =>
    if stmt.isContinue && !rest.isEmpty then ([stmt], true)
    else
      let rest := cutAfterContinue rest
      (stmt :: rest.1, rest.2)

theorem sizeBlock_append (block rest : List (Stmt S)) :
    sizeBlock (block ++ rest) = sizeBlock block + sizeBlock rest := by
  induction block with
  | nil => simp [sizeBlock]
  | cons stmt block ih =>
    simp only [List.cons_append, sizeBlock, ih]
    omega

theorem toNat_or_le (a b : Bool) : (a || b).toNat ≤ a.toNat + b.toNat := by
  cases a <;> simp

theorem Stmt.size_pos (stmt : Stmt S) : 0 < stmt.size := by
  cases stmt <;> simp [Stmt.size]

mutual

theorem Stmt.eliminateContinue_size : ∀ stmt : Stmt S,
    sizeBlock stmt.eliminateContinue.1.toList + stmt.eliminateContinue.2.toNat ≤ stmt.size
  | .plain _ => by simp [Stmt.eliminateContinue, sizeBlock, Stmt.size]
  | .continueStmt _ => by simp [Stmt.eliminateContinue, sizeBlock, Stmt.size]
  | .whileControl _ _ => by simp [Stmt.eliminateContinue, sizeBlock, Stmt.size]
  | .ifStmt s cond t f => by
    have ht := eliminateBranch_size t
    have hf := eliminateBranch_size f
    have hor := toNat_or_le (eliminateBranch t).2 (eliminateBranch f).2
    simp only [Stmt.eliminateContinue, Option.toList, sizeBlock, Stmt.size]
    omega
  | .whileStmt s body => by simp [Stmt.eliminateContinue, sizeBlock, Stmt.size]
  | .forStmt s body => by simp [Stmt.eliminateContinue, sizeBlock, Stmt.size]
  | .offloaded _ _ _ _ _ _ _ _ => by simp [Stmt.eliminateContinue, sizeBlock, Stmt.size]

theorem eliminateBack_size : ∀ block : List (Stmt S),
    sizeBlock (eliminateBack block).1 + (eliminateBack block).2.toNat ≤ sizeBlock block
  | [] => by simp [eliminateBack, sizeBlock]
  | stmt :: rest => by
    have hstmt := Stmt.eliminateContinue_size stmt
    have hrest := eliminateBack_size rest
    simp only [eliminateBack]
    split
    · simp only [sizeBlock]
      omega
    · simp only [sizeBlock]
      omega

theorem eliminateBranch_size : ∀ branch : Option (List (Stmt S)),
    sizeBranch (eliminateBranch branch).1 + (eliminateBranch branch).2.toNat ≤ sizeBranch branch
  | none => by simp [eliminateBranch, sizeBranch]
  | some block => by
    have hblock := eliminateBack_size block
    simpa only [eliminateBranch, sizeBranch] using hblock

end

variable (block : List (Stmt S))

theorem cutAfterContinue_size :
    sizeBlock (cutAfterContinue block).1 + (cutAfterContinue block).2.toNat ≤ sizeBlock block := by
  induction block with
  | nil => simp [cutAfterContinue, sizeBlock]
  | cons stmt rest ih =>
    simp only [cutAfterContinue]
    split
    · next h =>
        simp only [Bool.and_eq_true, Bool.not_eq_true', List.isEmpty_eq_false_iff] at h
        obtain ⟨next, rest, rfl⟩ := List.exists_cons_of_ne_nil h.2
        have hpos := next.size_pos
        simp only [sizeBlock, Bool.toNat_true]
        omega
    · simp only [sizeBlock]
      omega

theorem eliminateBack_le : sizeBlock (eliminateBack block).1 ≤ sizeBlock block :=
  Nat.le_trans (Nat.le_add_right _ _) (eliminateBack_size block)

theorem cutAfterContinue_le : sizeBlock (cutAfterContinue block).1 ≤ sizeBlock block :=
  Nat.le_trans (Nat.le_add_right _ _) (cutAfterContinue_size block)

mutual

/-- `UnreachableCodeEliminator` on a statement: what stands in its place, and whether something
changed. -/
def Stmt.sweep : Stmt S → List (Stmt S) × Bool
  | .ifStmt _ (.const val) t f => ((if val = 0 then f else t).getD [], true)
  | .ifStmt s (.stmt cond) t f =>
    let t := sweepBranch t
    let f := sweepBranch f
    ([.ifStmt s (.stmt cond) t.1 f.1], t.2 || f.2)
  | .whileStmt s body =>
    let body := sweepLoop body
    ([.whileStmt s body.1], body.2)
  | .forStmt s body =>
    let body := sweepLoop body
    ([.forStmt s body.1], body.2)
  | .offloaded s isLoop tlsPrologue meshPrologue blsPrologue body blsEpilogue tlsEpilogue =>
    let tlsPrologue := sweepBranch tlsPrologue
    let meshPrologue := sweepBranch meshPrologue
    let blsPrologue := sweepBranch blsPrologue
    let body := if isLoop then sweepTask body else sweepBranch body
    let blsEpilogue := sweepBranch blsEpilogue
    let tlsEpilogue := sweepBranch tlsEpilogue
    ([.offloaded s isLoop tlsPrologue.1 meshPrologue.1 blsPrologue.1 body.1 blsEpilogue.1
        tlsEpilogue.1],
      tlsPrologue.2 || meshPrologue.2 || blsPrologue.2 || body.2 || blsEpilogue.2 ||
        tlsEpilogue.2)
  | .plain s => ([.plain s], false)
  | .continueStmt s => ([.continueStmt s], false)
  | .whileControl s cond => ([.whileControl s cond], false)
termination_by stmt => (stmt.size, 0)
decreasing_by
  all_goals
    refine Prod.Lex.left _ _ ?_
    simp only [Stmt.size]
    omega

def sweepStmts : List (Stmt S) → List (Stmt S) × Bool
  | [] => ([], false)
  | stmt :: rest =>
    let first := stmt.sweep
    let rest := sweepStmts rest
    (first.1 ++ rest.1, first.2 || rest.2)
termination_by stmts => (sizeBlock stmts, 1)
decreasing_by
  · rw [Prod.lex_def, sizeBlock]
    omega
  · have hpos := stmt.size_pos
    rw [Prod.lex_def, sizeBlock]
    omega

def sweepBlock (block : List (Stmt S)) : List (Stmt S) × Bool :=
  let cut := cutAfterContinue block
  let stmts := sweepStmts cut.1
  (stmts.1, cut.2 || stmts.2)
termination_by (sizeBlock block, 2)
decreasing_by
  have hle := cutAfterContinue_le block
  rw [Prod.lex_def]
  omega

def sweepBranch : Option (List (Stmt S)) → Option (List (Stmt S)) × Bool
  | none => (none, false)
  | some block =>
    let block := sweepBlock block
    (some block.1, block.2)
termination_by branch => (sizeBranch branch, 3)
decreasing_by
  rw [Prod.lex_def, sizeBranch]
  omega

def sweepLoop (body : List (Stmt S)) : List (Stmt S) × Bool :=
  let back := eliminateBack body
  let swept := sweepBlock back.1
  (swept.1, back.2 || swept.2)
termination_by (sizeBlock body, 3)
decreasing_by
  have hle := eliminateBack_le body
  rw [Prod.lex_def]
  omega

def sweepTask : Option (List (Stmt S)) → Option (List (Stmt S)) × Bool
  | none => (none, false)
  | some body =>
    let body := sweepLoop body
    (some body.1, body.2)
termination_by body => (sizeBranch body, 4)
decreasing_by
  rw [Prod.lex_def, sizeBranch]
  omega

end

def rounds : ℕ → List (Stmt S) → Option (List (Stmt S))
  | 0, _ => none
  | fuel + 1, block =>
    let swept := sweepBlock block
    if swept.2 then rounds fuel swept.1 else some swept.1

def unreachableCodeElimination (block : List (Stmt S)) : Option (List (Stmt S)) :=
  rounds (sizeBlock block + 1) block

section Runs

/-- What plain statements do, when a condition holds, and what a loop goes over. -/
structure Machine (S ι σ : Type) where
  exec : S → σ → σ
  test : S → σ → Bool
  iterations : S → σ → List ι
  enter : S → ι → σ → σ

def quiet (full : Bool) (s : S) : List S :=
  if full then [s] else []

variable (m : Machine S ι σ) (full : Bool) (rounds : ℕ)

mutual

def Stmt.exec : Stmt S → σ → Outcome S σ
  | .plain s, state => ⟨[s], .normal, m.exec s state⟩
  | .continueStmt s, state => ⟨quiet full s, .continued, state⟩
  | .whileControl s cond, state => ⟨[s], if m.test cond state then .normal else .broke, state⟩
  | .ifStmt s (.const val) t f, state =>
    (if val = 0 then execBranch f state else execBranch t state).after (quiet full s)
  | .ifStmt s (.stmt cond) t f, state =>
    (if m.test cond state then execBranch t state else execBranch f state).after [s]
  | .whileStmt s body, state => (forever (fun state => execBlock body state) rounds state).after [s]
  | .forStmt s body, state =>
    (forEach (fun i state => execBlock body (m.enter s i state))
      (m.iterations s state) state).after [s]
  | .offloaded s isLoop tlsPrologue meshPrologue blsPrologue body blsEpilogue tlsEpilogue, state =>
    (andThen (fun state => execBranch tlsPrologue state)
      (andThen (fun state => execBranch meshPrologue state)
        (andThen (fun state => execBranch blsPrologue state) (andThen (fun state =>
              if isLoop then
                forEach (fun i state => execBranch body (m.enter s i state))
                  (m.iterations s state) state
              else execBranch body state)
            (andThen (fun state => execBranch blsEpilogue state)
              fun state => execBranch tlsEpilogue state)))) state).after [s]

def execBlock : List (Stmt S) → σ → Outcome S σ
  | [], state => skip state
  | stmt :: rest, state =>
    andThen (fun state => stmt.exec state) (fun state => execBlock rest state) state

def execBranch : Option (List (Stmt S)) → σ → Outcome S σ
  | none, state => skip state
  | some block, state => execBlock block state

end

end Runs

section Names

variable (full : Bool)

mutual

def Stmt.names : Stmt S → List S
  | .plain s => [s]
  | .continueStmt s => quiet full s
  | .whileControl s _ => [s]
  | .ifStmt s (.const _) t f => quiet full s ++ (branchNames t ++ branchNames f)
  | .ifStmt s (.stmt _) t f => s :: (branchNames t ++ branchNames f)
  | .whileStmt s body => s :: blockNames body
  | .forStmt s body => s :: blockNames body
  | .offloaded s _ tlsPrologue meshPrologue blsPrologue body blsEpilogue tlsEpilogue =>
    s :: (branchNames tlsPrologue ++ (branchNames meshPrologue ++ (branchNames blsPrologue ++
      (branchNames body ++ (branchNames blsEpilogue ++ branchNames tlsEpilogue)))))

def blockNames : List (Stmt S) → List S
  | [] => []
  | stmt :: rest => stmt.names ++ blockNames rest

def branchNames : Option (List (Stmt S)) → List S
  | none => []
  | some block => blockNames block

end

end Names

end Quadrants.Simplify.Unreachable
