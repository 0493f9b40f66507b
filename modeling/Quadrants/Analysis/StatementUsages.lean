import Mathlib.Data.List.Induction
import Mathlib.Data.Nat.Notation
import Mathlib.Logic.Function.Basic

/-!
`ImmediateIRModifier` with its usage table, and `StatementUsageReplace`, which walks over the whole
tree.
-/

namespace Quadrants.Analysis.StatementUsages

open List

/-- Both visitors come to a statement before its blocks. A struct-for, a mesh-for and a task have
no operands. -/
inductive Stmt (I : Type) where
  | node (name : I) (blocks : List (List (Stmt I)))
  | task (blocks : List (List (Stmt I)))

variable {I : Type}

mutual

def Stmt.visited : Stmt I → List I
  | .node name blocks => name :: blocksVisited blocks
  | .task blocks => blocksVisited blocks

def blocksVisited : List (List (Stmt I)) → List I
  | [] => []
  | block :: rest => blockVisited block ++ blocksVisited rest

def blockVisited : List (Stmt I) → List I
  | [] => []
  | stmt :: rest => stmt.visited ++ blockVisited rest

end

abbrev Operands (I : Type) : Type :=
  I → List (Option I)

structure Call (I : Type) where
  oldStmt : I
  newStmt : I

variable [DecidableEq I]

def setOperand (newStmt : I) (operands : Operands I) (usage : I × ℕ) : Operands I :=
  Function.update operands usage.1 ((operands usage.1).set usage.2 (some newStmt))

variable (root : List (Stmt I)) (operands : Operands I)

def gatherStatementUsages (oldStmt : I) : List (I × ℕ) :=
  (blockVisited root).flatMap fun stmt =>
    ((operands stmt).zipIdx.filter fun op => op.1 = some oldStmt).map fun op => (stmt, op.2)

def replaceUsagesWith (stmtUsages : I → List (I × ℕ)) (operands : Operands I) (call : Call I) :
    Operands I :=
  (stmtUsages call.oldStmt).foldl (setOperand call.newStmt) operands

def replaceOperandWith (call : Call I) (operands : Operands I) (stmt : I) : Operands I :=
  Function.update operands stmt
    ((operands stmt).map fun op => if op = some call.oldStmt then some call.newStmt else op)

def statementUsageReplace (operands : Operands I) (call : Call I) : Operands I :=
  (blockVisited root).foldl (replaceOperandWith call) operands

/-- The calls on one modifier. -/
def indexed (calls : List (Call I)) : Operands I :=
  calls.foldl (replaceUsagesWith (gatherStatementUsages root operands)) operands

def fresh (calls : List (Call I)) : Operands I :=
  calls.foldl (statementUsageReplace root) operands

def Agree (calls : List (Call I)) : Prop :=
  ∀ stmt ∈ blockVisited root, indexed root operands calls stmt = fresh root operands calls stmt

/-- What stands where `x` stood when the modifier was built. -/
def replacement (calls : List (Call I)) (x : I) : I :=
  calls.foldl (fun last call => if x = call.oldStmt then call.newStmt else last) x

/-- The old statement of the call stands where it stood when the modifier was built and nowhere
else, except where the call changes nothing. -/
def InTable (calls : List (Call I)) (call : Call I) : Prop :=
  ∀ stmt ∈ blockVisited root, ∀ x, some x ∈ operands stmt →
    (x = call.oldStmt →
      replacement calls x = call.oldStmt ∨ replacement calls x = call.newStmt) ∧
    (replacement calls x = call.oldStmt → x = call.oldStmt ∨ call.newStmt = call.oldStmt)

variable {root operands}

theorem mem_gatherStatementUsages {oldStmt stmt : I} {i : ℕ} :
    (stmt, i) ∈ gatherStatementUsages root operands oldStmt ↔
      stmt ∈ blockVisited root ∧ (operands stmt)[i]? = some (some oldStmt) := by
  simp only [gatherStatementUsages, mem_flatMap, mem_map, mem_filter, Prod.exists, Prod.mk.injEq,
    decide_eq_true_eq, mem_zipIdx_iff_getElem?]
  constructor
  · rintro ⟨s, hs, op, j, ⟨hget, rfl⟩, rfl, rfl⟩
    exact ⟨hs, hget⟩
  · rintro ⟨hs, hget⟩
    exact ⟨stmt, hs, _, i, ⟨hget, rfl⟩, rfl, rfl⟩

theorem foldl_setOperand (newStmt stmt : I) (i : ℕ) (usages : List (I × ℕ)) (ops : Operands I) :
    (usages.foldl (setOperand newStmt) ops stmt)[i]? =
      if (stmt, i) ∈ usages then (ops stmt)[i]?.map fun _ => some newStmt else (ops stmt)[i]? := by
  induction usages generalizing ops with
  | nil => simp
  | cons usage usages ih =>
    obtain ⟨s, j⟩ := usage
    rw [foldl_cons, ih, setOperand]
    by_cases hs : stmt = s
    · subst hs
      rw [Function.update_self, getElem?_set]
      by_cases hj : j = i
      · subst hj
        rcases Nat.lt_or_ge j (ops stmt).length with hlt | hge
        · simp [hlt]
        · simp [hge]
      · simp [hj, Ne.symm hj]
    · simp [hs]

theorem replaceUsagesWith_eq {stmt : I} (hstmt : stmt ∈ blockVisited root) {ops : Operands I}
    {f : I → I} (h : ops stmt = (operands stmt).map (Option.map f)) (call : Call I) :
    replaceUsagesWith (gatherStatementUsages root operands) ops call stmt =
      (operands stmt).map (Option.map fun x => if x = call.oldStmt then call.newStmt else f x) := by
  apply List.ext_getElem?
  intro i
  rw [replaceUsagesWith, foldl_setOperand, h, getElem?_map, getElem?_map]
  simp only [mem_gatherStatementUsages, hstmt, true_and]
  rcases (operands stmt)[i]? with _ | _ | x
  · simp
  · simp
  · by_cases hx : x = call.oldStmt <;> simp [hx]

theorem foldl_replaceOperandWith (call : Call I) (stmt : I) (stmts : List I) (ops : Operands I) :
    stmts.foldl (replaceOperandWith call) ops stmt =
      if stmt ∈ stmts then
        (ops stmt).map (Option.map fun x => if x = call.oldStmt then call.newStmt else x)
      else ops stmt := by
  induction stmts generalizing ops with
  | nil => simp
  | cons s stmts ih =>
    have hmap : (fun op => if op = some call.oldStmt then some call.newStmt else op) =
        Option.map fun x => if x = call.oldStmt then call.newStmt else x := by
      funext op
      cases op with
      | none => simp
      | some x => by_cases hx : x = call.oldStmt <;> simp [hx]
    rw [foldl_cons, ih, replaceOperandWith, hmap]
    by_cases hs : stmt = s
    · subst hs
      rw [Function.update_self]
      by_cases hmem : stmt ∈ stmts
      · simp only [hmem, mem_cons, or_true, if_true, map_map, Option.map_comp_map]
        congr 2
        funext x
        by_cases hx : x = call.oldStmt <;> simp [hx]
      · simp [hmem]
    · simp [hs]

theorem indexed_eq {stmt : I} (hstmt : stmt ∈ blockVisited root) (calls : List (Call I)) :
    indexed root operands calls stmt = (operands stmt).map (Option.map (replacement calls)) := by
  induction calls using reverseRecOn with
  | nil =>
    have hid : Option.map (replacement ([] : List (Call I))) = id := Option.map_id
    rw [hid, map_id]
    rfl
  | append_singleton calls call ih =>
    rw [indexed, foldl_append, foldl_cons, foldl_nil, ← indexed, replaceUsagesWith_eq hstmt ih]
    congr 2
    funext x
    rw [replacement, replacement, foldl_append, foldl_cons, foldl_nil]

theorem agree_concat_iff {calls : List (Call I)} {call : Call I}
    (h : Agree root operands calls) :
    Agree root operands (calls ++ [call]) ↔ InTable root operands calls call := by
  refine forall₂_congr fun stmt hstmt => ?_
  have hcalls := h stmt hstmt
  rw [indexed_eq hstmt] at hcalls
  rw [indexed_eq hstmt, fresh, foldl_append, foldl_cons, foldl_nil,
    statementUsageReplace, foldl_replaceOperandWith,
    if_pos hstmt, ← fresh, ← hcalls, map_map, map_inj_left]
  simp only [Option.forall, Function.comp_apply, Option.map_none, Option.map_some, implies_true,
    true_and, Option.some.injEq]
  refine forall₂_congr fun x _ => ?_
  rw [replacement, foldl_append, foldl_cons, foldl_nil, ← replacement]
  by_cases hx : x = call.oldStmt
  · subst hx
    by_cases hr : replacement calls call.oldStmt = call.oldStmt
    · simp [hr]
    · simp [hr, eq_comm]
  · by_cases hr : replacement calls x = call.oldStmt
    · simp [hx, hr, eq_comm]
    · simp [hx, hr]

/-- After each of the calls the operands are those that whole-tree replacements leave, if and only
if every call finds its usages in the table. -/
theorem agree_iff_inTable (root : List (Stmt I)) (operands : Operands I) (calls : List (Call I)) :
    (∀ before, before <+: calls → Agree root operands before) ↔
      ∀ before call, before ++ [call] <+: calls → InTable root operands before call := by
  induction calls using reverseRecOn with
  | nil =>
    have hnil : Agree root operands [] := fun _ _ => rfl
    simp [hnil]
  | append_singleton calls call ih =>
    constructor
    · intro h before last hprefix
      rw [← agree_concat_iff (h before ((prefix_append before [last]).trans hprefix))]
      exact h _ hprefix
    · intro h before hprefix
      have hcalls := ih.2 fun before last hlast =>
        h before last (hlast.trans (prefix_append calls [call]))
      rcases prefix_concat_iff.1 hprefix with rfl | hbefore
      · exact (agree_concat_iff (hcalls calls prefix_rfl)).2 (h calls call prefix_rfl)
      · exact hcalls before hbefore

theorem replacement_cases (calls : List (Call I)) (x : I) :
    replacement calls x = x ∨ ∃ c ∈ calls, x = c.oldStmt ∧ replacement calls x = c.newStmt := by
  induction calls using reverseRecOn with
  | nil => exact .inl rfl
  | append_singleton calls call ih =>
    rw [replacement, foldl_append, foldl_cons, foldl_nil, ← replacement]
    split
    · next hx => exact .inr ⟨call, mem_append_right _ (mem_singleton_self call), hx, rfl⟩
    · exact ih.imp_right fun ⟨c, hc, hcall⟩ => ⟨c, mem_append_left _ hc, hcall⟩

/-- Calls that replace nothing a call put in, and no statement by two, agree with the whole-tree
replacements. -/
theorem agree_of_noChain {calls : List (Call I)} (h : ∀ c ∈ calls, ∀ c' ∈ calls,
    c.newStmt ≠ c'.oldStmt ∧ (c.oldStmt = c'.oldStmt → c.newStmt = c'.newStmt)) :
    Agree root operands calls := by
  induction calls using reverseRecOn with
  | nil => exact fun _ _ => rfl
  | append_singleton calls call ih =>
    have hmem : ∀ c ∈ calls, c ∈ calls ++ [call] := fun c hc => mem_append_left _ hc
    refine (agree_concat_iff (ih fun c hc c' hc' => h c (hmem c hc) c' (hmem c' hc'))).2
      fun stmt _ x _ => ?_
    rcases replacement_cases calls x with hx | ⟨c, hc, hold, hx⟩ <;> rw [hx]
    · exact ⟨.inl, .inl⟩
    · have hcall := h c (hmem c hc) call (mem_append_right _ (mem_singleton_self call))
      exact ⟨fun heq => .inr (hcall.2 (hold.symm.trans heq)), fun heq => absurd heq hcall.1⟩

theorem agree_of_noChain_two : Agree [.node 'x' []] (fun _ => [some 'a', some 'b'])
    [⟨'a', 'c'⟩, ⟨'b', 'd'⟩] :=
  agree_of_noChain (by decide)

/-- The table does not know that `b` has come to stand in the place of `a`. -/
theorem not_agree_chain : ¬∀ (root : List (Stmt Char)) (operands : Operands Char)
    (calls : List (Call Char)), Agree root operands calls := by
  intro h
  have hagree := h [.node 'x' []] (fun _ => [some 'a']) [⟨'a', 'b'⟩, ⟨'b', 'c'⟩] 'x' (by decide)
  revert hagree
  decide

end Quadrants.Analysis.StatementUsages
