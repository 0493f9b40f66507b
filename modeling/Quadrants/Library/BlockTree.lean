import Mathlib.Data.List.Infix
import Mathlib.Tactic.Common

/-!
Blocks of statements with ifs and loops. A block inside of another one is referred to by the way
that leads to it, and a visitor sees the statements and the loops in their order.
-/

namespace Quadrants.Library.BlockTree

open List

inductive Stmt (α : Type)
  | leaf (a : α)
  | ifStmt (trueStatements falseStatements : List (Stmt α))
  | loop (body : List (Stmt α))

inductive Branch
  | trueStatements
  | falseStatements
  | body
deriving DecidableEq, Repr

structure Step where
  index : ℕ
  branch : Branch
deriving DecidableEq, Repr

abbrev Path := List Step

variable {α : Type}

def Stmt.part : Stmt α → Branch → Option (List (Stmt α))
  | .ifStmt trueStatements _, .trueStatements => some trueStatements
  | .ifStmt _ falseStatements, .falseStatements => some falseStatements
  | .loop body, .body => some body
  | _, _ => none

def child (block : List (Stmt α)) (step : Step) : Option (List (Stmt α)) :=
  block[step.index]?.bind fun s => s.part step.branch

def blockAt (block : List (Stmt α)) : Path → Option (List (Stmt α))
  | [] => some block
  | step :: rest =>
    match child block step with
    | some inner => blockAt inner rest
    | none => none

def LeafAt (block : List (Stmt α)) (loc : Path) (a : α) : Prop :=
  ∃ inner, blockAt block loc = some inner ∧ .leaf a ∈ inner

def IsBody (p : Path) : Prop :=
  ∃ q index, p = q ++ [⟨index, .body⟩]

def loopDepth (p : Path) : ℕ :=
  p.countP fun step => step.branch = .body

inductive Event (α : Type)
  | leaf (loc : Path) (a : α)
  | enterLoop (body : Path)
  | leaveLoop

mutual

def Stmt.visit (path : Path) (index : ℕ) : Stmt α → List (Event α)
  | .leaf a => [.leaf path a]
  | .ifStmt trueStatements falseStatements =>
    visitFrom (path ++ [⟨index, .trueStatements⟩]) 0 trueStatements ++
      visitFrom (path ++ [⟨index, .falseStatements⟩]) 0 falseStatements
  | .loop body =>
    .enterLoop (path ++ [⟨index, .body⟩]) ::
      (visitFrom (path ++ [⟨index, .body⟩]) 0 body ++ [.leaveLoop])

def visitFrom (path : Path) (index : ℕ) : List (Stmt α) → List (Event α)
  | [] => []
  | s :: rest => s.visit path index ++ visitFrom path (index + 1) rest

end

section Blocks

variable {block inner : List (Stmt α)}

theorem part_sizeOf {s : Stmt α} {branch : Branch} (h : s.part branch = some inner) :
    sizeOf inner < sizeOf s := by
  cases s <;> cases branch <;> simp [Stmt.part] at h <;> subst h <;> simp <;> omega

variable {a : α} {p q : Path} {step : Step}

theorem child_sizeOf (h : child block step = some inner) : sizeOf inner < sizeOf block := by
  obtain ⟨s, hs, hpart⟩ := Option.bind_eq_some_iff.1 h
  exact (part_sizeOf hpart).trans (sizeOf_lt_of_mem (mem_of_getElem? hs))

theorem block_induction {motive : List (Stmt α) → Prop}
    (h : ∀ block, (∀ step inner, child block step = some inner → motive inner) → motive block)
    (block : List (Stmt α)) : motive block :=
  h block fun _ inner hchild =>
    have := child_sizeOf hchild
    block_induction h inner
termination_by sizeOf block

theorem blockAt_cons (block : List (Stmt α)) (step : Step) (rest : Path) :
    blockAt block (step :: rest) = (child block step).bind fun inner => blockAt inner rest := by
  rw [blockAt]
  cases child block step <;> rfl

theorem blockAt_append (block : List (Stmt α)) (p q : Path) :
    blockAt block (p ++ q) = (blockAt block p).bind fun inner => blockAt inner q := by
  induction p generalizing block with
  | nil => rfl
  | cons step rest ih =>
    rw [cons_append, blockAt_cons, blockAt_cons, Option.bind_assoc]
    exact congrArg _ (funext ih)

theorem leafAt_append (h : blockAt block p = some inner) :
    LeafAt block (p ++ q) a ↔ LeafAt inner q a := by
  rw [LeafAt, blockAt_append, h]
  rfl

theorem leafAt_nil : LeafAt block [] a ↔ .leaf a ∈ block := by
  constructor
  · rintro ⟨inner, hinner, h⟩
    obtain rfl := Option.some.inj hinner
    exact h
  · exact fun h => ⟨block, rfl, h⟩

theorem leafAt_cons {rest : Path} : LeafAt block (step :: rest) a ↔
      ∃ inner, child block step = some inner ∧ LeafAt inner rest a := by
  simp only [LeafAt, blockAt_cons, Option.bind_eq_some_iff]
  constructor
  · rintro ⟨b, ⟨inner, hchild, hat⟩, ha⟩
    exact ⟨inner, hchild, b, hat, ha⟩
  · rintro ⟨inner, hchild, b, hat, ha⟩
    exact ⟨b, ⟨inner, hchild, hat⟩, ha⟩

theorem exists_blockAt_of_prefix (hpq : p <+: q) (h : blockAt block q = some inner) :
    ∃ outer, blockAt block p = some outer := by
  obtain ⟨rest, rfl⟩ := hpq
  rw [blockAt_append] at h
  obtain ⟨outer, houter, -⟩ := Option.bind_eq_some_iff.1 h
  exact ⟨outer, houter⟩

theorem LeafAt.exists_block {loc : Path} (h : LeafAt block loc a) (hp : p <+: loc) :
    ∃ inner rest, blockAt block p = some inner ∧ loc = p ++ rest ∧ LeafAt inner rest a := by
  obtain ⟨rest, rfl⟩ := hp
  obtain ⟨inner, hinner⟩ := exists_blockAt_of_prefix (prefix_append p rest) h.choose_spec.1
  exact ⟨inner, rest, hinner, rfl, (leafAt_append hinner).1 h⟩

end Blocks

variable {p : Path}

theorem isBody_append_singleton {step : Step} : IsBody (p ++ [step]) ↔ step.branch = .body := by
  constructor
  · rintro ⟨q, index, heq⟩
    obtain ⟨-, hstep⟩ := append_inj' heq rfl
    rw [(List.cons.inj hstep).1]
  · intro h
    exact ⟨p, step.index, by rw [← h]⟩

theorem not_isBody_nil : ¬ IsBody [] := by
  rintro ⟨q, index, h⟩
  exact absurd h.symm (by simp)

theorem loopDepth_append (p q : Path) : loopDepth (p ++ q) = loopDepth p + loopDepth q :=
  countP_append

theorem loopDepth_singleton (step : Step) :
    loopDepth [step] = if step.branch = .body then 1 else 0 := by
  rw [loopDepth]
  simp

theorem IsBody.loopDepth_pos (h : IsBody p) : 0 < loopDepth p := by
  obtain ⟨q, index, rfl⟩ := h
  rw [loopDepth_append, loopDepth_singleton, if_pos rfl]
  omega

theorem exists_innermost (h : 0 < loopDepth p) :
    ∃ q rest, p = q ++ rest ∧ IsBody q ∧ loopDepth rest = 0 := by
  induction p using List.reverseRecOn with
  | nil => exact absurd h (Nat.lt_irrefl 0)
  | append_singleton p step ih =>
    by_cases hbody : step.branch = .body
    · exact ⟨p ++ [step], [], (append_nil _).symm, isBody_append_singleton.2 hbody, rfl⟩
    · rw [loopDepth_append, loopDepth_singleton, if_neg hbody] at h
      obtain ⟨q, rest, rfl, hq, hrest⟩ := ih h
      refine ⟨q, rest ++ [step], append_assoc .., hq, ?_⟩
      rw [loopDepth_append, hrest, loopDepth_singleton, if_neg hbody]

theorem prefix_or_prefix {q r : Path} (hp : p <+: r) (hq : q <+: r) : p <+: q ∨ q <+: p :=
  prefix_or_prefix_of_prefix hp hq

section Visits

variable {path : Path} {block : List (Stmt α)}

variable {e : Event α}

theorem mem_visitFrom {index : ℕ} : e ∈ visitFrom path index block ↔
      ∃ (i : ℕ) (s : Stmt α), block[i]? = some s ∧ e ∈ s.visit path (index + i) := by
  induction block generalizing index with
  | nil => simp [visitFrom]
  | cons s rest ih =>
    rw [visitFrom, mem_append, ih]
    constructor
    · rintro (h | ⟨i, t, ht, h⟩)
      · exact ⟨0, s, rfl, h⟩
      · exact ⟨i + 1, t, ht, by rwa [← Nat.add_assoc, Nat.add_right_comm]⟩
    · rintro ⟨i, t, ht, h⟩
      cases i with
      | zero =>
        exact Or.inl (Option.some.inj ht ▸ h)
      | succ i => exact Or.inr ⟨i, t, ht, by rwa [Nat.add_right_comm, Nat.add_assoc]⟩

theorem visitFrom_append (path : Path) (index : ℕ) (block rest : List (Stmt α)) :
    visitFrom path index (block ++ rest) =
      visitFrom path index block ++ visitFrom path (index + block.length) rest := by
  induction block generalizing index with
  | nil => rfl
  | cons s block ih =>
    rw [cons_append, visitFrom, visitFrom, ih, append_assoc, length_cons,
      Nat.add_right_comm, Nat.add_assoc index]

theorem mem_visit_iff : e ∈ visitFrom path 0 block ↔ (∃ a, .leaf a ∈ block ∧ e = .leaf path a) ∨
        ∃ step inner, child block step = some inner ∧
          (e ∈ visitFrom (path ++ [step]) 0 inner ∨
            step.branch = .body ∧ (e = .enterLoop (path ++ [step]) ∨ e = .leaveLoop)) := by
  rw [mem_visitFrom]
  simp only [Nat.zero_add]
  constructor
  · rintro ⟨i, s, hs, h⟩
    have hpart : ∀ branch inner, s.part branch = some inner →
        child block ⟨i, branch⟩ = some inner := by
      intro branch inner hinner
      simp [child, hs, hinner]
    cases s with
    | leaf a =>
      rw [Stmt.visit, mem_singleton] at h
      exact Or.inl ⟨a, mem_of_getElem? hs, h⟩
    | ifStmt trueStatements falseStatements =>
      rw [Stmt.visit, mem_append] at h
      rcases h with h | h
      · exact Or.inr ⟨⟨i, .trueStatements⟩, _, hpart _ _ rfl, Or.inl h⟩
      · exact Or.inr ⟨⟨i, .falseStatements⟩, _, hpart _ _ rfl, Or.inl h⟩
    | loop body =>
      rw [Stmt.visit, mem_cons, mem_append, mem_singleton] at h
      refine Or.inr ⟨⟨i, .body⟩, body, hpart _ _ rfl, ?_⟩
      rcases h with h | h | h
      · exact Or.inr ⟨rfl, Or.inl h⟩
      · exact Or.inl h
      · exact Or.inr ⟨rfl, Or.inr h⟩
  · rintro (⟨a, ha, rfl⟩ | ⟨⟨i, branch⟩, inner, hchild, h⟩)
    · obtain ⟨i, hi⟩ := mem_iff_getElem?.1 ha
      exact ⟨i, _, hi, by rw [Stmt.visit]; exact mem_singleton_self _⟩
    · obtain ⟨s, hs, hpart⟩ := Option.bind_eq_some_iff.1 hchild
      refine ⟨i, s, hs, ?_⟩
      cases s with
      | leaf a => cases branch <;> exact absurd hpart nofun
      | ifStmt trueStatements falseStatements =>
        rw [Stmt.visit, mem_append]
        cases branch with
        | trueStatements =>
          obtain rfl := Option.some.inj hpart
          exact Or.inl (h.resolve_right fun h => absurd h.1 nofun)
        | falseStatements =>
          obtain rfl := Option.some.inj hpart
          exact Or.inr (h.resolve_right fun h => absurd h.1 nofun)
        | body => exact absurd hpart nofun
      | loop body =>
        rw [Stmt.visit, mem_cons, mem_append, mem_singleton]
        cases branch with
        | body =>
          obtain rfl := Option.some.inj hpart
          rcases h with h | ⟨-, h | h⟩
          · exact Or.inr (Or.inl h)
          · exact Or.inl h
          · exact Or.inr (Or.inr h)
        | trueStatements => exact absurd hpart nofun
        | falseStatements => exact absurd hpart nofun

theorem leaf_mem_visit {loc : Path} {a : α} :
    .leaf loc a ∈ visitFrom path 0 block ↔ ∃ rest, loc = path ++ rest ∧ LeafAt block rest a := by
  induction block using block_induction generalizing path with
  | h block ih =>
    rw [mem_visit_iff]
    constructor
    · rintro (⟨b, hb, heq⟩ | ⟨step, inner, hchild, h | ⟨-, h | h⟩⟩)
      · obtain ⟨rfl, rfl⟩ := Event.leaf.inj heq
        exact ⟨[], (append_nil _).symm, leafAt_nil.2 hb⟩
      · obtain ⟨rest, rfl, hat⟩ := (ih step inner hchild).1 h
        exact ⟨step :: rest, append_assoc .., leafAt_cons.2 ⟨inner, hchild, hat⟩⟩
      · exact absurd h nofun
      · exact absurd h nofun
    · rintro ⟨rest, rfl, hat⟩
      cases rest with
      | nil => exact Or.inl ⟨a, leafAt_nil.1 hat, by rw [append_nil]⟩
      | cons step rest =>
        obtain ⟨inner, hchild, hat⟩ := leafAt_cons.1 hat
        refine Or.inr ⟨step, inner, hchild, Or.inl ((ih step inner hchild).2 ?_)⟩
        exact ⟨rest, append_cons .., hat⟩

theorem enterLoop_mem_visit {p : Path} : .enterLoop p ∈ visitFrom path 0 block ↔
      ∃ rest inner, p = path ++ rest ∧ IsBody rest ∧ blockAt block rest = some inner := by
  induction block using block_induction generalizing path with
  | h block ih =>
    rw [mem_visit_iff]
    constructor
    · rintro (⟨b, hb, heq⟩ | ⟨step, inner, hchild, h | ⟨hbody, h | h⟩⟩)
      · exact absurd heq nofun
      · obtain ⟨rest, found, rfl, ⟨q, index, rfl⟩, hat⟩ := (ih step inner hchild).1 h
        refine ⟨step :: (q ++ [⟨index, .body⟩]), found, append_assoc .., ?_, ?_⟩
        · exact ⟨step :: q, index, rfl⟩
        · rw [blockAt_cons, hchild]
          exact hat
      · obtain rfl := Event.enterLoop.inj h
        refine ⟨[step], inner, rfl, isBody_append_singleton (p := []).2 hbody, ?_⟩
        rw [blockAt_cons, hchild]
        rfl
      · exact absurd h nofun
    · rintro ⟨rest, found, rfl, hbody, hat⟩
      cases rest with
      | nil => exact absurd hbody not_isBody_nil
      | cons step rest =>
        rw [blockAt_cons] at hat
        obtain ⟨inner, hchild, hat⟩ := Option.bind_eq_some_iff.1 hat
        refine Or.inr ⟨step, inner, hchild, ?_⟩
        rcases eq_nil_or_concat' rest with rfl | ⟨q, last, rfl⟩
        · exact Or.inr ⟨isBody_append_singleton (p := []).1 hbody, Or.inl rfl⟩
        · refine Or.inl ((ih step inner hchild).2 ?_)
          rw [← cons_append, isBody_append_singleton] at hbody
          exact ⟨q ++ [last], found, append_cons .., isBody_append_singleton.2 hbody, hat⟩

end Visits

end Quadrants.Library.BlockTree
