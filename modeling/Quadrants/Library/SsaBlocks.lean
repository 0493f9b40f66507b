import Quadrants.Library.TracedLoops
import Mathlib.Logic.Function.Basic
import Mathlib.Tactic.Tauto

/-!
Programs of nested blocks in which every statement has a name and reads the values of others by
their names. What the statements do is up to a machine.
-/

namespace Quadrants.Library.SsaBlocks

open TracedLoops List

inductive Stmt (S K : Type) where
  | plain (name : S) (kind : K) (operands : List S)
  | loopIndex (name loop : S) (axis : ℕ)
  | ifStmt (name cond : S) (trueStatements falseStatements : List (Stmt S K))
  | loop (name : S) (kind : K) (operands : List S) (body : List (Stmt S K))

/-- A loop without iterations goes on until it is left. Its index has no meaning. -/
structure Machine (K V M : Type) where
  exec : K → List V → M → V × M × Signal
  test : V → Bool
  iterations : K → List V → M → Option (List V)
  noIndex : V
  index : V → ℕ → V

structure State (S V M : Type) where
  env : S → V
  mem : M

/-- A statement that was executed, with the values that it read and the value that it has. A loop
has none. -/
structure Event (S K V : Type) where
  name : S
  kind : Option K
  operands : List V
  value : Option V

variable {S K V M : Type}

namespace State

variable [DecidableEq S]

def set (s : State S V M) (name : S) (value : V) : State S V M :=
  { s with env := Function.update s.env name value }

variable (s : State S V M)

@[simp] theorem set_mem (name : S) (value : V) : (s.set name value).mem = s.mem :=
  rfl

theorem set_env_self (name : S) (value : V) : (s.set name value).env name = value :=
  Function.update_self _ _ _

theorem set_env_of_ne {name other : S} (h : other ≠ name) (value : V) :
    (s.set name value).env other = s.env other :=
  Function.update_of_ne h _ _

end State

section Runs

variable [DecidableEq S] (m : Machine K V M) (rounds : ℕ)

def execPlain (name : S) (kind : K) (operands : List S) (s : State S V M) :
    Outcome (Event S K V) (State S V M) :=
  let values := operands.map s.env
  let result := m.exec kind values s.mem
  ⟨[⟨name, some kind, values, some result.1⟩], result.2.2,
    ({ s with mem := result.2.1 } : State S V M).set name result.1⟩

mutual

def Stmt.exec : Stmt S K → State S V M → Outcome (Event S K V) (State S V M)
  | .plain name kind operands, s => execPlain m name kind operands s
  | .loopIndex name loop axis, s =>
    let value := m.index (s.env loop) axis
    ⟨[⟨name, none, [s.env loop], some value⟩], .normal, s.set name value⟩
  | .ifStmt name cond t f, s =>
    (if m.test (s.env cond) then execBlock t s else execBlock f s).after
      [⟨name, none, [s.env cond], none⟩]
  | .loop name kind operands body, s =>
    (match m.iterations kind (operands.map s.env) s.mem with
      | some indices => forEach (fun i s => execBlock body (s.set name i)) indices s
      | none => forever (fun s => execBlock body (s.set name m.noIndex)) rounds s).after
      [⟨name, some kind, operands.map s.env, none⟩]

def execBlock : List (Stmt S K) → State S V M → Outcome (Event S K V) (State S V M)
  | [], s => skip s
  | stmt :: rest, s => andThen (fun s => stmt.exec s) (fun s => execBlock rest s) s

end

end Runs

section Sequence

variable [DecidableEq S] {m : Machine K V M} {rounds : ℕ}

theorem execBlock_append (block rest : List (Stmt S K)) (s : State S V M) :
    execBlock m rounds (block ++ rest) s =
      andThen (execBlock m rounds block) (execBlock m rounds rest) s := by
  induction block generalizing s with
  | nil => simp [execBlock, andThen, skip, Outcome.after]
  | cons stmt block ih =>
    rw [cons_append, execBlock]
    have hcons : execBlock m rounds (stmt :: block) =
        andThen (fun s => stmt.exec m rounds s) (execBlock m rounds block) := by
      funext s
      rw [execBlock]
    have hrest : (fun s => execBlock m rounds (block ++ rest) s) =
        andThen (execBlock m rounds block) (execBlock m rounds rest) := funext ih
    rw [hcons, hrest, andThen_assoc]

theorem execBlock_singleton (stmt : Stmt S K) (s : State S V M) :
    execBlock m rounds [stmt] s = stmt.exec m rounds s := by
  rw [execBlock]
  have hnil : (fun s => execBlock m rounds ([] : List (Stmt S K)) s) = skip := by
    funext s
    rw [execBlock]
  rw [hnil, andThen_skip]

end Sequence

mutual

def Stmt.names : Stmt S K → List S
  | .plain name _ _ => [name]
  | .loopIndex name _ _ => [name]
  | .ifStmt _ _ t f => blockNames t ++ blockNames f
  | .loop name _ _ body => name :: blockNames body

def blockNames : List (Stmt S K) → List S
  | [] => []
  | stmt :: rest => stmt.names ++ blockNames rest

end

def Stmt.value : Stmt S K → List S
  | .plain name _ _ => [name]
  | .loopIndex name _ _ => [name]
  | .ifStmt _ _ _ _ => []
  | .loop _ _ _ _ => []

def directNames (block : List (Stmt S K)) : List S :=
  block.flatMap Stmt.value

mutual

/-- Every operand is defined before it is used, in the block or around it. -/
def Stmt.Scoped (values loops : List S) : Stmt S K → Prop
  | .plain _ _ operands => operands ⊆ values
  | .loopIndex _ loop _ => loop ∈ loops
  | .ifStmt _ cond t f => cond ∈ values ∧ BlockScoped values loops t ∧ BlockScoped values loops f
  | .loop name _ operands body => operands ⊆ values ∧ BlockScoped values (name :: loops) body

def BlockScoped (values loops : List S) : List (Stmt S K) → Prop
  | [] => True
  | stmt :: rest => stmt.Scoped values loops ∧ BlockScoped (stmt.value ++ values) loops rest

end

section Frame

variable [DecidableEq S] (m : Machine K V M) (rounds : ℕ) (env : S → V)

mutual

theorem Stmt.exec_frame : ∀ (stmt : Stmt S K) (names : List S), names.Disjoint stmt.names →
    ∀ s : State S V M, (∀ y ∈ names, s.env y = env y) →
      ∀ y ∈ names, (stmt.exec m rounds s).state.env y = env y
  | .plain name kind operands, names, hdisjoint, s, h, y, hy => by
    have hne : y ≠ name := fun heq => hdisjoint hy (heq ▸ mem_singleton_self _)
    rw [Stmt.exec, execPlain]
    exact (State.set_env_of_ne _ hne _).trans (h y hy)
  | .loopIndex name loop axis, names, hdisjoint, s, h, y, hy => by
    have hne : y ≠ name := fun heq => hdisjoint hy (heq ▸ mem_singleton_self _)
    rw [Stmt.exec]
    exact (State.set_env_of_ne _ hne _).trans (h y hy)
  | .ifStmt name cond t f, names, hdisjoint, s, h, y, hy => by
    rw [Stmt.names, disjoint_append_right] at hdisjoint
    rw [Stmt.exec, after_state]
    split
    · exact execBlock_frame t names hdisjoint.1 s h y hy
    · exact execBlock_frame f names hdisjoint.2 s h y hy
  | .loop name kind operands body, names, hdisjoint, s, h, y, hy => by
    rw [Stmt.names, disjoint_cons_right] at hdisjoint
    have hround := execBlock_frame body names hdisjoint.2
    rw [Stmt.exec, after_state]
    have hset (i : V) (s : State S V M) (hs : ∀ y ∈ names, s.env y = env y) :
        ∀ y ∈ names, (s.set name i).env y = env y := by
      intro y hy
      have hne : y ≠ name := fun heq => hdisjoint.1 (heq ▸ hy)
      exact (State.set_env_of_ne _ hne _).trans (hs y hy)
    split
    · exact forEach_keeps (I := fun s => ∀ y ∈ names, s.env y = env y)
        (fun i s hs => hround _ (hset i s hs)) _ s h y hy
    · exact (forever_keeps (I := fun s => ∀ y ∈ names, s.env y = env y) (P := fun _ => True)
        (fun s hs => ⟨hround _ (hset _ s hs), fun _ _ => trivial⟩) rounds s h).1 y hy

theorem execBlock_frame : ∀ (block : List (Stmt S K)) (names : List S),
    names.Disjoint (blockNames block) → ∀ s : State S V M, (∀ y ∈ names, s.env y = env y) →
      ∀ y ∈ names, (execBlock m rounds block s).state.env y = env y
  | [], _, _, _, h => by
    rw [execBlock]
    exact h
  | stmt :: rest, names, hdisjoint, s, h => by
    rw [blockNames, disjoint_append_right] at hdisjoint
    rw [execBlock]
    exact andThen_keeps (I := fun s => ∀ y ∈ names, s.env y = env y)
      (Stmt.exec_frame stmt names hdisjoint.1 s h)
      fun s hs => execBlock_frame rest names hdisjoint.2 s hs

end

end Frame

theorem blockNames_append (block rest : List (Stmt S K)) :
    blockNames (block ++ rest) = blockNames block ++ blockNames rest := by
  induction block with
  | nil => simp [blockNames]
  | cons stmt block ih => simp [blockNames, ih]

theorem directNames_cons (stmt : Stmt S K) (block : List (Stmt S K)) :
    directNames (stmt :: block) = stmt.value ++ directNames block :=
  flatMap_cons

theorem Stmt.value_sublist (stmt : Stmt S K) : List.Sublist stmt.value stmt.names := by
  cases stmt <;> simp [Stmt.value, Stmt.names]

theorem Stmt.value_subset (stmt : Stmt S K) : stmt.value ⊆ stmt.names :=
  stmt.value_sublist.subset

theorem directNames_sublist (block : List (Stmt S K)) :
    List.Sublist (directNames block) (blockNames block) := by
  induction block with
  | nil => simp [directNames]
  | cons stmt block ih =>
    exact stmt.value_sublist.append ih

theorem directNames_subset (block : List (Stmt S K)) : directNames block ⊆ blockNames block :=
  (directNames_sublist block).subset

mutual

theorem Stmt.Scoped.mono : ∀ {stmt : Stmt S K} {values values' loops loops' : List S},
    stmt.Scoped values loops → values ⊆ values' → loops ⊆ loops' → stmt.Scoped values' loops'
  | .plain _ _ operands, _, _, _, _, h, hvalues, _ => by
    exact List.Subset.trans h hvalues
  | .loopIndex _ _ _, _, _, _, _, h, _, hloops => by
    exact hloops h
  | .ifStmt _ _ t f, _, _, _, _, h, hvalues, hloops => by
    exact ⟨hvalues h.1, h.2.1.mono hvalues hloops, h.2.2.mono hvalues hloops⟩
  | .loop name _ _ body, _, _, _, _, h, hvalues, hloops => by
    exact ⟨List.Subset.trans h.1 hvalues, h.2.mono hvalues (cons_subset_cons name hloops)⟩

theorem BlockScoped.mono : ∀ {block : List (Stmt S K)} {values values' loops loops' : List S},
    BlockScoped values loops block → values ⊆ values' → loops ⊆ loops' →
      BlockScoped values' loops' block
  | [], _, _, _, _, _, _, _ => by
    trivial
  | stmt :: rest, _, _, _, _, h, hvalues, hloops => by
    refine ⟨h.1.mono hvalues hloops, h.2.mono ?_ hloops⟩
    intro x hx
    rcases mem_append.1 hx with hx | hx
    · exact mem_append_left _ hx
    · exact mem_append_right _ (hvalues hx)

end

theorem blockScoped_append {values loops : List S} (block rest : List (Stmt S K)) :
    BlockScoped values loops (block ++ rest) ↔
      BlockScoped values loops block ∧ BlockScoped (directNames block ++ values) loops rest := by
  induction block generalizing values with
  | nil => simp [BlockScoped, directNames]
  | cons stmt block ih =>
    have hscope : directNames block ++ (stmt.value ++ values) ⊆
        directNames (stmt :: block) ++ values := by
      intro x hx
      rw [directNames_cons]
      simp only [mem_append] at hx ⊢
      tauto
    have hscope' : directNames (stmt :: block) ++ values ⊆
        directNames block ++ (stmt.value ++ values) := by
      intro x hx
      rw [directNames_cons] at hx
      simp only [mem_append] at hx ⊢
      tauto
    rw [cons_append, BlockScoped, BlockScoped, ih, and_assoc]
    refine and_congr Iff.rfl (and_congr Iff.rfl ⟨fun h => ?_, fun h => ?_⟩)
    · exact h.mono hscope (List.Subset.refl _)
    · exact h.mono hscope' (List.Subset.refl _)

end Quadrants.Library.SsaBlocks
