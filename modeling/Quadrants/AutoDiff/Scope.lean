import Quadrants.AutoDiff.Ir

/-!
Scoping of the kernel IR: which names a body declares, which are in scope where,
and the typing that the frontend and the type checker establish.
-/

namespace Quadrants.AutoDiff.Ir

open List

variable {R : Type}

def Stmt.isSimple : Stmt R → Bool
  | .ifStmt .. => false
  | .rangeFor .. => false
  | _ => true

section Induction

variable {P : Stmt R → Prop} {Q : Block R → Prop}

mutual

theorem Stmt.rule (simple : ∀ s : Stmt R, s.isSimple → P s)
    (ifStmt : ∀ cond t f, Q t → Q f → P (.ifStmt cond t f))
    (rangeFor : ∀ index begin' end' body, Q body → P (.rangeFor index begin' end' body))
    (nil : Q .nil) (cons : ∀ s rest, P s → Q rest → Q (.cons s rest)) (s : Stmt R) : P s := by
  cases s with
  | ifStmt cond t f =>
    exact ifStmt cond t f (Block.rule simple ifStmt rangeFor nil cons t)
      (Block.rule simple ifStmt rangeFor nil cons f)
  | rangeFor index begin' end' body =>
    exact rangeFor index begin' end' body (Block.rule simple ifStmt rangeFor nil cons body)
  | _ => exact simple _ rfl

theorem Block.rule (simple : ∀ s : Stmt R, s.isSimple → P s)
    (ifStmt : ∀ cond t f, Q t → Q f → P (.ifStmt cond t f))
    (rangeFor : ∀ index begin' end' body, Q body → P (.rangeFor index begin' end' body))
    (nil : Q .nil) (cons : ∀ s rest, P s → Q rest → Q (.cons s rest)) (b : Block R) : Q b := by
  cases b with
  | nil => exact nil
  | cons s rest =>
    exact cons s rest (Stmt.rule simple ifStmt rangeFor nil cons s)
      (Block.rule simple ifStmt rangeFor nil cons rest)

end

end Induction

def Stmt.value? : Stmt R → Option Ref
  | .constReal x _ | .constInt x _ | .neg x _ | .castValue x _ | .logicNot x _
  | .binary x _ _ _ | .compare x _ _ _ | .intBinary x _ _ _ | .select x _ _ _
  | .localLoad x _ | .globalLoad x _ | .atomicAdd x _ _ => some x
  | _ => none

def Stmt.var? : Stmt R → Option Ref
  | .alloca x => some x
  | _ => none

def Stmt.own (s : Stmt R) : List Nat := (s.value?.toList ++ s.var?.toList).map Ref.name

mutual

def Stmt.defs : Stmt R → List Nat
  | .ifStmt _ t f => t.defs ++ f.defs
  | .rangeFor index _ _ body => index.name :: body.defs
  | s => s.own

def Block.defs : Block R → List Nat
  | .nil => []
  | .cons s rest => s.defs ++ rest.defs

end

mutual

def Stmt.frameDefs : Stmt R → List Nat
  | .ifStmt _ t f => t.frameDefs ++ f.frameDefs
  | .rangeFor .. => []
  | s => s.defs

def Block.frameDefs : Block R → List Nat
  | .nil => []
  | .cons s rest => s.frameDefs ++ rest.frameDefs

end

mutual

def Stmt.loopDefs : Stmt R → List Nat
  | .ifStmt _ t f => t.loopDefs ++ f.loopDefs
  | .rangeFor index _ _ body => index.name :: body.defs
  | _ => []

def Block.loopDefs : Block R → List Nat
  | .nil => []
  | .cons s rest => s.loopDefs ++ rest.loopDefs

end

structure Scope where
  values : List Ref
  vars : List Ref

def Scope.names (sc : Scope) : List Nat := (sc.values ++ sc.vars).map Ref.name

def Scope.addValue (sc : Scope) (x : Ref) : Scope := { sc with values := x :: sc.values }

def Scope.extend (sc : Scope) (s : Stmt R) : Scope :=
  ⟨s.value?.toList ++ sc.values, s.var?.toList ++ sc.vars⟩

def Scope.has (sc : Scope) (a : Ref) (ty : Ty) : Prop := a ∈ sc.values ∧ a.ty = ty

def Scope.hasPtr (sc : Scope) (ptr : GlobalPtr) : Prop :=
  ptr.isDual = false ∧ ∀ r ∈ ptr.indices, sc.has r .int

mutual

def Stmt.WellScoped (sc : Scope) : Stmt R → Prop
  | .constReal x _ => x.ty = .real ∧ x.isConst = true
  | .constInt x _ => x.ty = .int
  | .neg x a => sc.has a x.ty ∧ x.isConst = false
  | .castValue x a => a ∈ sc.values ∧ x.ty = .real ∧ x.isConst = false
  | .logicNot x a => sc.has a .int ∧ x.ty = .int
  | .binary x _ a b => sc.has a x.ty ∧ sc.has b x.ty ∧ x.isConst = false
  | .compare x _ a b => a ∈ sc.values ∧ sc.has b a.ty ∧ x.ty = .int
  | .intBinary x _ a b => sc.has a .int ∧ sc.has b .int ∧ x.ty = .int
  | .select x c a b => sc.has c .int ∧ sc.has a x.ty ∧ sc.has b x.ty ∧ x.isConst = false
  | .alloca x => x.isConst = false
  | .localLoad x src => src ∈ sc.vars ∧ src.ty = x.ty ∧ x.isConst = false
  | .localStore dest val => dest ∈ sc.vars ∧ sc.has val dest.ty
  | .globalLoad x src => sc.hasPtr src ∧ x.ty = src.ty ∧ x.isConst = false
  | .globalStore dest val => sc.hasPtr dest ∧ sc.has val dest.ty
  | .atomicAdd x dest val => sc.hasPtr dest ∧ sc.has val dest.ty ∧ x.ty = dest.ty ∧ x.isConst = false
  | .ifStmt cond t f => sc.has cond .int ∧ t.WellScoped sc ∧ f.WellScoped sc
  | .rangeFor index begin' end' body =>
    sc.has begin' .int ∧ sc.has end' .int ∧ index.ty = .int ∧ body.WellScoped (sc.addValue index)

def Block.WellScoped (sc : Scope) : Block R → Prop
  | .nil => True
  | .cons s rest => s.WellScoped sc ∧ rest.WellScoped (sc.extend s)

end

/-- A kernel body: nothing is in scope before it, every name is declared once and
is below `next`. -/
structure WellFormed (next : Nat) (body : Block R) : Prop where
  wellScoped : body.WellScoped ⟨[], []⟩
  nodup : body.defs.Nodup
  lt_next : ∀ x ∈ body.defs, x < next

theorem Stmt.defs_of_isSimple {s : Stmt R} (hs : s.isSimple) : s.defs = s.own := by
  cases s with
  | ifStmt | rangeFor => simp [Stmt.isSimple] at hs
  | _ => simp [Stmt.defs]

theorem Stmt.frameDefs_of_isSimple {s : Stmt R} (hs : s.isSimple) : s.frameDefs = s.own := by
  cases s with
  | ifStmt | rangeFor => simp [Stmt.isSimple] at hs
  | _ => simp [Stmt.frameDefs, Stmt.defs]

theorem Stmt.loopDefs_of_isSimple {s : Stmt R} (hs : s.isSimple) : s.loopDefs = [] := by
  cases s with
  | ifStmt | rangeFor => simp [Stmt.isSimple] at hs
  | _ => simp [Stmt.loopDefs]

theorem Stmt.own_of_not_isSimple {s : Stmt R} (hs : s.isSimple = false) : s.own = [] := by
  cases s with
  | ifStmt | rangeFor => simp [Stmt.own, Stmt.value?, Stmt.var?]
  | _ => simp [Stmt.isSimple] at hs

theorem Stmt.own_sublist_defs (s : Stmt R) : s.own.Sublist s.defs := by
  cases hs : s.isSimple with
  | true => exact Stmt.defs_of_isSimple hs ▸ List.Sublist.refl _
  | false => exact Stmt.own_of_not_isSimple hs ▸ nil_sublist _

theorem append_interchange (a b c d : List Nat) :
    ((a ++ b) ++ (c ++ d)).Perm ((a ++ c) ++ (b ++ d)) := by
  rw [perm_iff_count]
  simp only [count_append]
  omega

theorem Scope.names_extend_perm (sc : Scope) (s : Stmt R) :
    (sc.extend s).names.Perm (s.own ++ sc.names) := by
  simp only [Scope.names, Scope.extend, Stmt.own, map_append]
  exact append_interchange ..

theorem Scope.mem_names_extend (sc : Scope) (s : Stmt R) (x : Nat) :
    x ∈ (sc.extend s).names ↔ x ∈ sc.names ∨ x ∈ s.own := by
  rw [(sc.names_extend_perm s).mem_iff, mem_append, or_comm]

theorem Scope.mem_names_addValue (sc : Scope) (i : Ref) (x : Nat) :
    x ∈ (sc.addValue i).names ↔ x ∈ sc.names ∨ x = i.name := by
  simp only [Scope.names, Scope.addValue, map_append, map_cons, mem_append, mem_cons]
  tauto

theorem defs_perm (b : Block R) : b.defs.Perm (b.frameDefs ++ b.loopDefs) := by
  induction b using Block.rule (P := fun s => s.defs.Perm (s.frameDefs ++ s.loopDefs)) with
  | simple s hs =>
    rw [Stmt.frameDefs_of_isSimple hs, Stmt.loopDefs_of_isSimple hs, Stmt.defs_of_isSimple hs,
      append_nil]
  | ifStmt cond t f ht hf =>
    exact (ht.append hf).trans (append_interchange ..)
  | rangeFor index begin' end' body _ =>
    simp [Stmt.frameDefs, Stmt.loopDefs, Stmt.defs]
  | nil => simp [Block.frameDefs, Block.loopDefs, Block.defs]
  | cons s rest hs hr =>
    exact (hs.append hr).trans (append_interchange ..)

theorem frameDefs_subset (b : Block R) : b.frameDefs ⊆ b.defs :=
  fun _ hx => (defs_perm b).mem_iff.mpr (mem_append_left _ hx)

end Quadrants.AutoDiff.Ir
