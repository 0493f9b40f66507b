import Quadrants.AutoDiff.Ir
import Quadrants.AutoDiff.Scope

/-!
`MakeDual`, the forward-mode transform.

The visitor keeps the dual variable of every statement it has met, the
statements inserted after the current one, and the dual variables that go to
the head of `alloca_block`.
-/

namespace Quadrants.AutoDiff.MakeDual

open Quadrants.AutoDiff.Ir

/-- The members of the visitor.  Names of new statements are taken from `next`;
`allocas` are the statements inserted at position 0 of `alloca_block`, so the
newest comes first, and `inserted` are those after `current_stmt`. -/
structure PassState (R : Type) where
  next : Nat
  dualStmt : Nat → Option Nat
  allocas : List Nat
  inserted : List (Stmt R)

abbrev Pass (R : Type) := StateM (PassState R)

inductive Operand
  | value (r : Ref)
  | var (a : Nat)
deriving DecidableEq, Repr

def varRef (a : Nat) : Ref := ⟨a, .real, false⟩

section Insertion

variable {R : Type} [Zero R]

def insert (isConst : Bool) (make : Ref → Stmt R) : Pass R Ref := fun ps =>
  let x : Ref := ⟨ps.next, .real, isConst⟩
  (x, { ps with next := ps.next + 1, inserted := ps.inserted ++ [make x] })

def insertStore (s : Stmt R) : Pass R Unit := fun ps =>
  ((), { ps with inserted := ps.inserted ++ [s] })

def constantZero : Pass R Ref := insert true fun x => .constReal x 0

/-- The dual of a statement; met for the first time, a real statement gets a
variable at the head of `alloca_block`. -/
def dual (x : Ref) : Pass R Operand :=
  if x.ty ≠ .real ∨ x.isConst then do
    return .value (← constantZero)
  else fun ps =>
    match ps.dualStmt x.name with
    | some a => (.var a, ps)
    | none =>
      (.var ps.next, { ps with
          next := ps.next + 1
          dualStmt := Function.update ps.dualStmt x.name (some ps.next)
          allocas := ps.next :: ps.allocas })

def load : Operand → Pass R Ref
  | .value r => pure r
  | .var a => insert false fun x => .localLoad x (varRef a)

def negate (a : Operand) : Pass R Operand := do
  let a ← load a
  return .value (← insert false fun x => .neg x a)

def binaryOp (op : ArithOp) (a b : Operand) : Pass R Operand := do
  let a ← load a
  let b ← load b
  return .value (← insert false fun x => .binary x op a b)

def cmpLt (a b : Ref) : Pass R Ref := fun ps =>
  let x : Ref := ⟨ps.next, .int, false⟩
  (x, { ps with next := ps.next + 1, inserted := ps.inserted ++ [.compare x .lt a b] })

def sel (c : Ref) (a b : Operand) : Pass R Operand := do
  let a ← load a
  let b ← load b
  return .value (← insert false fun x => .select x c a b)

/-- Add a value to a variable.  The second `load` is the identity, since the
sum is not a variable. -/
def addTo (a : Nat) (value : Operand) : Pass R Unit := do
  let old ← load (.var a)
  let sum ← load (← binaryOp .add (.value old) value)
  insertStore (.localStore (varRef a) sum)

def accumulate (primal : Ref) (value : Operand) : Pass R Unit := do
  match ← dual primal with
  | .value _ => return ()
  | .var a => addTo a value

def clearDual (dest : Ref) : Pass R Unit := do
  let zero ← constantZero
  match ← dual dest with
  | .value _ => return ()
  | .var a => insertStore (.localStore (varRef a) zero)

end Insertion

section Visitor

variable {R : Type} [Zero R]

def visitBinary (x : Ref) (op : ArithOp) (a b : Ref) : Pass R Unit :=
  match op with
  | .add => do
      accumulate x (← dual a)
      accumulate x (← dual b)
  | .sub => do
      accumulate x (← dual a)
      accumulate x (← negate (← dual b))
  | .mul => do
      accumulate x (← binaryOp .mul (.value a) (← dual b))
      accumulate x (← binaryOp .mul (.value b) (← dual a))
  | .min | .max => do
      let cmp ← if op = .min then cmpLt a b else cmpLt b a
      let zero ← constantZero
      accumulate x (← sel cmp (← dual a) (.value zero))
      accumulate x (← sel cmp (.value zero) (← dual b))

def dualPtr (ptr : GlobalPtr) : GlobalPtr := { ptr with isDual := true }

def accumulateCell (dest : GlobalPtr) (val : Ref) : Pass R Unit := do
  let v ← load (← dual val)
  let _ ← insert false fun x => .atomicAdd x (dualPtr dest) v

def visitSimple : Stmt R → Pass R Unit
  | .neg x a => do accumulate x (← negate (← dual a))
  | .castValue x a => if x.ty = .real ∧ a.ty = .real then do accumulate x (← dual a) else pure ()
  | .binary x op a b => visitBinary x op a b
  | .select x c a b => do
      let zero ← constantZero
      accumulate x (← sel c (← dual a) (.value zero))
      accumulate x (← sel c (.value zero) (← dual b))
  | .localLoad x src => do accumulate x (← dual src)
  | .localStore dest val => do
      if dest.ty = .real then clearDual dest
      accumulate dest (← dual val)
  | .globalLoad x src =>
    if src.ty = .real then do
      let d ← insert false fun y => .globalLoad y (dualPtr src)
      accumulate x (.value d)
    else pure ()
  | .globalStore dest val => if dest.ty = .real then accumulateCell dest val else pure ()
  | .atomicAdd _ dest val => if dest.ty = .real then accumulateCell dest val else pure ()
  | _ => pure ()

def allocaBlock (allocas : List Nat) : Block R :=
  Block.ofList (allocas.map fun a => .alloca (varRef a))

mutual

def visitStmt : Stmt R → Pass R (Block R)
  | .ifStmt cond trueStatements falseStatements => do
      let trueStatements ← visitBlock trueStatements
      let falseStatements ← visitBlock falseStatements
      return .cons (.ifStmt cond trueStatements falseStatements) .nil
  | .rangeFor index begin' end' body => do
      let previous ← get
      set { previous with allocas := [] }
      let body ← visitBlock body
      let inner ← get
      set { inner with allocas := previous.allocas }
      return .cons (.rangeFor index begin' end' ((allocaBlock inner.allocas).append body)) .nil
  | s => do
      modify fun ps => { ps with inserted := [] }
      visitSimple s
      return .cons s (Block.ofList (← get).inserted)

def visitBlock : Block R → Pass R (Block R)
  | .nil => return .nil
  | .cons s rest => do
      let stmts ← visitStmt s
      let rest ← visitBlock rest
      return stmts.append rest

end

def makeDual (next : Nat) (body : Block R) : Block R :=
  let (body, ps) := visitBlock body
    { next := next, dualStmt := fun _ => none, allocas := [], inserted := [] }
  (allocaBlock ps.allocas).append body

end Visitor

end Quadrants.AutoDiff.MakeDual

/-!
Where `MakeDual` puts the dual variables.

A dual variable is made at the first mention of its statement, and goes to the
head of the loop body that is being visited at that moment.
-/

namespace Quadrants.AutoDiff.MakeDual

open Quadrants.AutoDiff.Ir

variable {R : Type}

def mentionedRefs : Stmt R → List Ref
  | .neg x a => [a, x]
  | .castValue x a => if x.ty = .real ∧ a.ty = .real then [a, x] else []
  | .binary x _ a b => [a, b, x]
  | .select x _ a b => [a, b, x]
  | .localLoad x src => [src, x]
  | .localStore dest val => [dest, val]
  | .globalLoad x src => if src.ty = .real then [x] else []
  | .globalStore dest val => if dest.ty = .real then [val] else []
  | .atomicAdd _ dest val => if dest.ty = .real then [val] else []
  | _ => []

def hasDual (x : Ref) : Bool := x.ty = .real && !x.isConst

def mentionedNames (refs : List Ref) : List Nat := (refs.filter hasDual).map Ref.name

mutual

def mentionsStmt : Stmt R → List Nat
  | .ifStmt _ t f => mentions t ++ mentions f
  | .rangeFor _ _ _ body => mentions body
  | s => mentionedNames (mentionedRefs s)

def mentions : Block R → List Nat
  | .nil => []
  | .cons s rest => mentionsStmt s ++ mentions rest

end

mutual

def MetBeforeLoopsStmt (seen : List Nat) : Stmt R → Prop
  | .ifStmt _ t f => MetBeforeLoops seen t ∧ MetBeforeLoops (seen ++ mentions t) f
  | .rangeFor _ _ _ body =>
    (∀ x ∈ mentions body, x ∉ body.defs → x ∈ seen) ∧ MetBeforeLoops seen body
  | _ => True

/-- Everything a loop body mentions but does not declare itself was mentioned
before the loop; `seen` has what was mentioned before the block. -/
def MetBeforeLoops (seen : List Nat) : Block R → Prop
  | .nil => True
  | .cons s rest => MetBeforeLoopsStmt seen s ∧ MetBeforeLoops (seen ++ mentionsStmt s) rest

end

structure PassState.Ok (ps : PassState R) : Prop where
  lt_next : ∀ x a, ps.dualStmt x = some a → a < ps.next
  injective : ∀ x y a, ps.dualStmt x = some a → ps.dualStmt y = some a → x = y

/-- What a visit does to the visitor's state if it mentions `ms`: variables are
made for these only, and go to the head of the current block except for those of
the statements `ls`. -/
structure Grows (ms ls : List Nat) (ps ps' : PassState R) : Prop where
  next_le : ps.next ≤ ps'.next
  keep : ∀ x a, ps.dualStmt x = some a → ps'.dualStmt x = some a
  fresh : ∀ x a, ps.dualStmt x = none → ps'.dualStmt x = some a → ps.next ≤ a
  mentioned : ∀ x a, ps.dualStmt x = none → ps'.dualStmt x = some a → x ∈ ms
  located : ∀ x a, ps.dualStmt x = none → ps'.dualStmt x = some a → a ∈ ps'.allocas ∨ x ∈ ls
  met : ∀ x ∈ ms, ps'.dualStmt x ≠ none
  allocas_keep : ps.allocas ⊆ ps'.allocas
  allocas_new : ∀ a ∈ ps'.allocas,
    a ∈ ps.allocas ∨ ∃ x, ps.dualStmt x = none ∧ ps'.dualStmt x = some a
  ok : ps.Ok → ps'.Ok

theorem Grows.refl (ps : PassState R) : Grows [] [] ps ps := by
  constructor <;> simp_all

variable {A : Type} {ls ms ms' : List Nat} {m : Pass R A} {ps ps' : PassState R}

theorem Grows.some_or_none (h : Grows ms ls ps ps') {x a : Nat} (hx : ps'.dualStmt x = some a) :
    ps.dualStmt x = some a ∨ ps.dualStmt x = none := by
  cases hps : ps.dualStmt x with
  | none => exact .inr rfl
  | some b =>
    rw [h.keep x b hps] at hx
    exact .inl hx

theorem Grows.trans {ls' : List Nat} {ps'' : PassState R}
    (h : Grows ms ls ps ps') (h' : Grows ms' ls' ps' ps'') :
    Grows (ms ++ ms') (ls ++ ls') ps ps'' := by
  constructor
  case next_le => exact Nat.le_trans h.next_le h'.next_le
  case keep => exact fun x a hx => h'.keep x a (h.keep x a hx)
  case fresh =>
      intro x a hx hx''
      rcases h'.some_or_none hx'' with hx' | hx'
      · exact h.fresh x a hx hx'
      · exact Nat.le_trans h.next_le (h'.fresh x a hx' hx'')
  case mentioned =>
      intro x a hx hx''
      rw [List.mem_append]
      rcases h'.some_or_none hx'' with hx' | hx'
      · exact .inl (h.mentioned x a hx hx')
      · exact .inr (h'.mentioned x a hx' hx'')
  case located =>
      intro x a hx hx''
      rw [List.mem_append]
      rcases h'.some_or_none hx'' with hx' | hx'
      · rcases h.located x a hx hx' with ha | hl
        · exact .inl (h'.allocas_keep ha)
        · exact .inr (.inl hl)
      · rcases h'.located x a hx' hx'' with ha | hl
        · exact .inl ha
        · exact .inr (.inr hl)
  case met =>
      intro x hx
      rw [List.mem_append] at hx
      rcases hx with hx | hx
      · obtain ⟨a, ha⟩ := Option.ne_none_iff_exists'.mp (h.met x hx)
        rw [h'.keep x a ha]
        exact Option.some_ne_none a
      · exact h'.met x hx
  case allocas_keep => exact fun a ha => h'.allocas_keep (h.allocas_keep ha)
  case allocas_new =>
      intro a ha
      rcases h'.allocas_new a ha with ha' | ⟨x, hx', hx''⟩
      · rcases h.allocas_new a ha' with ha | ⟨x, hx, hx'⟩
        · exact .inl ha
        · exact .inr ⟨x, hx, h'.keep x a hx'⟩
      · refine .inr ⟨x, ?_, hx''⟩
        cases hps : ps.dualStmt x with
        | none => rfl
        | some b =>
          rw [h.keep x b hps] at hx'
          cases hx'
  case ok => exact fun hok => h'.ok (h.ok hok)

theorem Grows.seen {seen : List Nat} (h : Grows ms ls ps ps')
    (hseen : ∀ x ∈ seen, ps.dualStmt x ≠ none) : ∀ x ∈ seen ++ ms, ps'.dualStmt x ≠ none := by
  intro x hx
  rw [List.mem_append] at hx
  rcases hx with hx | hx
  · obtain ⟨a, ha⟩ := Option.ne_none_iff_exists'.mp (hseen x hx)
    rw [h.keep x a ha]
    exact Option.some_ne_none a
  · exact h.met x hx

theorem Grows.congr (h : Grows ms ls ps ps')
    (hms : ∀ x, x ∈ ms ↔ x ∈ ms') : Grows ms' ls ps ps' where
  next_le := h.next_le
  keep := h.keep
  fresh := h.fresh
  mentioned := fun x a hx hx' => (hms x).mp (h.mentioned x a hx hx')
  located := h.located
  met := fun x hx => h.met x ((hms x).mpr hx)
  allocas_keep := h.allocas_keep
  allocas_new := h.allocas_new
  ok := h.ok

/-- `D` lists the dual variables that the visitor has made, and possibly more. -/
def Keeps (D : Nat → Option Nat) (ps : PassState R) : Prop :=
  ∀ x a, ps.dualStmt x = some a → D x = some a

theorem Keeps.of_grows {D : Nat → Option Nat} (hD : Keeps D ps')
    (h : Grows ms ls ps ps') : Keeps D ps :=
  fun x a hx => hD x a (h.keep x a hx)

/-- A visitor action that makes variables for `ms` at the head of the current
block. -/
def Mentions {A : Type} (ms : List Nat) (m : Pass R A) : Prop :=
  ∀ ps, Grows ms [] ps (m ps).2

theorem Mentions.pure (r : A) : Mentions [] (pure r : Pass R A) :=
  fun ps => Grows.refl ps

theorem Mentions.bind {B : Type} {K L : List Nat} {f : A → Pass R B}
    (h : Mentions K m) (h' : ∀ r, Mentions L (f r)) : Mentions (K ++ L) (m >>= f) :=
  fun ps => (h ps).trans (h' (m ps).1 (m ps).2)

theorem Mentions.congr (h : Mentions ms m) (hms : ∀ x, x ∈ ms ↔ x ∈ ms') : Mentions ms' m :=
  fun ps => (h ps).congr hms

theorem Mentions.of_dualStmt_eq
    (hnext : ∀ ps, ps.next ≤ (m ps).2.next) (hdual : ∀ ps, (m ps).2.dualStmt = ps.dualStmt)
    (hallocas : ∀ ps, (m ps).2.allocas = ps.allocas) : Mentions [] m := by
  intro ps
  constructor
  case next_le => exact hnext ps
  case allocas_keep => rw [hallocas]; exact List.Subset.refl _
  case allocas_new => rw [hallocas]; exact fun a ha => .inl ha
  case ok =>
      intro hok
      constructor
      · intro x a hx
        rw [hdual] at hx
        exact Nat.lt_of_lt_of_le (hok.lt_next x a hx) (hnext ps)
      · rw [hdual]
        exact hok.injective
  all_goals simp_all

theorem insert_mentions (isConst : Bool) (make : Ref → Stmt R) :
    Mentions [] (insert isConst make) :=
  Mentions.of_dualStmt_eq (fun _ => Nat.le_succ _) (fun _ => rfl) (fun _ => rfl)

theorem insertStore_mentions (s : Stmt R) : Mentions [] (insertStore s) :=
  Mentions.of_dualStmt_eq (fun _ => Nat.le_refl _) (fun _ => rfl) (fun _ => rfl)

theorem cmpLt_mentions (a b : Ref) : Mentions (R := R) [] (cmpLt a b) :=
  Mentions.of_dualStmt_eq (fun _ => Nat.le_succ _) (fun _ => rfl) (fun _ => rfl)

theorem load_mentions (o : Operand) : Mentions (R := R) [] (load o) := by
  cases o with
  | value r => exact Mentions.pure r
  | var a => exact insert_mentions _ _

theorem negate_mentions (o : Operand) : Mentions (R := R) [] (negate o) :=
  (load_mentions o).bind fun _ => (insert_mentions _ _).bind fun _ => Mentions.pure _

theorem binaryOp_mentions (op : ArithOp) (a b : Operand) : Mentions (R := R) [] (binaryOp op a b) :=
  (load_mentions a).bind fun _ => (load_mentions b).bind fun _ =>
    (insert_mentions _ _).bind fun _ => Mentions.pure _

theorem sel_mentions (c : Ref) (a b : Operand) : Mentions (R := R) [] (sel c a b) :=
  (load_mentions a).bind fun _ => (load_mentions b).bind fun _ =>
    (insert_mentions _ _).bind fun _ => Mentions.pure _

theorem addTo_mentions (a : Nat) (o : Operand) : Mentions (R := R) [] (addTo a o) :=
  (load_mentions (.var a)).bind fun _ => (binaryOp_mentions _ _ _).bind fun _ =>
    (load_mentions _).bind fun _ => insertStore_mentions _

theorem grows_new_variable (ps : PassState R) (x : Nat) (hx : ps.dualStmt x = none) :
    Grows [x] [] ps
      { ps with
        next := ps.next + 1
        dualStmt := Function.update ps.dualStmt x (some ps.next)
        allocas := ps.next :: ps.allocas } := by
  have hcases : ∀ y a, Function.update ps.dualStmt x (some ps.next) y = some a →
      (y = x ∧ a = ps.next) ∨ (y ≠ x ∧ ps.dualStmt y = some a) := by
    intro y a hy
    by_cases hyx : y = x
    · subst hyx
      rw [Function.update_self] at hy
      exact .inl ⟨rfl, (Option.some.inj hy).symm⟩
    · rw [Function.update_of_ne hyx] at hy
      exact .inr ⟨hyx, hy⟩
  constructor
  case next_le => exact Nat.le_succ _
  case keep =>
      intro y a hy
      have hyx : y ≠ x := by
        rintro rfl
        rw [hx] at hy
        cases hy
      exact (Function.update_of_ne hyx _ _).trans hy
  case fresh =>
      intro y a hy hy'
      rcases hcases y a hy' with ⟨_, rfl⟩ | ⟨_, hy''⟩
      · exact Nat.le_refl _
      · rw [hy] at hy''
        cases hy''
  case mentioned =>
      intro y a hy hy'
      rcases hcases y a hy' with ⟨rfl, _⟩ | ⟨_, hy''⟩
      · exact List.mem_singleton_self y
      · rw [hy] at hy''
        cases hy''
  case located =>
      intro y a hy hy'
      rcases hcases y a hy' with ⟨_, rfl⟩ | ⟨_, hy''⟩
      · exact .inl List.mem_cons_self
      · rw [hy] at hy''
        cases hy''
  case met =>
      intro y hy
      rw [List.mem_singleton] at hy
      simp [hy]
  case allocas_keep => exact List.subset_cons_self _ _
  case allocas_new =>
      intro a ha
      rcases List.mem_cons.mp ha with rfl | ha
      · exact .inr ⟨x, hx, Function.update_self ..⟩
      · exact .inl ha
  case ok =>
      intro hok
      constructor
      · intro y a hy
        rcases hcases y a hy with ⟨_, rfl⟩ | ⟨_, hy'⟩
        · exact Nat.lt_succ_self _
        · exact Nat.lt_succ_of_lt (hok.lt_next y a hy')
      · intro y z a hy hz
        rcases hcases y a hy with ⟨rfl, rfl⟩ | ⟨_, hy'⟩ <;>
          rcases hcases z _ hz with ⟨rfl, hza⟩ | ⟨_, hz'⟩
        · rfl
        · exact absurd (hok.lt_next z _ hz') (Nat.lt_irrefl _)
        · subst hza
          exact absurd (hok.lt_next y _ hy') (Nat.lt_irrefl _)
        · exact hok.injective y z a hy' hz'

theorem mem_mentionedNames (x : Nat) (refs : List Ref) :
    x ∈ mentionedNames refs ↔ ∃ r ∈ refs, hasDual r = true ∧ r.name = x := by
  simp [mentionedNames, and_assoc]

theorem mentionsStmt_simple {s : Stmt R} (hs : s.isSimple) :
    mentionsStmt s = mentionedNames (mentionedRefs s) := by
  cases s with
  | ifStmt | rangeFor => simp [Stmt.isSimple] at hs
  | _ => simp [mentionsStmt]

theorem Grows.loop {ls' : List Nat} {inner : PassState R}
    (h : Grows ms ls { ps with allocas := [] } inner)
    (hms : ∀ x ∈ ms, x ∉ ls' → ps.dualStmt x ≠ none) :
    Grows ms ls' ps { inner with allocas := ps.allocas } := by
  constructor
  case next_le => exact h.next_le
  case keep => exact h.keep
  case fresh => exact h.fresh
  case mentioned => exact h.mentioned
  case located =>
      intro x a hx hx'
      by_contra hnot
      rw [not_or] at hnot
      exact hms x (h.mentioned x a hx hx') hnot.2 hx
  case met => exact h.met
  case allocas_keep => exact List.Subset.refl _
  case allocas_new => exact fun a ha => .inl ha
  case ok =>
      intro hok
      obtain ⟨hlt, hinj⟩ := h.ok ⟨hok.lt_next, hok.injective⟩
      exact ⟨hlt, hinj⟩

section Visits

variable [Zero R]

theorem constantZero_mentions : Mentions (R := R) [] constantZero := insert_mentions _ _

theorem dual_mentions (x : Ref) : Mentions (R := R) (mentionedNames [x]) (dual x) := by
  by_cases hx : x.ty ≠ .real ∨ x.isConst
  · have hnames : mentionedNames [x] = [] ++ [] := by
      rcases hx with hx | hx <;> simp [mentionedNames, hasDual, hx]
    rw [dual, if_pos hx, hnames]
    exact constantZero_mentions.bind fun r => Mentions.pure _
  · have hnames : mentionedNames [x] = [x.name] := by
      simp only [not_or, not_not, Bool.not_eq_true] at hx
      simp [mentionedNames, hasDual, hx.1, hx.2]
    rw [dual, if_neg hx, hnames]
    intro ps
    cases hd : ps.dualStmt x.name with
    | some a =>
      constructor <;> simp_all
    | none =>
      simp only [hd]
      exact grows_new_variable ps x.name hd

theorem accumulate_mentions (x : Ref) (o : Operand) :
    Mentions (R := R) (mentionedNames [x]) (accumulate x o) := by
  rw [← List.append_nil (mentionedNames [x])]
  refine (dual_mentions x).bind fun d => ?_
  cases d with
  | value r => exact Mentions.pure _
  | var a => exact addTo_mentions a o

variable {ps : PassState R} {x : Ref}

theorem accumulate_value {r : Ref} (o : Operand) (hr : (dual x ps).1 = .value r) :
    (accumulate x o ps).2 = (dual x ps).2 := by
  change ((match (dual x ps).1 with
    | .value _ => Pure.pure ()
    | .var a => addTo a o : Pass R Unit) (dual x ps).2).2 = (dual x ps).2
  rw [hr]
  rfl

theorem accumulate_var {c : Nat} (o : Operand) (hc : (dual x ps).1 = .var c) :
    (accumulate x o ps).2 = (addTo c o (dual x ps).2).2 := by
  change ((match (dual x ps).1 with
    | .value _ => Pure.pure ()
    | .var a => addTo a o : Pass R Unit) (dual x ps).2).2 = _
  rw [hc]

theorem dual_keeps {D : Nat → Option Nat} {o : Operand} (hD : Keeps D (accumulate x o ps).2) :
    Keeps D (dual x ps).2 := by
  cases hd : (dual x ps).1 with
  | value r =>
    rw [accumulate_value o hd] at hD
    exact hD
  | var c =>
    rw [accumulate_var o hd] at hD
    exact hD.of_grows (addTo_mentions c o _)

theorem clearDual_mentions (dest : Ref) :
    Mentions (R := R) (mentionedNames [dest]) (clearDual dest) := by
  rw [← List.nil_append (mentionedNames [dest])]
  refine constantZero_mentions.bind fun zero => ?_
  rw [← List.append_nil (mentionedNames [dest])]
  refine (dual_mentions dest).bind fun d => ?_
  cases d with
  | value r => exact Mentions.pure _
  | var a => exact insertStore_mentions _

theorem term_mentions (x a : Ref) {f : Operand → Pass R Operand} (hf : ∀ o, Mentions [] (f o)) :
    Mentions (mentionedNames [a, x]) (do accumulate x (← f (← dual a))) := by
  have h := ((dual_mentions (R := R) a).bind hf).bind (accumulate_mentions x)
  refine h.congr fun y => ?_
  simp [mem_mentionedNames]

theorem terms_mentions (x a b : Ref) {f g : Operand → Pass R Operand}
    (hf : ∀ o, Mentions [] (f o)) (hg : ∀ o, Mentions [] (g o)) :
    Mentions (mentionedNames [a, b, x])
      (do accumulate x (← f (← dual a)); accumulate x (← g (← dual b))) := by
  have h := (term_mentions (R := R) x a hf).bind fun _ => term_mentions x b hg
  refine h.congr fun y => ?_
  simp only [List.mem_append, mem_mentionedNames, List.mem_cons, List.not_mem_nil, or_false,
    exists_eq_or_imp, exists_eq_left]
  tauto

theorem sel_terms_mentions (x c zero a b : Ref) : Mentions (R := R) (mentionedNames [a, b, x]) (do
      accumulate x (← sel c (← dual a) (.value zero))
      accumulate x (← sel c (.value zero) (← dual b))) :=
  terms_mentions x a b (fun o => sel_mentions c o _) (sel_mentions c _)

theorem visitBinary_mentions (x : Ref) (op : ArithOp) (a b : Ref) :
    Mentions (R := R) (mentionedNames [a, b, x]) (visitBinary x op a b) := by
  cases op with
  | add => exact terms_mentions x a b Mentions.pure Mentions.pure
  | sub => exact terms_mentions x a b Mentions.pure negate_mentions
  | mul =>
    have h := terms_mentions (R := R) x b a (binaryOp_mentions .mul (.value a))
      (binaryOp_mentions .mul (.value b))
    refine h.congr fun y => ?_
    simp only [mem_mentionedNames, List.mem_cons, List.not_mem_nil, or_false, exists_eq_or_imp,
      exists_eq_left]
    tauto
  | min =>
    exact (cmpLt_mentions a b).bind fun c => constantZero_mentions.bind fun zero =>
      sel_terms_mentions x c zero a b
  | max =>
    exact (cmpLt_mentions b a).bind fun c => constantZero_mentions.bind fun zero =>
      sel_terms_mentions x c zero a b

theorem accumulateCell_mentions (dest : GlobalPtr) (val : Ref) :
    Mentions (R := R) (mentionedNames [val]) (accumulateCell dest val) := by
  have h := (dual_mentions (R := R) val).bind fun o => (load_mentions o).bind fun v =>
    (insert_mentions false fun x => .atomicAdd x (dualPtr dest) v).bind fun _ => Mentions.pure ()
  rw [List.append_nil, List.append_nil, List.append_nil] at h
  exact h

theorem visitSimple_mentions (s : Stmt R) :
    Mentions (mentionedNames (mentionedRefs s)) (visitSimple s) := by
  have hunit : Mentions (R := R) [] (Pure.pure ()) := Mentions.pure ()
  cases s with
  | neg x a => exact term_mentions x a negate_mentions
  | castValue x a =>
    by_cases hty : x.ty = .real ∧ a.ty = .real
    · rw [visitSimple, mentionedRefs, if_pos hty, if_pos hty]
      exact term_mentions x a Mentions.pure
    · rw [visitSimple, mentionedRefs, if_neg hty, if_neg hty]
      exact hunit
  | binary x op a b => exact visitBinary_mentions x op a b
  | select x c a b =>
    exact constantZero_mentions.bind fun zero => sel_terms_mentions x c zero a b
  | localLoad x src => exact term_mentions x src Mentions.pure
  | localStore dest val =>
    have hadd := term_mentions (R := R) dest val Mentions.pure
    by_cases hty : dest.ty = .real
    · rw [visitSimple, if_pos hty]
      refine ((clearDual_mentions dest).bind fun _ => hadd).congr fun y => ?_
      simp only [mentionedRefs, mem_mentionedNames, List.mem_append, List.mem_cons,
        List.not_mem_nil, or_false, exists_eq_or_imp, exists_eq_left]
      tauto
    · rw [visitSimple, if_neg hty]
      refine (hunit.bind fun _ => hadd).congr fun y => ?_
      simp only [mentionedRefs, mem_mentionedNames, List.mem_append, List.mem_cons,
        List.not_mem_nil, or_false, exists_eq_or_imp, exists_eq_left, false_or]
      tauto
  | globalLoad x src =>
    by_cases hty : src.ty = .real
    · rw [visitSimple, mentionedRefs, if_pos hty, if_pos hty]
      exact (insert_mentions _ _).bind fun d => accumulate_mentions x _
    · rw [visitSimple, mentionedRefs, if_neg hty, if_neg hty]
      exact hunit
  | globalStore dest val =>
    by_cases hty : dest.ty = .real
    · rw [visitSimple, mentionedRefs, if_pos hty, if_pos hty]
      exact accumulateCell_mentions dest val
    · rw [visitSimple, mentionedRefs, if_neg hty, if_neg hty]
      exact hunit
  | atomicAdd x dest val =>
    by_cases hty : dest.ty = .real
    · rw [visitSimple, mentionedRefs, if_pos hty, if_pos hty]
      exact accumulateCell_mentions dest val
    · rw [visitSimple, mentionedRefs, if_neg hty, if_neg hty]
      exact hunit
  | _ => exact hunit

theorem visitStmt_simple {s : Stmt R} (hs : s.isSimple) (ps : PassState R) :
    visitStmt s ps = (.cons s (Block.ofList (visitSimple s { ps with inserted := [] }).2.inserted),
      (visitSimple s { ps with inserted := [] }).2) := by
  cases s with
  | ifStmt | rangeFor => simp [Stmt.isSimple] at hs
  | _ => rfl

theorem visitStmt_ifStmt (cond : Ref) (t f : Block R) (ps : PassState R) :
    visitStmt (.ifStmt cond t f) ps =
      (.cons (.ifStmt cond (visitBlock t ps).1 (visitBlock f (visitBlock t ps).2).1) .nil,
        (visitBlock f (visitBlock t ps).2).2) := by
  rfl

theorem visitStmt_rangeFor (index begin' end' : Ref) (body : Block R) (ps : PassState R) :
    visitStmt (.rangeFor index begin' end' body) ps =
      (.cons (.rangeFor index begin' end'
          ((allocaBlock (visitBlock body { ps with allocas := [] }).2.allocas).append
            (visitBlock body { ps with allocas := [] }).1)) .nil,
        { (visitBlock body { ps with allocas := [] }).2 with allocas := ps.allocas }) := by
  rfl

theorem visitBlock_cons (s : Stmt R) (rest : Block R) (ps : PassState R) :
    visitBlock (.cons s rest) ps =
      ((visitStmt s ps).1.append (visitBlock rest (visitStmt s ps).2).1,
        (visitBlock rest (visitStmt s ps).2).2) := by
  rfl

theorem visitBlock_grows (b : Block R) : ∀ (seen : List Nat) (ps : PassState R),
    MetBeforeLoops seen b → (∀ x ∈ seen, ps.dualStmt x ≠ none) →
      Grows (mentions b) b.loopDefs ps (visitBlock b ps).2 := by
  induction b using Block.rule (P := fun s => ∀ (seen : List Nat) (ps : PassState R),
    MetBeforeLoopsStmt seen s → (∀ x ∈ seen, ps.dualStmt x ≠ none) →
      Grows (mentionsStmt s) s.loopDefs ps (visitStmt s ps).2) with
  | simple s hs seen ps _ _ =>
    rw [visitStmt_simple hs, mentionsStmt_simple hs, Stmt.loopDefs_of_isSimple hs]
    have h := visitSimple_mentions s { ps with inserted := [] }
    exact ⟨h.next_le, h.keep, h.fresh, h.mentioned, h.located, h.met, h.allocas_keep,
      h.allocas_new, fun hok => h.ok ⟨hok.lt_next, hok.injective⟩⟩
  | ifStmt cond t f iht ihf seen ps hmet hseen =>
    have ht := iht seen ps hmet.1 hseen
    exact ht.trans (ihf _ _ hmet.2 (ht.seen hseen))
  | rangeFor index begin' end' body ih seen ps hmet hseen =>
    have hbody := ih seen { ps with allocas := [] } hmet.2 hseen
    refine hbody.loop fun x hx hxd => ?_
    exact hseen x (hmet.1 x hx fun hb => hxd (List.mem_cons_of_mem _ hb))
  | nil =>
    intro seen ps _ _
    exact Grows.refl ps
  | cons s rest ihs ihr =>
    intro seen ps hmet hseen
    have hs := ihs seen ps hmet.1 hseen
    exact hs.trans (ihr _ _ hmet.2 (hs.seen hseen))

theorem visitStmt_grows (s : Stmt R) (seen : List Nat) (ps : PassState R)
    (hmet : MetBeforeLoopsStmt seen s) (hseen : ∀ x ∈ seen, ps.dualStmt x ≠ none) :
    Grows (mentionsStmt s) s.loopDefs ps (visitStmt s ps).2 := by
  have h := visitBlock_grows (.cons s .nil) seen ps ⟨hmet, trivial⟩ hseen
  rw [mentions, mentions, List.append_nil, Block.loopDefs, Block.loopDefs, List.append_nil] at h
  exact h

end Visits

end Quadrants.AutoDiff.MakeDual
