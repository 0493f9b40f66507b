import Mathlib.Data.Int.Notation
import Quadrants.Library.TracedLoops

/-!
The frontend statements that `LowerAST` gives control flow to, what they mean, and
`DetectForsWithBreak`. Values are those of any machine with 32-bit integers and truth values.
-/

namespace Quadrants.LowerAst

open Library.TracedLoops List Bool

class MachineValue (V : Type) where
  ofInt32 : BitVec 32 → V
  toInt32 : V → BitVec 32
  ofBool : Bool → V
  isZero : V → Bool
  toInt32_ofInt32 : ∀ b, toInt32 (ofInt32 b) = b
  isZero_ofInt32_zero : isZero (ofInt32 0) = true
  isZero_ofBool : ∀ b, isZero (ofBool b) = !b

export MachineValue (ofInt32 toInt32 ofBool isZero)

attribute [simp] MachineValue.toInt32_ofInt32 MachineValue.isZero_ofInt32_zero
  MachineValue.isZero_ofBool

abbrev Identifier := ℕ

inductive Expr (V : Type) where
  | const (value : V)
  | id (x : Identifier)
  | unary (op : V → V) (operand : Expr V)
  | binary (op : V → V → V) (lhs rhs : Expr V)
  | index (field : ℕ) (indices : Expr V)

inductive Stmt (V : Type) where
  | alloca (x : Identifier) (zero : V)
  | assign (x : Identifier) (rhs : Expr V)
  | assignIndex (field : ℕ) (indices rhs : Expr V)
  | ifThen (condition : Expr V) (trueStatements falseStatements : List (Stmt V))
  | breakLoop
  | continueLoop
  | whileLoop (cond : Expr V) (body : List (Stmt V))
  | rangeFor (loopVar : Identifier) (begin last : Expr V) (body : List (Stmt V))

structure State (V : Type) where
  vars : Identifier → V
  fields : ℕ → V → V

variable {V : Type}

def State.assign (s : State V) (x : Identifier) (value : V) : State V :=
  { s with vars := fun y => if y = x then value else s.vars y }

def State.store [DecidableEq V] (s : State V) (field : ℕ) (index value : V) : State V :=
  { s with fields := fun g i => if g = field ∧ i = index then value else s.fields g i }

@[simp] theorem assign_vars_self (s : State V) (x : Identifier) (value : V) :
    (s.assign x value).vars x = value := by
  simp [State.assign]

theorem assign_vars_of_ne {x y : Identifier} (h : y ≠ x) (s : State V) (value : V) :
    (s.assign x value).vars y = s.vars y := by
  simp [State.assign, h]

@[simp] theorem assign_fields (s : State V) (x : Identifier) (value : V) :
    (s.assign x value).fields = s.fields := rfl

@[simp] theorem store_vars [DecidableEq V] (s : State V) (field : ℕ) (index value : V) :
    (s.store field index value).vars = s.vars := rfl

def Expr.eval (s : State V) : Expr V → V
  | .const value => value
  | .id x => s.vars x
  | .unary op operand => op (operand.eval s)
  | .binary op lhs rhs => op (lhs.eval s) (rhs.eval s)
  | .index field indices => s.fields field (indices.eval s)

/-- What a run shows. `next` is not an assignment: a round of the loop over `x` with this index went
to its end, where the loop variable had this value. -/
inductive Event (V : Type) where
  | assign (x : Identifier) (value : V)
  | store (field : ℕ) (index value : V)
  | next (x : Identifier) (index : ℤ) (value : BitVec 32) (last : ℤ)

def Event.observe : Event V → Option (Event V)
  | .next .. => none
  | event => some event

section Meaning

variable [MachineValue V] [DecidableEq V]

def forRound (x : Identifier) (last : ℤ) (body : State V → Outcome (Event V) (State V))
    (p : State V × ℤ) : Outcome (Event V) (State V × ℤ) :=
  if p.2 < last then
    let r := body (p.1.assign x (ofInt32 (BitVec.ofInt 32 p.2)))
    match r.signal with
    | .normal | .continued =>
      ⟨r.trace ++ [.next x p.2 (toInt32 (r.state.vars x)) last], r.signal, r.state, p.2 + 1⟩
    | .broke | .exhausted => ⟨r.trace, r.signal, r.state, p.2⟩
  else
    ⟨[], .broke, p⟩

def whileRound (cond : Expr V) (body : State V → Outcome (Event V) (State V)) (s : State V) :
    Outcome (Event V) (State V) :=
  if isZero (cond.eval s) then ⟨[], .broke, s⟩ else body s

mutual

def Stmt.exec (rounds : ℕ) : Stmt V → State V → Outcome (Event V) (State V)
  | .alloca x zero, s => ⟨[], .normal, s.assign x zero⟩
  | .assign x rhs, s => ⟨[.assign x (rhs.eval s)], .normal, s.assign x (rhs.eval s)⟩
  | .assignIndex field indices rhs, s =>
    ⟨[.store field (indices.eval s) (rhs.eval s)], .normal,
      s.store field (indices.eval s) (rhs.eval s)⟩
  | .ifThen condition trueStatements falseStatements, s =>
    if isZero (condition.eval s) then execBlock rounds falseStatements s
    else execBlock rounds trueStatements s
  | .breakLoop, s => ⟨[], .broke, s⟩
  | .continueLoop, s => ⟨[], .continued, s⟩
  | .whileLoop cond body, s => forever (whileRound cond (execBlock rounds body)) rounds s
  | .rangeFor loopVar begin last body, s =>
    (forever (forRound loopVar (toInt32 (last.eval s)).toInt (execBlock rounds body)) rounds
      (s, (toInt32 (begin.eval s)).toInt)).mapState Prod.fst

def execBlock (rounds : ℕ) : List (Stmt V) → State V → Outcome (Event V) (State V)
  | [], s => skip s
  | stmt :: rest, s => andThen (Stmt.exec rounds stmt) (execBlock rounds rest) s

end

end Meaning

mutual

/-- `stack` is `loop_stack`, with `none` for a while loop; a for loop is known by its variable. -/
def Stmt.detect (stack : List (Option Identifier)) :
    Stmt V → List Identifier → Option (List Identifier)
  | .breakLoop, found =>
    match stack with
    | [] => none
    | none :: _ => some found
    | some x :: _ => some (x :: found)
  | .ifThen _ trueStatements falseStatements, found =>
    (detectBlock stack trueStatements found).bind (detectBlock stack falseStatements)
  | .whileLoop _ body, found => detectBlock (none :: stack) body found
  | .rangeFor loopVar _ _ body, found => detectBlock (some loopVar :: stack) body found
  | .alloca _ _, found => some found
  | .assign _ _, found => some found
  | .assignIndex _ _ _, found => some found
  | .continueLoop, found => some found

def detectBlock (stack : List (Option Identifier)) :
    List (Stmt V) → List Identifier → Option (List Identifier)
  | [], found => some found
  | stmt :: rest, found => (Stmt.detect stack stmt found).bind (detectBlock stack rest)

end

def detectForsWithBreak (root : List (Stmt V)) : Option (List Identifier) :=
  detectBlock [] root []

mutual

def Stmt.breaks : Stmt V → Bool
  | .breakLoop => true
  | .ifThen _ trueStatements falseStatements =>
    breaksBlock trueStatements || breaksBlock falseStatements
  | _ => false

def breaksBlock : List (Stmt V) → Bool
  | [] => false
  | stmt :: rest => stmt.breaks || breaksBlock rest

end

mutual

def Stmt.marked (fors : List Identifier) : Stmt V → Bool
  | .ifThen _ trueStatements falseStatements =>
    markedBlock fors trueStatements && markedBlock fors falseStatements
  | .whileLoop _ body => markedBlock fors body
  | .rangeFor loopVar _ _ body =>
    (fors.contains loopVar || !breaksBlock body) && markedBlock fors body
  | _ => true

def markedBlock (fors : List Identifier) : List (Stmt V) → Bool
  | [] => true
  | stmt :: rest => stmt.marked fors && markedBlock fors rest

end

/-- The loop that a break at this place belongs to, if it is a for loop, is among `fors`. -/
def InnermostMarked (fors : List Identifier) : List (Option Identifier) → Prop
  | [] => False
  | none :: _ => True
  | some x :: _ => x ∈ fors

theorem InnermostMarked.mono {fors fors' : List Identifier} {stack : List (Option Identifier)}
    (h : InnermostMarked fors stack) (hsubset : fors ⊆ fors') : InnermostMarked fors' stack := by
  match stack, h with
  | none :: _, _ => trivial
  | some x :: _, h => exact hsubset h

mutual

theorem Stmt.marked_mono {fors fors' : List Identifier} (hsubset : fors ⊆ fors') :
    ∀ stmt : Stmt V, stmt.marked fors = true → stmt.marked fors' = true
  | .ifThen _ trueStatements falseStatements, h => by
    simp only [Stmt.marked, and_eq_true] at h ⊢
    exact ⟨markedBlock_mono hsubset _ h.1, markedBlock_mono hsubset _ h.2⟩
  | .whileLoop _ body, h => by
    exact markedBlock_mono hsubset _ h
  | .rangeFor loopVar _ _ body, h => by
    simp only [Stmt.marked, and_eq_true, or_eq_true, contains_iff_mem] at h ⊢
    exact ⟨h.1.imp_left fun hmem => hsubset hmem, markedBlock_mono hsubset _ h.2⟩
  | .alloca _ _, _ => by simp only [Stmt.marked]
  | .assign _ _, _ => by simp only [Stmt.marked]
  | .assignIndex _ _ _, _ => by simp only [Stmt.marked]
  | .breakLoop, _ => by simp only [Stmt.marked]
  | .continueLoop, _ => by simp only [Stmt.marked]

theorem markedBlock_mono {fors fors' : List Identifier} (hsubset : fors ⊆ fors') :
    ∀ stmts : List (Stmt V), markedBlock fors stmts = true → markedBlock fors' stmts = true
  | [], _ => rfl
  | stmt :: rest, h => by
    simp only [markedBlock, and_eq_true] at h ⊢
    exact ⟨Stmt.marked_mono hsubset stmt h.1, markedBlock_mono hsubset rest h.2⟩

end

def Detected (stack : List (Option Identifier)) (found found' : List Identifier)
    (breaks : Bool) (marked : List Identifier → Bool) : Prop :=
  found ⊆ found' ∧ (breaks = true → InnermostMarked found' stack) ∧ marked found' = true

mutual

theorem Stmt.detected {stack : List (Option Identifier)} :
    ∀ (stmt : Stmt V) {found found' : List Identifier}, stmt.detect stack found = some found' →
      Detected stack found found' stmt.breaks stmt.marked
  | .breakLoop, found, found', h => by
    match stack, h with
    | none :: _, h =>
      cases h
      exact ⟨fun _ hx => hx, fun _ => trivial, by simp only [Stmt.marked]⟩
    | some x :: _, h =>
      cases h
      refine ⟨fun _ hx => mem_cons_of_mem _ hx, fun _ => ?_, by simp only [Stmt.marked]⟩
      exact mem_cons_self
  | .ifThen _ trueStatements falseStatements, found, found', h => by
    simp only [Stmt.detect, Option.bind_eq_some_iff] at h
    obtain ⟨middle, htrue, hfalse⟩ := h
    obtain ⟨hsubset, hbreaks, hmarked⟩ := detectedBlock trueStatements htrue
    obtain ⟨hsubset', hbreaks', hmarked'⟩ := detectedBlock falseStatements hfalse
    refine ⟨List.Subset.trans hsubset hsubset', fun hb => ?_, ?_⟩
    · simp only [Stmt.breaks, or_eq_true] at hb
      rcases hb with hb | hb
      · exact (hbreaks hb).mono hsubset'
      · exact hbreaks' hb
    · simp only [Stmt.marked, and_eq_true]
      exact ⟨markedBlock_mono hsubset' _ hmarked, hmarked'⟩
  | .whileLoop _ body, found, found', h => by
    obtain ⟨hsubset, -, hmarked⟩ := detectedBlock body h
    exact ⟨hsubset, fun hb => by simp [Stmt.breaks] at hb, by simpa only [Stmt.marked]⟩
  | .rangeFor loopVar _ _ body, found, found', h => by
    obtain ⟨hsubset, hbreaks, hmarked⟩ := detectedBlock body h
    refine ⟨hsubset, fun hb => by simp [Stmt.breaks] at hb, ?_⟩
    simp only [Stmt.marked, and_eq_true, or_eq_true, contains_iff_mem]
    refine ⟨?_, hmarked⟩
    cases hb : breaksBlock body with
    | true => exact .inl (hbreaks hb)
    | false => exact .inr rfl
  | .alloca _ _, found, found', h => by
    simp only [Stmt.detect, Option.some.injEq] at h
    exact ⟨h ▸ fun _ hx => hx, fun hb => by simp [Stmt.breaks] at hb, by simp only [Stmt.marked]⟩
  | .assign _ _, found, found', h => by
    simp only [Stmt.detect, Option.some.injEq] at h
    exact ⟨h ▸ fun _ hx => hx, fun hb => by simp [Stmt.breaks] at hb, by simp only [Stmt.marked]⟩
  | .assignIndex _ _ _, found, found', h => by
    simp only [Stmt.detect, Option.some.injEq] at h
    exact ⟨h ▸ fun _ hx => hx, fun hb => by simp [Stmt.breaks] at hb, by simp only [Stmt.marked]⟩
  | .continueLoop, found, found', h => by
    simp only [Stmt.detect, Option.some.injEq] at h
    exact ⟨h ▸ fun _ hx => hx, fun hb => by simp [Stmt.breaks] at hb, by simp only [Stmt.marked]⟩

theorem detectedBlock {stack : List (Option Identifier)} :
    ∀ (stmts : List (Stmt V)) {found found' : List Identifier},
      detectBlock stack stmts found = some found' →
      Detected stack found found' (breaksBlock stmts) (fun fors => markedBlock fors stmts)
  | [], found, found', h => by
    simp only [detectBlock, Option.some.injEq] at h
    exact ⟨h ▸ fun _ hx => hx, fun hb => by simp [breaksBlock] at hb, rfl⟩
  | stmt :: rest, found, found', h => by
    simp only [detectBlock, Option.bind_eq_some_iff] at h
    obtain ⟨middle, hstmt, hrest⟩ := h
    obtain ⟨hsubset, hbreaks, hmarked⟩ := Stmt.detected stmt hstmt
    obtain ⟨hsubset', hbreaks', hmarked'⟩ := detectedBlock rest hrest
    refine ⟨List.Subset.trans hsubset hsubset', fun hb => ?_, ?_⟩
    · simp only [breaksBlock, or_eq_true] at hb
      rcases hb with hb | hb
      · exact (hbreaks hb).mono hsubset'
      · exact hbreaks' hb
    · simp only [markedBlock, and_eq_true]
      exact ⟨Stmt.marked_mono hsubset' _ hmarked, hmarked'⟩

end

theorem marked_of_detectForsWithBreak {root : List (Stmt V)} {fors : List Identifier}
    (h : detectForsWithBreak root = some fors) :
    markedBlock fors root = true ∧ breaksBlock root = false := by
  obtain ⟨-, hbreaks, hmarked⟩ := detectedBlock root h
  refine ⟨hmarked, ?_⟩
  cases hb : breaksBlock root with
  | true => exact absurd (hbreaks hb) id
  | false => rfl

end Quadrants.LowerAst

/-!
The statements that `LowerAST` produces, what the code generated for them does, and the pass. A
statement is known by its number, and numbers are given in the order in which the pass makes the
statements.
-/

namespace Quadrants.LowerAst

open Library.TracedLoops

section Ir

/-- Statements without control flow. A `localStore` is one that the pass makes itself. -/
inductive Plain (V : Type) where
  | const (dst : ℕ) (value : V)
  | unary (dst : ℕ) (op : V → V) (operand : ℕ)
  | binary (dst : ℕ) (op : V → V → V) (lhs rhs : ℕ)
  | globalLoad (dst field index : ℕ)
  | localLoad (dst src : ℕ)
  | alloca (dst : ℕ) (zero : V)
  | localStore (dest val : ℕ)
  | loopIndex (dst loop : ℕ)

/-- `assignStore` is the `LocalStoreStmt` that an assignment to a variable becomes. -/
inductive Instr (V : Type) where
  | plain (p : Plain V)
  | assignStore (x : Identifier) (dest val : ℕ)
  | globalStore (field index val : ℕ)
  | ifStmt (cond : ℕ) (trueStatements falseStatements : List (Instr V))
  | whileStmt (mask : ℕ) (body : List (Instr V))
  | rangeFor (loop begin last : ℕ) (body : List (Instr V))
  | whileControl (mask cond : ℕ)
  | continueStmt

structure IrState (V : Type) where
  values : ℕ → V
  allocas : ℕ → V
  loopVars : ℕ → V
  fields : ℕ → V → V

variable {V : Type}

def IrState.setValue (t : IrState V) (dst : ℕ) (value : V) : IrState V :=
  { t with values := fun n => if n = dst then value else t.values n }

def IrState.setAlloca (t : IrState V) (dest : ℕ) (value : V) : IrState V :=
  { t with allocas := fun n => if n = dest then value else t.allocas n }

def IrState.setLoopVar (t : IrState V) (loop : ℕ) (value : V) : IrState V :=
  { t with loopVars := fun n => if n = loop then value else t.loopVars n }

def IrState.store [DecidableEq V] (t : IrState V) (field : ℕ) (index value : V) : IrState V :=
  { t with fields := fun g i => if g = field ∧ i = index then value else t.fields g i }

def Plain.step : Plain V → IrState V → IrState V
  | .const dst value, t => t.setValue dst value
  | .unary dst op operand, t => t.setValue dst (op (t.values operand))
  | .binary dst op lhs rhs, t => t.setValue dst (op (t.values lhs) (t.values rhs))
  | .globalLoad dst field index, t => t.setValue dst (t.fields field (t.values index))
  | .localLoad dst src, t => t.setValue dst (t.allocas src)
  | .alloca dst zero, t => t.setAlloca dst zero
  | .localStore dest val, t => t.setAlloca dest (t.values val)
  | .loopIndex dst loop, t => t.setValue dst (t.loopVars loop)

def stepAll (code : List (Plain V)) (t : IrState V) : IrState V :=
  code.foldl (fun t p => p.step t) t

variable [MachineValue V] [DecidableEq V]

/-- The loop of `create_naive_range_for`. A while control inside leaves the while loop around it. -/
structure Counter (V : Type) where
  state : IrState V
  index : BitVec 32
  left : Bool

def rangeRound (loop : ℕ) (last : BitVec 32) (body : IrState V → Outcome (Event V) (IrState V))
    (c : Counter V) : Outcome (Event V) (Counter V) :=
  if c.index.slt last then
    let r := body (c.state.setLoopVar loop (ofInt32 c.index))
    match r.signal with
    | .normal | .continued => ⟨r.trace, r.signal, r.state, c.index + 1, false⟩
    | .broke => ⟨r.trace, r.signal, r.state, c.index, true⟩
    | .exhausted => ⟨r.trace, r.signal, r.state, c.index, false⟩
  else
    ⟨[], .broke, c⟩

def leaveRange (r : Outcome (Event V) (Counter V)) : Outcome (Event V) (IrState V) :=
  ⟨r.trace, if r.state.left then .broke else r.signal, r.state.state⟩

mutual

def Instr.run (rounds : ℕ) : Instr V → IrState V → Outcome (Event V) (IrState V)
  | .plain p, t => ⟨[], .normal, p.step t⟩
  | .assignStore x dest val, t =>
    ⟨[.assign x (t.values val)], .normal, t.setAlloca dest (t.values val)⟩
  | .globalStore field index val, t =>
    ⟨[.store field (t.values index) (t.values val)], .normal,
      t.store field (t.values index) (t.values val)⟩
  | .ifStmt cond trueStatements falseStatements, t =>
    if isZero (t.values cond) then runBlock rounds falseStatements t
    else runBlock rounds trueStatements t
  | .whileStmt _ body, t => forever (runBlock rounds body) rounds t
  | .rangeFor loop begin last body, t =>
    leaveRange (forever (rangeRound loop (toInt32 (t.values last)) (runBlock rounds body)) rounds
      ⟨t, toInt32 (t.values begin), false⟩)
  | .whileControl _ cond, t =>
    if isZero (t.values cond) then ⟨[], .broke, t⟩ else ⟨[], .normal, t⟩
  | .continueStmt, t => ⟨[], .continued, t⟩

def runBlock (rounds : ℕ) : List (Instr V) → IrState V → Outcome (Event V) (IrState V)
  | [], t => skip t
  | instr :: rest, t => andThen (Instr.run rounds instr) (runBlock rounds rest) t

end

end Ir

section Pass

variable {V : Type}

/-- What an identifier stands for: an `AllocaStmt`, or a `LoopIndexStmt`, which is a value. -/
inductive Place where
  | alloca (n : ℕ)
  | index (n : ℕ)

/-- The `local_var_to_stmt` of a block and of the blocks around it. -/
abbrev Scope := List (List (Identifier × Place))

def Scope.lookupVar : Scope → Identifier → Option Place
  | [], _ => none
  | block :: parents, x =>
    match block.lookup x with
    | some place => some place
    | none => Scope.lookupVar parents x

def Scope.insert (x : Identifier) (place : Place) : Scope → Scope
  | [] => [[(x, place)]]
  | block :: parents => ((x, place) :: block) :: parents

def Scope.inBlock (x : Identifier) : Scope → Bool
  | [] => false
  | block :: _ => (block.lookup x).isSome

structure Flattened (V : Type) where
  stmts : List (Plain V)
  result : ℕ
  next : ℕ

def Expr.flatten (scope : Scope) : Expr V → ℕ → Option (Flattened V)
  | .const value, n => some ⟨[.const n value], n, n + 1⟩
  | .id x, n =>
    match scope.lookupVar x with
    | some (.alloca a) => some ⟨[.localLoad n a], n, n + 1⟩
    | some (.index r) => some ⟨[], r, n⟩
    | none => none
  | .unary op operand, n => do
      let e ← operand.flatten scope n
      some ⟨e.stmts ++ [.unary e.next op e.result], e.next, e.next + 1⟩
  | .binary op lhs rhs, n => do
      let l ← lhs.flatten scope n
      let r ← rhs.flatten scope l.next
      some ⟨l.stmts ++ r.stmts ++ [.binary r.next op l.result r.result], r.next, r.next + 1⟩
  | .index field indices, n => do
      let e ← indices.flatten scope n
      some ⟨e.stmts ++ [.globalLoad e.next field e.result], e.next, e.next + 1⟩

structure Lowered (V : Type) where
  code : List (Instr V)
  scope : Scope
  next : ℕ

variable [MachineValue V]

def subInt32 (a b : V) : V := ofInt32 (toInt32 a - toInt32 b)

def addInt32 (a b : V) : V := ofInt32 (toInt32 a + toInt32 b)

def cmpLtInt32 (a b : V) : V := ofBool ((toInt32 a).slt (toInt32 b))

def makeMask (mask ones : ℕ) : List (Plain V) :=
  [.alloca mask (ofInt32 0), .const ones (ofInt32 0xFFFFFFFF), .localStore mask ones]

def startLoopVar (loopVar one begin beginMinusOne : ℕ) : List (Plain V) :=
  [.alloca loopVar (ofInt32 0), .const one (ofInt32 1),
    .binary beginMinusOne subInt32 begin one, .localStore loopVar beginMinusOne]

def loadAndCompare (loopVar one last load addOne cond mask : ℕ) : List (Instr V) :=
  [.plain (.localLoad load loopVar), .plain (.binary addOne addInt32 load one),
    .plain (.binary cond cmpLtInt32 addOne last), .whileControl mask cond,
    .plain (.localStore loopVar addOne)]

mutual

def Stmt.lower (fors : List Identifier) (capturing : Option ℕ) :
    Stmt V → Scope → ℕ → Option (Lowered V)
  | .alloca x zero, scope, n =>
    if scope.inBlock x then none
    else some ⟨[.plain (.alloca n zero)], scope.insert x (.alloca n), n + 1⟩
  | .assign x rhs, scope, n => do
      let e ← rhs.flatten scope n
      match scope.lookupVar x with
      | some (.alloca a) =>
        some ⟨e.stmts.map .plain ++ [.assignStore x a e.result], scope, e.next⟩
      | _ => none
  | .assignIndex field indices rhs, scope, n => do
      let e ← rhs.flatten scope n
      let i ← indices.flatten scope e.next
      some ⟨(e.stmts ++ i.stmts).map .plain ++ [.globalStore field i.result e.result], scope,
        i.next⟩
  | .ifThen condition trueStatements falseStatements, scope, n => do
      let c ← condition.flatten scope n
      let t ← lowerBlock fors capturing trueStatements ([] :: scope) c.next
      let f ← lowerBlock fors capturing falseStatements ([] :: scope) t.next
      some ⟨c.stmts.map .plain ++ [.ifStmt c.result t.code f.code], scope, f.next⟩
  | .breakLoop, scope, n => do
      let mask ← capturing
      some ⟨[.plain (.const n (ofInt32 0)), .whileControl mask n], scope, n + 1⟩
  | .continueLoop, scope, n => some ⟨[.continueStmt], scope, n⟩
  | .whileLoop cond body, scope, n => do
      let c ← cond.flatten scope n
      let mask := c.next
      let b ← lowerBlock fors (some mask) body ([] :: scope) (c.next + 2)
      some ⟨(makeMask mask (c.next + 1)).map .plain ++
        [.whileStmt mask (c.stmts.map .plain ++ .whileControl mask c.result :: b.code)], scope,
        b.next⟩
  | .rangeFor loopVar begin last body, scope, n => do
      let b ← begin.flatten scope n
      let e ← last.flatten scope b.next
      if fors.contains loopVar then
        let i := e.next
        let one := e.next + 1
        let mask := e.next + 3
        let inner ← lowerBlock fors (some mask) body ([] :: scope.insert loopVar (.alloca i))
          (e.next + 9)
        some ⟨(Plain.alloca (e.next + 5) (ofInt32 0) :: makeMask mask (e.next + 4) ++
            (b.stmts ++ e.stmts) ++ startLoopVar i one b.result (e.next + 2)).map .plain ++
          [.whileStmt mask (loadAndCompare i one e.result (e.next + 6) (e.next + 7) (e.next + 8)
            mask ++ inner.code)], scope.insert loopVar (.alloca i), inner.next⟩
      else
        let loop := e.next
        let index := e.next + 1
        let inner ← lowerBlock fors none body (Scope.insert loopVar (.index index) ([] :: scope))
          (e.next + 2)
        some ⟨(b.stmts ++ e.stmts).map .plain ++
          [.rangeFor loop b.result e.result (.plain (.loopIndex index loop) :: inner.code)], scope,
          inner.next⟩

def lowerBlock (fors : List Identifier) (capturing : Option ℕ) :
    List (Stmt V) → Scope → ℕ → Option (Lowered V)
  | [], scope, n => some ⟨[], scope, n⟩
  | stmt :: rest, scope, n => do
      let first ← Stmt.lower fors capturing stmt scope n
      let others ← lowerBlock fors capturing rest first.scope first.next
      some ⟨first.code ++ others.code, others.scope, others.next⟩

end

def lowerAst (root : List (Stmt V)) : Option (List (Instr V)) := do
  let fors ← detectForsWithBreak root
  let lowered ← lowerBlock fors none root [[]] 0
  some lowered.code

end Pass

end Quadrants.LowerAst
