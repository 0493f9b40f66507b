import Quadrants.LowerAst.Scoped

/-!
How the states of a frontend body and of its lowered form are related, and what the pieces that the
pass makes do to them: flattened expressions, the start of a loop and the head of its body.
-/

namespace Quadrants.LowerAst

open Library.TracedLoops List Nat Option

variable {V : Type}

def Place.value (t : IrState V) : Place → V
  | .alloca a => t.allocas a
  | .index r => t.values r

structure Related (visible : List Identifier) (scope : Scope) (s : State V) (t : IrState V) :
    Prop where
  fields : t.fields = s.fields
  vars : ∀ x ∈ visible, ∀ place, scope.lookupVar x = some place → place.value t = s.vars x

structure Undisturbed (n : ℕ) (t t' : IrState V) : Prop where
  values : ∀ k < n, t'.values k = t.values k
  allocas : ∀ k < n, t'.allocas k = t.allocas k
  fields : t'.fields = t.fields

namespace Undisturbed

variable {n : ℕ} {t t' t'' : IrState V}

theorem refl (n : ℕ) (t : IrState V) : Undisturbed n t t :=
  ⟨fun _ _ => rfl, fun _ _ => rfl, rfl⟩

theorem mono (h : Undisturbed n t t') {m : ℕ} (hle : m ≤ n) : Undisturbed m t t' :=
  ⟨fun k hk => h.values k (Nat.lt_of_lt_of_le hk hle),
    fun k hk => h.allocas k (Nat.lt_of_lt_of_le hk hle), h.fields⟩

theorem trans (h : Undisturbed n t t') (h' : Undisturbed n t' t'') : Undisturbed n t t'' :=
  ⟨fun k hk => (h'.values k hk).trans (h.values k hk),
    fun k hk => (h'.allocas k hk).trans (h.allocas k hk), h'.fields.trans h.fields⟩

theorem setValue (h : Undisturbed n t t') {dst : ℕ} (hdst : n ≤ dst) (value : V) :
    Undisturbed n t (t'.setValue dst value) := by
  refine ⟨fun k hk => ?_, h.allocas, h.fields⟩
  rw [← h.values k hk]
  exact if_neg (by omega)

theorem setAlloca (h : Undisturbed n t t') {dest : ℕ} (hdest : n ≤ dest) (value : V) :
    Undisturbed n t (t'.setAlloca dest value) := by
  refine ⟨h.values, fun k hk => ?_, h.fields⟩
  rw [← h.allocas k hk]
  exact if_neg (by omega)

theorem setLoopVar (h : Undisturbed n t t') (loop : ℕ) (value : V) :
    Undisturbed n t (t'.setLoopVar loop value) :=
  ⟨h.values, h.allocas, h.fields⟩

end Undisturbed

variable (t : IrState V)

theorem setValue_values_self (dst : ℕ) (value : V) :
    (t.setValue dst value).values dst = value := if_pos rfl

theorem setValue_values_of_ne {dst k : ℕ} (h : k ≠ dst) (value : V) :
    (t.setValue dst value).values k = t.values k := if_neg h

theorem setAlloca_allocas_self (dest : ℕ) (value : V) :
    (t.setAlloca dest value).allocas dest = value := if_pos rfl

theorem setAlloca_allocas_of_ne {dest k : ℕ} (h : k ≠ dest) (value : V) :
    (t.setAlloca dest value).allocas k = t.allocas k := if_neg h

namespace Related

variable {visible : List Identifier} {scope : Scope} {n : ℕ} {s : State V} {t t' : IrState V}

theorem undisturbed (h : Related visible scope s t) (hcovers : Covers scope visible n)
    (ht : Undisturbed n t t') : Related visible scope s t' := by
  refine ⟨ht.fields.trans h.fields, fun x hx place hplace => ?_⟩
  rw [← h.vars x hx place hplace]
  have hlt := hcovers.number_lt hx hplace
  cases place with
  | alloca a => exact ht.allocas a hlt
  | index r => exact ht.values r hlt

theorem assign_of_notMem (h : Related visible scope s t) {x : Identifier} (hx : x ∉ visible)
    (value : V) : Related visible scope (s.assign x value) t := by
  refine ⟨h.fields, fun y hy place hplace => ?_⟩
  rw [assign_vars_of_ne (by rintro rfl; exact hx hy)]
  exact h.vars y hy place hplace

theorem push (h : Related visible scope s t) : Related visible ([] :: scope) s t :=
  ⟨h.fields, fun x hx place hplace => h.vars x hx place (by rwa [lookupVar_nil_cons] at hplace)⟩

theorem pop (h : Related visible ([] :: scope) s t) : Related visible scope s t :=
  ⟨h.fields, fun x hx place hplace => h.vars x hx place (by rwa [lookupVar_nil_cons])⟩

theorem insert (h : Related visible scope s t) {x : Identifier} (hx : x ∉ visible) {place : Place}
    (hplace : place.value t = s.vars x) : Related (x :: visible) (scope.insert x place) s t := by
  refine ⟨h.fields, fun y hy place' hplace' => ?_⟩
  rw [lookupVar_insert] at hplace'
  rcases mem_cons.1 hy with rfl | hmem
  · rw [if_pos rfl] at hplace'
    cases hplace'
    exact hplace
  · rw [if_neg (by rintro rfl; exact hx hmem)] at hplace'
    exact h.vars y hmem place' hplace'

theorem restrict {visible' : List Identifier} {scope' : Scope}
    (h : Related visible' scope' s t) (hvisible : visible ⊆ visible')
    (hlookup : ∀ x ∈ visible, scope'.lookupVar x = scope.lookupVar x) :
    Related visible scope s t := by
  refine ⟨h.fields, fun x hx place hplace => ?_⟩
  exact h.vars x (hvisible hx) place (by rw [hlookup x hx, hplace])

theorem assign (h : Related visible scope s t) (hcovers : Covers scope visible n) {x : Identifier}
    (hx : x ∈ visible) {a : ℕ} (ha : scope.lookupVar x = some (.alloca a)) (value : V) :
    Related visible scope (s.assign x value) (t.setAlloca a value) := by
  refine ⟨h.fields, fun y hy place hplace => ?_⟩
  by_cases heq : y = x
  · subst heq
    rw [ha] at hplace
    cases hplace
    rw [assign_vars_self]
    exact setAlloca_allocas_self t a value
  · rw [assign_vars_of_ne heq, ← h.vars y hy place hplace]
    cases place with
    | alloca a' =>
      refine setAlloca_allocas_of_ne t ?_ value
      rintro rfl
      exact heq (hcovers.distinct y hy x hx _ hplace ha)
    | index r => rfl

theorem store [DecidableEq V] (h : Related visible scope s t) (field : ℕ) (index value : V) :
    Related visible scope (s.store field index value) (t.store field index value) := by
  refine ⟨?_, fun x hx place hplace => ?_⟩
  · simp only [State.store, IrState.store, h.fields]
  · rw [store_vars, ← h.vars x hx place hplace]
    cases place <;> rfl

end Related

section Code

theorem stepAll_append (code rest : List (Plain V)) (t : IrState V) :
    stepAll (code ++ rest) t = stepAll rest (stepAll code t) :=
  foldl_append

@[simp] theorem stepAll_nil (t : IrState V) : stepAll [] t = t := rfl

theorem Expr.flatten_correct {visible : List Identifier} {scope : Scope} (e : Expr V) {n : ℕ}
    (hcovers : Covers scope visible n) (hinScope : e.inScope visible = true) {f : Flattened V}
    (hf : e.flatten scope n = some f) : f.result < f.next ∧ ∀ s t, Related visible scope s t →
      Undisturbed n t (stepAll f.stmts t) ∧ (stepAll f.stmts t).values f.result = e.eval s := by
  induction e generalizing n f with
  | const value =>
    simp only [Expr.flatten, Option.some.injEq] at hf
    subst hf
    refine ⟨lt_succ_self n, fun s t h => ⟨?_, setValue_values_self t n value⟩⟩
    exact (Undisturbed.refl n t).setValue (Nat.le_refl n) value
  | id x =>
    have hx : x ∈ visible := by simpa [Expr.inScope] using hinScope
    simp only [Expr.flatten] at hf
    split at hf
    · next a ha =>
        cases hf
        refine ⟨lt_succ_self n, fun s t h => ⟨?_, ?_⟩⟩
        · exact (Undisturbed.refl n t).setValue (Nat.le_refl n) _
        · exact (setValue_values_self t n _).trans (h.vars x hx _ ha)
    · next r hr =>
        cases hf
        exact ⟨hcovers.number_lt hx hr, fun s t h => ⟨.refl n t, h.vars x hx _ hr⟩⟩
    · cases hf
  | unary op operand ih =>
    simp only [Expr.flatten, bind_eq_bind, bind_eq_some_iff] at hf
    obtain ⟨e, he, hf⟩ := hf
    cases hf
    obtain ⟨hlt, hcorrect⟩ := ih hcovers hinScope he
    refine ⟨lt_succ_self _, fun s t h => ?_⟩
    obtain ⟨hkept, hvalue⟩ := hcorrect s t h
    rw [stepAll_append]
    refine ⟨hkept.setValue (operand.le_next he) _, ?_⟩
    rw [Expr.eval, ← hvalue]
    exact setValue_values_self _ _ _
  | binary op lhs rhs ihl ihr =>
    simp only [Expr.flatten, bind_eq_bind, bind_eq_some_iff] at hf
    simp only [Expr.inScope, Bool.and_eq_true] at hinScope
    obtain ⟨l, hl, r, hr, hf⟩ := hf
    cases hf
    have hnext := lhs.le_next hl
    obtain ⟨hlt, hcorrect⟩ := ihl hcovers hinScope.1 hl
    obtain ⟨hlt', hcorrect'⟩ := ihr (hcovers.mono hnext) hinScope.2 hr
    refine ⟨lt_succ_self _, fun s t h => ?_⟩
    obtain ⟨hkept, hvalue⟩ := hcorrect s t h
    obtain ⟨hkept', hvalue'⟩ := hcorrect' s _ (h.undisturbed hcovers hkept)
    rw [stepAll_append, stepAll_append]
    refine ⟨(hkept.trans (hkept'.mono hnext)).setValue (Nat.le_trans hnext (rhs.le_next hr)) _, ?_⟩
    rw [Expr.eval, ← hvalue, ← hvalue', ← hkept'.values _ hlt]
    exact setValue_values_self _ _ _
  | index field indices ih =>
    simp only [Expr.flatten, bind_eq_bind, bind_eq_some_iff] at hf
    obtain ⟨e, he, hf⟩ := hf
    cases hf
    obtain ⟨hlt, hcorrect⟩ := ih hcovers hinScope he
    refine ⟨lt_succ_self _, fun s t h => ?_⟩
    obtain ⟨hkept, hvalue⟩ := hcorrect s t h
    rw [stepAll_append]
    refine ⟨hkept.setValue (indices.le_next he) _, ?_⟩
    rw [Expr.eval, ← hvalue, ← h.fields, ← hkept.fields]
    exact setValue_values_self _ _ _

variable [MachineValue V] [DecidableEq V]

variable (rounds : ℕ)

theorem runBlock_append (code rest : List (Instr V)) (t : IrState V) :
    runBlock rounds (code ++ rest) t =
      andThen (runBlock rounds code) (runBlock rounds rest) t := by
  induction code generalizing t with
  | nil => simp [runBlock, andThen, skip, after_nil]
  | cons instr code ih =>
    have hrest : runBlock rounds (code ++ rest) =
        andThen (runBlock rounds code) (runBlock rounds rest) := funext ih
    have hcons : runBlock rounds (instr :: code) =
        andThen (Instr.run rounds instr) (runBlock rounds code) := by
      simp only [runBlock]
    rw [cons_append, runBlock, hrest, hcons, andThen_assoc]

theorem runBlock_plain_cons (p : Plain V) (rest : List (Instr V)) (t : IrState V) :
    runBlock rounds (.plain p :: rest) t = runBlock rounds rest (p.step t) := by
  simp [runBlock, Instr.run, andThen, after_nil]

theorem runBlock_plain_append (code : List (Plain V)) (rest : List (Instr V)) (t : IrState V) :
    runBlock rounds (code.map .plain ++ rest) t = runBlock rounds rest (stepAll code t) := by
  induction code generalizing t with
  | nil => rfl
  | cons p code ih =>
    rw [map_cons, cons_append, runBlock_plain_cons, ih]
    rfl

theorem runBlock_singleton (instr : Instr V) (t : IrState V) :
    runBlock rounds [instr] t = instr.run rounds t := by
  have hnil : runBlock rounds ([] : List (Instr V)) = skip := by
    simp only [runBlock]
  rw [runBlock, hnil, andThen_skip]

theorem runBlock_whileControl (rounds mask cond : ℕ) (rest : List (Instr V)) (t : IrState V) :
    runBlock rounds (.whileControl mask cond :: rest) t =
      if isZero (t.values cond) then ⟨[], .broke, t⟩ else runBlock rounds rest t := by
  cases h : isZero (t.values cond) <;> simp [runBlock, Instr.run, andThen, h, after_nil]

end Code

end Quadrants.LowerAst
