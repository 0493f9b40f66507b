import Quadrants.LowerAst.Lower

/-!
Bodies as the frontend builds them: every variable is declared once, and only used where it is
visible. For these, the pass finds the statement of every identifier.
-/

namespace Quadrants.LowerAst

open List Option

variable {V : Type}

def Expr.inScope (visible : List Identifier) : Expr V → Bool
  | .const _ => true
  | .id x => visible.contains x
  | .unary _ operand => operand.inScope visible
  | .binary _ lhs rhs => lhs.inScope visible && rhs.inScope visible
  | .index _ indices => indices.inScope visible

def Stmt.declares : Stmt V → List Identifier
  | .alloca x _ => [x]
  | _ => []

mutual

def Stmt.inScope (visible : List Identifier) : Stmt V → Bool
  | .assign x rhs => visible.contains x && rhs.inScope visible
  | .assignIndex _ indices rhs => indices.inScope visible && rhs.inScope visible
  | .ifThen condition trueStatements falseStatements =>
    condition.inScope visible && inScopeBlock visible trueStatements &&
      inScopeBlock visible falseStatements
  | .whileLoop cond body => cond.inScope visible && inScopeBlock visible body
  | .rangeFor loopVar begin last body =>
    begin.inScope visible && last.inScope visible && inScopeBlock (loopVar :: visible) body
  | .alloca _ _ => true
  | .breakLoop => true
  | .continueLoop => true

def inScopeBlock (visible : List Identifier) : List (Stmt V) → Bool
  | [] => true
  | stmt :: rest => stmt.inScope visible && inScopeBlock (stmt.declares ++ visible) rest

end

mutual

def Stmt.declared : Stmt V → List Identifier
  | .alloca x _ => [x]
  | .ifThen _ trueStatements falseStatements =>
    declaredBlock trueStatements ++ declaredBlock falseStatements
  | .whileLoop _ body => declaredBlock body
  | .rangeFor loopVar _ _ body => loopVar :: declaredBlock body
  | _ => []

def declaredBlock : List (Stmt V) → List Identifier
  | [] => []
  | stmt :: rest => stmt.declared ++ declaredBlock rest

end

def Stmt.binds : Stmt V → List Identifier
  | .alloca x _ => [x]
  | .rangeFor loopVar _ _ _ => [loopVar]
  | _ => []

theorem Stmt.binds_subset (stmt : Stmt V) : stmt.binds ⊆ stmt.declared := by
  cases stmt <;> simp [Stmt.binds, Stmt.declared]

structure WellFormed (root : List (Stmt V)) : Prop where
  inScope : inScopeBlock [] root = true
  unique : (declaredBlock root).Nodup

mutual

def Stmt.assigned : Stmt V → List Identifier
  | .assign x _ => [x]
  | .ifThen _ trueStatements falseStatements =>
    assignedBlock trueStatements ++ assignedBlock falseStatements
  | .whileLoop _ body => assignedBlock body
  | .rangeFor _ _ _ body => assignedBlock body
  | _ => []

def assignedBlock : List (Stmt V) → List Identifier
  | [] => []
  | stmt :: rest => stmt.assigned ++ assignedBlock rest

end

mutual

def Stmt.indexKept (fors : List Identifier) : Stmt V → Bool
  | .ifThen _ trueStatements falseStatements =>
    indexKeptBlock fors trueStatements && indexKeptBlock fors falseStatements
  | .whileLoop _ body => indexKeptBlock fors body
  | .rangeFor loopVar _ _ body =>
    (fors.contains loopVar || !(assignedBlock body).contains loopVar) &&
      indexKeptBlock fors body
  | _ => true

def indexKeptBlock (fors : List Identifier) : List (Stmt V) → Bool
  | [] => true
  | stmt :: rest => stmt.indexKept fors && indexKeptBlock fors rest

end

theorem lookupVar_insert (x y : Identifier) (place : Place) (scope : Scope) :
    (scope.insert x place).lookupVar y = if y = x then some place else scope.lookupVar y := by
  by_cases h : y = x
  · subst h
    cases scope <;> simp [Scope.insert, Scope.lookupVar]
  · have hne : (y == x) = false := by simpa using h
    cases scope <;> simp [Scope.insert, Scope.lookupVar, List.lookup_cons, h, hne]

variable {x : Identifier}

theorem lookupVar_insert_of_ne {y : Identifier} (h : y ≠ x) (place : Place) (scope : Scope) :
    (scope.insert x place).lookupVar y = scope.lookupVar y := by
  rw [lookupVar_insert, if_neg h]

@[simp] theorem lookupVar_nil_cons (scope : Scope) (x : Identifier) :
    Scope.lookupVar ([] :: scope) x = scope.lookupVar x := by
  simp [Scope.lookupVar]

theorem inBlock_of_lookupVar_none {scope : Scope}
    (h : scope.lookupVar x = none) : scope.inBlock x = false := by
  cases scope with
  | nil => rfl
  | cons block parents =>
    simp only [Scope.lookupVar] at h
    cases hlookup : block.lookup x with
    | none => simp [Scope.inBlock, hlookup]
    | some place => simp [hlookup] at h

def Place.number : Place → ℕ
  | .alloca n => n
  | .index n => n

/-- The visible variables have statements with numbers below `n`, and no two of them the same
`AllocaStmt`. -/
structure Covers (scope : Scope) (visible : List Identifier) (n : ℕ) : Prop where
  found : ∀ x ∈ visible, ∃ place, scope.lookupVar x = some place ∧ place.number < n
  distinct : ∀ x ∈ visible, ∀ y ∈ visible, ∀ a, scope.lookupVar x = some (.alloca a) →
    scope.lookupVar y = some (.alloca a) → x = y

namespace Covers

variable {scope : Scope} {visible : List Identifier} {n : ℕ}

variable {x : Identifier}

variable {place : Place}

theorem number_lt (h : Covers scope visible n) (hx : x ∈ visible)
    (hplace : scope.lookupVar x = some place) : place.number < n := by
  obtain ⟨place', hplace', hlt⟩ := h.found x hx
  rw [hplace] at hplace'
  cases hplace'
  exact hlt

theorem notMem (h : Covers scope visible n) (hx : scope.lookupVar x = none) : x ∉ visible := by
  intro hmem
  obtain ⟨place, hplace, -⟩ := h.found x hmem
  rw [hx] at hplace
  cases hplace

theorem mono (h : Covers scope visible n) {n' : ℕ} (hle : n ≤ n') : Covers scope visible n' := by
  refine ⟨fun x hx => ?_, h.distinct⟩
  obtain ⟨place, hplace, hlt⟩ := h.found x hx
  exact ⟨place, hplace, Nat.lt_of_lt_of_le hlt hle⟩

theorem push (h : Covers scope visible n) : Covers ([] :: scope) visible n := by
  refine ⟨fun x hx => ?_, fun x hx y hy a hxa hya => ?_⟩
  · obtain ⟨place, hplace, hlt⟩ := h.found x hx
    exact ⟨place, by rw [lookupVar_nil_cons, hplace], hlt⟩
  · exact h.distinct x hx y hy a hxa hya

theorem keep (h : Covers scope visible n) (hx : x ∉ visible) (place : Place) :
    Covers (scope.insert x place) visible n := by
  have hlookup : ∀ y ∈ visible, (scope.insert x place).lookupVar y = scope.lookupVar y :=
    fun y hy => lookupVar_insert_of_ne (by rintro rfl; exact hx hy) _ _
  refine ⟨fun y hy => ?_, fun y hy z hz a hya hza => ?_⟩
  · rw [hlookup y hy]
    exact h.found y hy
  · rw [hlookup y hy] at hya
    rw [hlookup z hz] at hza
    exact h.distinct y hy z hz a hya hza

theorem insert (h : Covers scope visible n) (hx : x ∉ visible) (hplace : n ≤ place.number) :
    Covers (scope.insert x place) (x :: visible) (place.number + 1) := by
  have hself : (scope.insert x place).lookupVar x = some place := by
    rw [lookupVar_insert, if_pos rfl]
  have hkeep := h.keep hx place
  have hother : ∀ y ∈ visible, ∀ a, (scope.insert x place).lookupVar y = some (.alloca a) →
      place ≠ .alloca a := by
    rintro y hy a hya rfl
    exact absurd (hkeep.number_lt hy hya) (by simpa using hplace)
  refine ⟨fun y hy => ?_, fun y hy z hz a hya hza => ?_⟩
  · rcases mem_cons.1 hy with rfl | hy
    · exact ⟨place, hself, Nat.lt_succ_self _⟩
    · exact (hkeep.mono (Nat.le_succ_of_le hplace)).found y hy
  · rcases mem_cons.1 hy with rfl | hmem
    · rcases mem_cons.1 hz with rfl | hz
      · rfl
      · rw [hself] at hya
        exact absurd (Option.some.inj hya) (hother z hz a hza)
    · rcases mem_cons.1 hz with rfl | hz
      · rw [hself] at hza
        exact absurd (Option.some.inj hza) (hother y hmem a hya)
      · exact hkeep.distinct y hmem z hz a hya hza

end Covers

section Numbers

variable {capturing : Option ℕ} {l : Lowered V} {n : ℕ} {scope : Scope}

theorem Expr.le_next (e : Expr V) {f : Flattened V}
    (h : e.flatten scope n = some f) : n ≤ f.next := by
  induction e generalizing n f with
  | const value =>
    simp only [Expr.flatten, Option.some.injEq] at h
    subst h
    exact Nat.le_succ n
  | id x =>
    simp only [Expr.flatten] at h
    split at h
    · cases h
      exact Nat.le_succ n
    · cases h
      exact Nat.le_refl n
    · cases h
  | unary op operand ih =>
    simp only [Expr.flatten, bind_eq_bind, bind_eq_some_iff] at h
    obtain ⟨e, he, h⟩ := h
    cases h
    exact Nat.le_succ_of_le (ih he)
  | binary op lhs rhs ihl ihr =>
    simp only [Expr.flatten, bind_eq_bind, bind_eq_some_iff] at h
    obtain ⟨l, hl, r, hr, h⟩ := h
    cases h
    exact Nat.le_succ_of_le (Nat.le_trans (ihl hl) (ihr hr))
  | index field indices ih =>
    simp only [Expr.flatten, bind_eq_bind, bind_eq_some_iff] at h
    obtain ⟨e, he, h⟩ := h
    cases h
    exact Nat.le_succ_of_le (ih he)

variable {visible : List Identifier} {x : Identifier}

theorem Expr.exists_flatten
    (hfound : ∀ x ∈ visible, ∃ place, scope.lookupVar x = some place) (e : Expr V)
    (hinScope : e.inScope visible = true) (n : ℕ) : ∃ f, e.flatten scope n = some f := by
  induction e generalizing n with
  | const value => exact ⟨_, rfl⟩
  | id x =>
    obtain ⟨place, hplace⟩ := hfound x (by simpa [Expr.inScope] using hinScope)
    cases place with
    | alloca a => exact ⟨_, by simp only [Expr.flatten, hplace]; rfl⟩
    | index r => exact ⟨_, by simp only [Expr.flatten, hplace]; rfl⟩
  | unary op operand ih =>
    obtain ⟨f, hf⟩ := ih hinScope n
    exact ⟨_, by simp only [Expr.flatten, hf, bind_eq_bind, bind_some]; rfl⟩
  | binary op lhs rhs ihl ihr =>
    simp only [Expr.inScope, Bool.and_eq_true] at hinScope
    obtain ⟨l, hl⟩ := ihl hinScope.1 n
    obtain ⟨r, hr⟩ := ihr hinScope.2 l.next
    exact ⟨_, by simp only [Expr.flatten, hl, hr, bind_eq_bind, bind_some]; rfl⟩
  | index field indices ih =>
    obtain ⟨f, hf⟩ := ih hinScope n
    exact ⟨_, by simp only [Expr.flatten, hf, bind_eq_bind, bind_some]; rfl⟩

variable [MachineValue V] {fors : List Identifier}

theorem lower_assign {rhs : Expr V}
    (h : (Stmt.assign x rhs).lower fors capturing scope n = some l) :
    ∃ e a, rhs.flatten scope n = some e ∧ scope.lookupVar x = some (.alloca a) ∧
      l = ⟨e.stmts.map .plain ++ [.assignStore x a e.result], scope, e.next⟩ := by
  simp only [Stmt.lower, bind_eq_bind, bind_eq_some_iff] at h
  obtain ⟨e, he, h⟩ := h
  split at h
  · next a ha => exact ⟨e, a, he, ha, (Option.some.inj h).symm⟩
  · cases h

theorem lower_rangeFor {begin last : Expr V} {body : List (Stmt V)}
    (h : (Stmt.rangeFor x begin last body).lower fors capturing scope n = some l) :
    ∃ b e, begin.flatten scope n = some b ∧ last.flatten scope b.next = some e ∧
      ((fors.contains x = true ∧ ∃ inner,
        lowerBlock fors (some (e.next + 3)) body ([] :: scope.insert x (.alloca e.next))
          (e.next + 9) = some inner ∧
        l = ⟨(Plain.alloca (e.next + 5) (ofInt32 0) :: makeMask (e.next + 3) (e.next + 4) ++
            (b.stmts ++ e.stmts) ++
            startLoopVar e.next (e.next + 1) b.result (e.next + 2)).map .plain ++
          [.whileStmt (e.next + 3) (loadAndCompare e.next (e.next + 1) e.result (e.next + 6)
            (e.next + 7) (e.next + 8) (e.next + 3) ++ inner.code)],
          scope.insert x (.alloca e.next), inner.next⟩) ∨
      (fors.contains x = false ∧ ∃ inner,
        lowerBlock fors none body (Scope.insert x (.index (e.next + 1)) ([] :: scope))
          (e.next + 2) = some inner ∧
        l = ⟨(b.stmts ++ e.stmts).map .plain ++ [.rangeFor e.next b.result e.result
            (.plain (.loopIndex (e.next + 1) e.next) :: inner.code)], scope, inner.next⟩)) := by
  simp only [Stmt.lower, bind_eq_bind, bind_eq_some_iff] at h
  obtain ⟨b, hb, e, he, h⟩ := h
  refine ⟨b, e, hb, he, ?_⟩
  split at h
  · next hmarked =>
      simp only [bind_eq_some_iff] at h
      obtain ⟨inner, hinner, h⟩ := h
      exact .inl ⟨hmarked, inner, hinner, (Option.some.inj h).symm⟩
  · next hmarked =>
      simp only [bind_eq_some_iff] at h
      obtain ⟨inner, hinner, h⟩ := h
      exact .inr ⟨by simpa using hmarked, inner, hinner, (Option.some.inj h).symm⟩

mutual

theorem Stmt.lower_scope : ∀ (stmt : Stmt V) {capturing : Option ℕ} {scope : Scope} {n : ℕ}
    {l : Lowered V}, stmt.lower fors capturing scope n = some l →
      n ≤ l.next ∧ ∀ y ∉ stmt.binds, l.scope.lookupVar y = scope.lookupVar y
  | .alloca x zero, capturing, scope, n, l, h => by
    simp only [Stmt.lower] at h
    split at h
    · cases h
    · cases h
      refine ⟨Nat.le_succ n, fun y hy => lookupVar_insert_of_ne ?_ _ _⟩
      simpa [Stmt.binds] using hy
  | .assign x rhs, capturing, scope, n, l, h => by
    obtain ⟨e, a, he, -, rfl⟩ := lower_assign h
    exact ⟨rhs.le_next he, fun _ _ => rfl⟩
  | .assignIndex field indices rhs, capturing, scope, n, l, h => by
    simp only [Stmt.lower, bind_eq_bind, bind_eq_some_iff] at h
    obtain ⟨e, he, i, hi, h⟩ := h
    cases h
    exact ⟨Nat.le_trans (rhs.le_next he) (indices.le_next hi), fun _ _ => rfl⟩
  | .ifThen condition trueStatements falseStatements, capturing, scope, n, l, h => by
    simp only [Stmt.lower, bind_eq_bind, bind_eq_some_iff] at h
    obtain ⟨c, hc, t, ht, f, hf, h⟩ := h
    cases h
    have hnext := condition.le_next hc
    have htrue := (lowerBlock_scope trueStatements ht).1
    have hfalse := (lowerBlock_scope falseStatements hf).1
    exact ⟨Nat.le_trans hnext (Nat.le_trans htrue hfalse), fun _ _ => rfl⟩
  | .breakLoop, capturing, scope, n, l, h => by
    simp only [Stmt.lower, bind_eq_bind, bind_eq_some_iff] at h
    obtain ⟨mask, -, h⟩ := h
    cases h
    exact ⟨Nat.le_succ n, fun _ _ => rfl⟩
  | .continueLoop, capturing, scope, n, l, h => by
    simp only [Stmt.lower, Option.some.injEq] at h
    subst h
    exact ⟨Nat.le_refl n, fun _ _ => rfl⟩
  | .whileLoop cond body, capturing, scope, n, l, h => by
    simp only [Stmt.lower, bind_eq_bind, bind_eq_some_iff] at h
    obtain ⟨c, hc, b, hb, h⟩ := h
    cases h
    have hnext := cond.le_next hc
    have hbody := (lowerBlock_scope body hb).1
    exact ⟨by simp only; omega, fun _ _ => rfl⟩
  | .rangeFor x begin last body, capturing, scope, n, l, h => by
    obtain ⟨b, e, hb, he, ⟨-, inner, hinner, rfl⟩ | ⟨-, inner, hinner, rfl⟩⟩ := lower_rangeFor h
    · have hbegin := begin.le_next hb
      have hlast := last.le_next he
      have hbody := (lowerBlock_scope body hinner).1
      refine ⟨by simp only; omega, fun y hy => lookupVar_insert_of_ne ?_ _ _⟩
      simpa [Stmt.binds] using hy
    · have hbegin := begin.le_next hb
      have hlast := last.le_next he
      have hbody := (lowerBlock_scope body hinner).1
      exact ⟨by simp only; omega, fun _ _ => rfl⟩

theorem lowerBlock_scope : ∀ (stmts : List (Stmt V)) {capturing : Option ℕ} {scope : Scope}
    {n : ℕ} {l : Lowered V}, lowerBlock fors capturing stmts scope n = some l →
      n ≤ l.next ∧ ∀ y ∉ declaredBlock stmts, l.scope.lookupVar y = scope.lookupVar y
  | [], capturing, scope, n, l, h => by
    simp only [lowerBlock, Option.some.injEq] at h
    subst h
    exact ⟨Nat.le_refl n, fun _ _ => rfl⟩
  | stmt :: rest, capturing, scope, n, l, h => by
    simp only [lowerBlock, bind_eq_bind, bind_eq_some_iff] at h
    obtain ⟨first, hfirst, others, hothers, h⟩ := h
    cases h
    obtain ⟨hnext, hlookup⟩ := Stmt.lower_scope stmt hfirst
    obtain ⟨hnext', hlookup'⟩ := lowerBlock_scope rest hothers
    refine ⟨Nat.le_trans hnext hnext', fun y hy => ?_⟩
    simp only [declaredBlock, mem_append, not_or] at hy
    rw [hlookup' y hy.2, hlookup y fun hmem => hy.1 (stmt.binds_subset hmem)]

end

theorem Covers.lower (h : Covers scope visible n) {stmt : Stmt V}
    (hlower : stmt.lower fors capturing scope n = some l)
    (hfresh : ∀ x ∈ stmt.declared, scope.lookupVar x = none) :
    Covers l.scope (stmt.declares ++ visible) l.next := by
  obtain ⟨hnext, hlookup⟩ := Stmt.lower_scope stmt hlower
  cases stmt with
  | alloca x zero =>
    have hx : x ∉ visible := h.notMem (hfresh x (by simp [Stmt.declared]))
    simp only [Stmt.lower] at hlower
    split at hlower
    · cases hlower
    · cases hlower
      exact h.insert hx (Nat.le_refl n)
  | rangeFor x begin last body =>
    have hx : x ∉ visible := h.notMem (hfresh x (by simp [Stmt.declared]))
    obtain ⟨b, e, -, -, ⟨-, inner, -, rfl⟩ | ⟨-, inner, -, rfl⟩⟩ := lower_rangeFor hlower
    · exact (h.keep hx _).mono hnext
    · exact h.mono hnext
  | assign | assignIndex | ifThen | breakLoop | continueLoop | whileLoop =>
    have hsame : ∀ y ∈ visible, l.scope.lookupVar y = scope.lookupVar y :=
      fun y hy => hlookup y fun hmem => by simp [Stmt.binds] at hmem
    refine ⟨fun y hy => ?_, fun y hy z hz a hya hza => ?_⟩
    · rw [hsame y hy]
      exact (h.mono hnext).found y hy
    · rw [hsame y hy] at hya
      rw [hsame z hz] at hza
      exact h.distinct y hy z hz a hya hza

end Numbers

section Settings

/-- The pass is about to make statement `n` in a place where these variables are visible, and what
comes next declares these. -/
structure Setting (scope : Scope) (visible : List Identifier) (n : ℕ)
    (declared : List Identifier) : Prop where
  covers : Covers scope visible n
  fresh : ∀ x ∈ declared, scope.lookupVar x = none
  unique : declared.Nodup

namespace Setting

variable {scope : Scope} {visible declared : List Identifier} {n : ℕ}

variable {x : Identifier}

theorem notMem (h : Setting scope visible n declared) (hx : x ∈ declared) : x ∉ visible :=
  h.covers.notMem (h.fresh x hx)

theorem mono (h : Setting scope visible n declared) {n' : ℕ} (hle : n ≤ n') :
    Setting scope visible n' declared :=
  ⟨h.covers.mono hle, h.fresh, h.unique⟩

theorem sub (h : Setting scope visible n declared) {declared' : List Identifier}
    (hsub : List.Sublist declared' declared) : Setting scope visible n declared' :=
  ⟨h.covers, fun x hx => h.fresh x (hsub.subset hx), h.unique.sublist hsub⟩

theorem push (h : Setting scope visible n declared) : Setting ([] :: scope) visible n declared :=
  ⟨h.covers.push, fun x hx => by rw [lookupVar_nil_cons, h.fresh x hx], h.unique⟩

theorem insert (h : Setting scope visible n (x :: declared)) (place : Place)
    (hplace : n ≤ place.number) :
    Setting (scope.insert x place) (x :: visible) (place.number + 1) declared := by
  have hunique := nodup_cons.1 h.unique
  refine ⟨h.covers.insert (h.notMem mem_cons_self) hplace, fun y hy => ?_, hunique.2⟩
  rw [lookupVar_insert_of_ne (by rintro rfl; exact hunique.1 hy)]
  exact h.fresh y (mem_cons_of_mem _ hy)

variable [MachineValue V] {fors : List Identifier}

theorem rest {stmt : Stmt V} (h : Setting scope visible n (stmt.declared ++ declared))
    {capturing : Option ℕ} {l : Lowered V} (hlower : stmt.lower fors capturing scope n = some l) :
    Setting l.scope (stmt.declares ++ visible) l.next declared := by
  have hunique := nodup_append.1 h.unique
  refine ⟨h.covers.lower hlower fun x hx => h.fresh x (mem_append_left _ hx), ?_, hunique.2.1⟩
  intro y hy
  have hnotMem : y ∉ stmt.declared := fun hmem => hunique.2.2 y hmem y hy rfl
  rw [(Stmt.lower_scope stmt hlower).2 y fun hmem => hnotMem (stmt.binds_subset hmem)]
  exact h.fresh y (mem_append_right _ hy)

end Setting

variable [MachineValue V] {fors : List Identifier}

variable {assigned : List Identifier} {scope : Scope}

variable {x : Identifier}

theorem lookupVar_index_of_lower {stmt : Stmt V} {capturing : Option ℕ} {n : ℕ}
    {l : Lowered V} (hlower : stmt.lower fors capturing scope n = some l) {r : ℕ}
    (hx : l.scope.lookupVar x = some (.index r)) : scope.lookupVar x = some (.index r) := by
  have hinsert : ∀ y a, (scope.insert y (.alloca a)).lookupVar x = some (.index r) →
      scope.lookupVar x = some (.index r) := by
    intro y a h
    rw [lookupVar_insert] at h
    split at h
    · cases h
    · exact h
  cases stmt with
  | alloca y zero =>
    simp only [Stmt.lower] at hlower
    split at hlower
    · cases hlower
    · cases hlower
      exact hinsert y n hx
  | rangeFor y begin last body =>
    obtain ⟨b, e, -, -, ⟨-, inner, -, rfl⟩ | ⟨-, inner, -, rfl⟩⟩ := lower_rangeFor hlower
    · exact hinsert y e.next hx
    · exact hx
  | assign | assignIndex | ifThen | breakLoop | continueLoop | whileLoop =>
    rw [← (Stmt.lower_scope _ hlower).2 x (by simp [Stmt.binds])]
    exact hx

/-- The identifiers that are assigned do not stand for loop indices. -/
def Assignable (scope : Scope) (assigned : List Identifier) : Prop :=
  ∀ x ∈ assigned, ∀ r, scope.lookupVar x ≠ some (.index r)

theorem Assignable.sub {assigned' : List Identifier}
    (h : Assignable scope assigned) (hsub : assigned' ⊆ assigned) : Assignable scope assigned' :=
  fun x hx => h x (hsub hx)

theorem Assignable.push (h : Assignable scope assigned) : Assignable ([] :: scope) assigned := by
  intro x hx r
  exact h x hx r

theorem Assignable.insert (h : Assignable scope assigned) (place : Place)
    (hx : x ∈ assigned → ∀ r, place ≠ .index r) : Assignable (scope.insert x place) assigned := by
  intro y hy r
  rw [lookupVar_insert]
  split
  · next heq =>
      subst heq
      exact fun hcontra => hx hy r (Option.some.inj hcontra)
  · exact h y hy r

mutual

theorem Stmt.exists_lower : ∀ (stmt : Stmt V) {capturing : Option ℕ} {scope : Scope}
    {visible : List Identifier} {n : ℕ}, Setting scope visible n stmt.declared →
    stmt.inScope visible = true → stmt.marked fors = true →
    (stmt.breaks = true → capturing.isSome = true) → stmt.indexKept fors = true →
    Assignable scope stmt.assigned → ∃ l, stmt.lower fors capturing scope n = some l
  | .alloca x zero, capturing, scope, visible, n, hset, _, _, _, _, _ => by
    have hblock := inBlock_of_lookupVar_none (hset.fresh x (by simp [Stmt.declared]))
    exact ⟨_, by simp only [Stmt.lower, hblock]; rfl⟩
  | .assign x rhs, capturing, scope, visible, n, hset, hinScope, _, _, _, hassigned => by
    simp only [Stmt.inScope, Bool.and_eq_true, contains_iff_mem] at hinScope
    obtain ⟨e, he⟩ := rhs.exists_flatten (fun y hy => (hset.covers.found y hy).imp
      fun _ h => h.1) hinScope.2 n
    obtain ⟨place, hplace, -⟩ := hset.covers.found x hinScope.1
    cases place with
    | alloca a =>
      exact ⟨_, by simp only [Stmt.lower, he, hplace, bind_eq_bind, bind_some]; rfl⟩
    | index r => exact absurd hplace (hassigned x (by simp [Stmt.assigned]) r)
  | .assignIndex field indices rhs, capturing, scope, visible, n, hset, hinScope, _, _, _, _ => by
    simp only [Stmt.inScope, Bool.and_eq_true] at hinScope
    have hfound : ∀ y ∈ visible, ∃ place, scope.lookupVar y = some place :=
      fun y hy => (hset.covers.found y hy).imp fun _ h => h.1
    obtain ⟨e, he⟩ := rhs.exists_flatten hfound hinScope.2 n
    obtain ⟨i, hi⟩ := indices.exists_flatten hfound hinScope.1 e.next
    exact ⟨_, by simp only [Stmt.lower, he, hi, bind_eq_bind, bind_some]; rfl⟩
  | .ifThen condition trueStatements falseStatements, capturing, scope, visible, n, hset, hinScope,
      hmarked, hbreaks, hkept, hassigned => by
      simp only [Stmt.inScope, Bool.and_eq_true] at hinScope
      simp only [Stmt.marked, Bool.and_eq_true] at hmarked
      simp only [Stmt.indexKept, Bool.and_eq_true] at hkept
      simp only [Stmt.breaks, Bool.or_eq_true] at hbreaks
      obtain ⟨c, hc⟩ := condition.exists_flatten (fun y hy => (hset.covers.found y hy).imp
        fun _ h => h.1) hinScope.1.1 n
      have hnext := condition.le_next hc
      obtain ⟨t, ht⟩ := exists_lowerBlock trueStatements
        ((hset.sub (sublist_append_left _ _)).mono hnext).push hinScope.1.2 hmarked.1
        (fun hb => hbreaks (.inl hb)) hkept.1
        (hassigned.sub (subset_append_left _ _)).push
      have hnext' := (lowerBlock_scope trueStatements ht).1
      obtain ⟨f, hf⟩ := exists_lowerBlock falseStatements
        ((hset.sub (sublist_append_right _ _)).mono (Nat.le_trans hnext hnext')).push
        hinScope.2 hmarked.2 (fun hb => hbreaks (.inr hb)) hkept.2
        (hassigned.sub (subset_append_right _ _)).push
      exact ⟨_, by simp only [Stmt.lower, hc, ht, hf, bind_eq_bind, bind_some]; rfl⟩
  | .breakLoop, capturing, scope, visible, n, _, _, _, hbreaks, _, _ => by
    obtain ⟨mask, rfl⟩ := isSome_iff_exists.1 (hbreaks (by simp [Stmt.breaks]))
    exact ⟨_, rfl⟩
  | .continueLoop, capturing, scope, visible, n, _, _, _, _, _, _ => ⟨_, rfl⟩
  | .whileLoop cond body, capturing, scope, visible, n, hset, hinScope, hmarked, _, hkept,
      hassigned => by
      simp only [Stmt.inScope, Bool.and_eq_true] at hinScope
      obtain ⟨c, hc⟩ := cond.exists_flatten (fun y hy => (hset.covers.found y hy).imp
        fun _ h => h.1) hinScope.1 n
      have hnext := cond.le_next hc
      have hcaptured : breaksBlock body = true → (some c.next).isSome = true := fun _ => rfl
      obtain ⟨b, hb⟩ := exists_lowerBlock body
        (hset.mono (Nat.le_trans hnext (Nat.le_add_right _ 2))).push hinScope.2 hmarked hcaptured
        hkept hassigned.push
      exact ⟨_, by simp only [Stmt.lower, hc, hb, bind_eq_bind, bind_some]; rfl⟩
  | .rangeFor x begin last body, capturing, scope, visible, n, hset, hinScope, hmarked, _, hkept,
      hassigned => by
      simp only [Stmt.inScope, Bool.and_eq_true] at hinScope
      simp only [Stmt.marked, Bool.and_eq_true, Bool.or_eq_true] at hmarked
      simp only [Stmt.indexKept, Bool.and_eq_true, Bool.or_eq_true] at hkept
      have hfound : ∀ y ∈ visible, ∃ place, scope.lookupVar y = some place :=
        fun y hy => (hset.covers.found y hy).imp fun _ h => h.1
      obtain ⟨b, hb⟩ := begin.exists_flatten hfound hinScope.1.1 n
      obtain ⟨e, he⟩ := last.exists_flatten hfound hinScope.1.2 b.next
      have hnext : n ≤ e.next := Nat.le_trans (begin.le_next hb) (last.le_next he)
      cases hfor : fors.contains x with
      | true =>
        have hinner : Setting ([] :: scope.insert x (.alloca e.next)) (x :: visible)
            (e.next + 9) (declaredBlock body) :=
          ((hset.mono hnext).insert (.alloca e.next) (Nat.le_refl _)).mono
            (by simp only [Place.number]; omega) |>.push
        have hcaptured : breaksBlock body = true → (some (e.next + 3)).isSome = true :=
          fun _ => rfl
        obtain ⟨inner, hlower⟩ := exists_lowerBlock body hinner hinScope.2 hmarked.2 hcaptured
          hkept.2
          (hassigned.insert (.alloca e.next) fun _ r => nofun).push
        exact ⟨_, by
          simp only [Stmt.lower, hb, he, hfor, hlower, bind_eq_bind, bind_some, if_true]
          rfl⟩
      | false =>
        have hinner : Setting (Scope.insert x (.index (e.next + 1)) ([] :: scope))
            (x :: visible) (e.next + 2) (declaredBlock body) :=
          ((hset.mono hnext).push.insert (.index (e.next + 1)) (Nat.le_succ _))
        rw [hfor] at hmarked hkept
        have hcaptured : breaksBlock body = true → (none : Option ℕ).isSome = true := by
          simpa using hmarked.1
        have hnotMem : x ∉ assignedBlock body := by simpa using hkept.1
        obtain ⟨inner, hlower⟩ := exists_lowerBlock body hinner hinScope.2 hmarked.2 hcaptured
          hkept.2
          (hassigned.push.insert (.index (e.next + 1)) fun h => absurd h hnotMem)
        exact ⟨_, by
          simp only [Stmt.lower, hb, he, hfor, hlower, bind_eq_bind, bind_some,
            if_false, Bool.false_eq_true]
          rfl⟩

theorem exists_lowerBlock : ∀ (stmts : List (Stmt V)) {capturing : Option ℕ} {scope : Scope}
    {visible : List Identifier} {n : ℕ}, Setting scope visible n (declaredBlock stmts) →
    inScopeBlock visible stmts = true → markedBlock fors stmts = true →
    (breaksBlock stmts = true → capturing.isSome = true) → indexKeptBlock fors stmts = true →
    Assignable scope (assignedBlock stmts) → ∃ l, lowerBlock fors capturing stmts scope n = some l
  | [], capturing, scope, visible, n, _, _, _, _, _, _ => ⟨_, rfl⟩
  | stmt :: rest, capturing, scope, visible, n, hset, hinScope, hmarked, hbreaks, hkept,
      hassigned => by
      simp only [inScopeBlock, Bool.and_eq_true] at hinScope
      simp only [markedBlock, Bool.and_eq_true] at hmarked
      simp only [indexKeptBlock, Bool.and_eq_true] at hkept
      simp only [breaksBlock, Bool.or_eq_true] at hbreaks
      obtain ⟨first, hfirst⟩ := Stmt.exists_lower stmt
        (hset.sub (sublist_append_left _ _)) hinScope.1 hmarked.1
        (fun hb => hbreaks (.inl hb)) hkept.1 (hassigned.sub (subset_append_left _ _))
      have hrest : Assignable first.scope (assignedBlock rest) := fun x hx r h =>
        hassigned x (mem_append_right _ hx) r (lookupVar_index_of_lower hfirst h)
      obtain ⟨others, hothers⟩ := exists_lowerBlock rest (hset.rest hfirst) hinScope.2 hmarked.2
        (fun hb => hbreaks (.inr hb)) hkept.2 hrest
      exact ⟨_, by
        simp only [lowerBlock, hfirst, hothers, bind_eq_bind, bind_some]
        rfl⟩

end

end Settings

end Quadrants.LowerAst
