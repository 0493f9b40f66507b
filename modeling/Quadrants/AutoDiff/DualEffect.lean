import Quadrants.AutoDiff.DualVariables
import Quadrants.AutoDiff.Execution
import Mathlib.Order.Lattice
import Mathlib.Tactic.Abel

/-!
What the statements inserted by `MakeDual` do.

Inserted values have new names, so up to new names the statements inserted
behind a statement only add to the dual variable, or to the dual cell, that the
statement is about.
-/

namespace Quadrants.AutoDiff.MakeDual

open Quadrants.AutoDiff.Ir List Nat Function

section Quiet

variable {R : Type}

structure Quiet (n : Nat) (T T' : State R) : Prop where
  reals : ∀ x < n, T'.reals x = T.reals x
  ints : ∀ x < n, T'.ints x = T.ints x
  realVars : T'.realVars = T.realVars
  intVars : T'.intVars = T.intVars
  realCells : T'.realCells = T.realCells
  intCells : T'.intCells = T.intCells

theorem Quiet.refl (n : Nat) (T : State R) : Quiet n T T :=
  ⟨fun _ _ => rfl, fun _ _ => rfl, rfl, rfl, rfl, rfl⟩

variable {T T' : State R} {m n : Nat}

theorem Quiet.trans {T'' : State R} (h : Quiet n T T') (h' : Quiet m T' T'')
    (hnm : n ≤ m) : Quiet n T T'' := by
  constructor
  · intro x hx
    rw [h'.reals x (Nat.lt_of_lt_of_le hx hnm), h.reals x hx]
  · intro x hx
    rw [h'.ints x (Nat.lt_of_lt_of_le hx hnm), h.ints x hx]
  · rw [h'.realVars, h.realVars]
  · rw [h'.intVars, h.intVars]
  · rw [h'.realCells, h.realCells]
  · rw [h'.intCells, h.intCells]

theorem Quiet.mono (h : Quiet m T T') (hnm : n ≤ m) : Quiet n T T' :=
  (Quiet.refl n T).trans h hnm

theorem quiet_setReal (T : State R) (n : Nat) (v : R) : Quiet n T (T.setReal n v) := by
  refine ⟨fun x hx => ?_, fun _ _ => rfl, rfl, rfl, rfl, rfl⟩
  exact update_of_ne (Nat.ne_of_lt hx) _ _

theorem quiet_setInt (T : State R) (n : Nat) (v : Int) : Quiet n T (T.setInt n v) := by
  refine ⟨fun _ _ => rfl, fun x hx => ?_, rfl, rfl, rfl, rfl⟩
  exact update_of_ne (Nat.ne_of_lt hx) _ _

theorem Quiet.setRealVar (h : Quiet n T T') (a : Nat) (v : R) :
    Quiet n (T.setRealVar a v) (T'.setRealVar a v) := by
  refine ⟨h.reals, h.ints, ?_, h.intVars, h.realCells, h.intCells⟩
  simp only [State.setRealVar, h.realVars]

theorem Quiet.index (h : Quiet n T T') (ptr : GlobalPtr)
    (hptr : ∀ r ∈ ptr.indices, r.name < n) : T'.index ptr = T.index ptr := by
  apply map_congr_left
  intro r hr
  exact h.ints r.name (hptr r hr)

theorem Quiet.cell (h : Quiet n T T') (ptr : GlobalPtr)
    (hptr : ∀ r ∈ ptr.indices, r.name < n) : T'.cell ptr = T.cell ptr := by
  rw [State.cell, State.cell, h.realCells, h.index ptr hptr]

theorem Quiet.setCell (h : Quiet n T T') (isStore : Bool)
    (ptr : GlobalPtr) (v : R) (hptr : ∀ r ∈ ptr.indices, r.name < n) :
    Quiet n (T.setCell isStore ptr v) (T'.setCell isStore ptr v) := by
  refine ⟨h.reals, h.ints, h.realVars, h.intVars, ?_, h.intCells⟩
  simp only [State.setCell, h.realCells, h.index ptr hptr]

def Operand.eval (T : State R) : Operand → R
  | .value r => T.reals r.name
  | .var a => T.realVars a

def Operand.Below (n : Nat) : Operand → Prop
  | .value r => r.name < n
  | .var _ => True

variable {o : Operand}

theorem Operand.Below.mono (h : o.Below n) (hnm : n ≤ m) : o.Below m := by
  cases o with
  | value r => exact Nat.lt_of_lt_of_le h hnm
  | var a => trivial

theorem Quiet.eval (h : Quiet n T T') (ho : o.Below n) : o.eval T' = o.eval T := by
  cases o with
  | value r => exact h.reals r.name ho
  | var a => exact congrFun h.realVars a

end Quiet

section DualVariable

variable {R : Type} (D : Nat → Option Nat)

def dualVar (x : Ref) : Option Nat := if hasDual x then D x.name else none

def setDual (T : State R) (x : Ref) (v : R) : State R :=
  match dualVar D x with
  | some c => T.setRealVar c v
  | none => T

variable {D}

theorem setDual_reals (T : State R) (x : Ref) (v : R) : (setDual D T x v).reals = T.reals := by
  cases hx : dualVar D x with
  | none => simp [setDual, hx]
  | some c => simp [setDual, hx, State.setRealVar]

theorem setDual_ints (T : State R) (x : Ref) (v : R) : (setDual D T x v).ints = T.ints := by
  cases hx : dualVar D x with
  | none => simp [setDual, hx]
  | some c => simp [setDual, hx, State.setRealVar]

variable {x : Ref}

theorem setDual_of_none (hx : dualVar D x = none) (T : State R) (v : R) : setDual D T x v = T := by
  simp [setDual, hx]

theorem dualVar_of_not_real (hx : x.ty ≠ .real) : dualVar D x = none := by
  simp [dualVar, hasDual, hx]

theorem setDual_of_int (hty : x.ty = .int) (T : State R) (v : R) : setDual D T x v = T := by
  apply setDual_of_none
  apply dualVar_of_not_real
  rw [hty]
  exact Ty.noConfusion

theorem setDual_setDual (T : State R) (x : Ref) (v w : R) :
    setDual D (setDual D T x v) x w = setDual D T x w := by
  cases hx : dualVar D x with
  | none => simp [setDual, hx]
  | some c => simp [setDual, hx, State.setRealVar]

variable {T T' : State R}

theorem Quiet.setDual {n : Nat} (h : Quiet n T T') (x : Ref) (v : R) :
    Quiet n (setDual D T x v) (setDual D T' x v) := by
  cases hx : dualVar D x with
  | none =>
    simp only [MakeDual.setDual, hx]
    exact h
  | some c =>
    simp only [MakeDual.setDual, hx]
    exact h.setRealVar c v

variable [Zero R]

def dualValue (D : Nat → Option Nat) (T : State R) (x : Ref) : R :=
  match dualVar D x with
  | some c => T.realVars c
  | none => 0

theorem dualValue_congr (h : T'.realVars = T.realVars) (x : Ref) :
    dualValue D T' x = dualValue D T x := by
  simp only [dualValue, h]

theorem dualValue_setDual_self {c : Nat} (hx : dualVar D x = some c) (T : State R)
    (v : R) : dualValue D (setDual D T x v) x = v := by
  simp [dualValue, setDual, hx, State.setRealVar]

theorem dualValue_setDual_of_ne {a : Ref} (hxa : ∀ c, dualVar D x = some c → dualVar D a ≠ some c)
    (T : State R) (v : R) : dualValue D (setDual D T x v) a = dualValue D T a := by
  cases hx : dualVar D x with
  | none => simp [setDual, hx]
  | some c =>
    cases ha : dualVar D a with
    | none => simp [dualValue, ha]
    | some d =>
      have hdc : d ≠ c := by
        rintro rfl
        exact hxa d hx ha
      simp [dualValue, setDual, hx, ha, State.setRealVar, update_of_ne hdc]

end DualVariable

section Values

variable {R : Type} [CommRing R] [LinearOrder R]

def lessThan (a b : R) : Bool := decide (a < b)

def after (T : State R) (ps : PassState R) : State R :=
  ps.inserted.foldl (execStmt id lessThan) T

/-- Going from `ps` to `ps'`, statements were inserted that compute the operand
`o` with value `v` and change nothing else. -/
structure Yields (T : State R) (ps ps' : PassState R) (o : Operand) (v : R) : Prop where
  quiet : Quiet ps.next (after T ps) (after T ps')
  next_le : ps.next ≤ ps'.next
  below : o.Below ps'.next
  eval : o.eval (after T ps') = v

variable {T : State R} {ps ps' ps'' : PassState R}

variable {o : Operand} {v : R}

variable {a b o' : Operand} {v' w : R}

theorem Yields.trans (h : Yields T ps ps' o v)
    (h' : Yields T ps' ps'' o' v') : Yields T ps ps'' o' v' where
  quiet := h.quiet.trans h'.quiet h.next_le
  next_le := Nat.le_trans h.next_le h'.next_le
  below := h'.below
  eval := h'.eval

theorem Yields.earlier (h : Yields T ps ps' o v)
    (ho' : o'.Below ps.next) (hv' : o'.eval (after T ps) = v') :
    o'.Below ps'.next ∧ o'.eval (after T ps') = v' :=
  ⟨ho'.mono h.next_le, (h.quiet.eval ho').trans hv'⟩

theorem insert_after (isConst : Bool) (make : Ref → Stmt R) (ps : PassState R) :
    after T (insert isConst make ps).2 =
      execStmt id lessThan (after T ps) (make ⟨ps.next, .real, isConst⟩) := by
  simp [after, insert]

theorem insert_yields (ps : PassState R) (isConst : Bool) (make : Ref → Stmt R) (v : R)
    (hmake : execStmt id lessThan (after T ps) (make ⟨ps.next, .real, isConst⟩) =
      (after T ps).setReal ps.next v) :
    Yields T ps (insert isConst make ps).2 (.value (insert isConst make ps).1) v := by
  have hafter : after T (insert isConst make ps).2 = (after T ps).setReal ps.next v := by
    rw [← hmake, insert_after]
  refine ⟨?_, le_succ _, lt_succ_self _, ?_⟩
  · rw [hafter]
    exact quiet_setReal _ _ _
  · rw [hafter]
    exact update_self ..

theorem insertStore_after (s : Stmt R) (ps : PassState R) :
    after T (insertStore s ps).2 = execStmt id lessThan (after T ps) s := by
  simp [after, insertStore]

theorem constantZero_yields (T : State R) (ps : PassState R) :
    Yields T ps (constantZero ps).2 (.value (constantZero ps).1) 0 :=
  insert_yields ps true _ 0 rfl

theorem load_yields (T : State R) (ps : PassState R) (o : Operand) (ho : o.Below ps.next) :
    Yields T ps (load o ps).2 (.value (load o ps).1) (o.eval (after T ps)) := by
  cases o with
  | value r => exact ⟨Quiet.refl _ _, Nat.le_refl _, ho, rfl⟩
  | var a => exact insert_yields ps false _ _ rfl

theorem negate_yields (ho : o.Below ps.next) (hv : o.eval (after T ps) = v) :
    Yields T ps (negate o ps).2 (negate o ps).1 (-v) := by
  have hload := load_yields T ps o ho
  refine hload.trans (insert_yields _ false (fun x => .neg x (load o ps).1) (-v) ?_)
  rw [← hv, ← hload.eval]
  rfl

theorem binaryOp_yields (op : ArithOp) (ha : a.Below ps.next)
    (hav : a.eval (after T ps) = v) (hb : b.Below ps.next) (hbw : b.eval (after T ps) = w) :
    Yields T ps (binaryOp op a b ps).2 (binaryOp op a b ps).1 (evalArith lessThan op v w) := by
  have hla := load_yields T ps a ha
  obtain ⟨hb', hbw'⟩ := hla.earlier hb hbw
  have hlb := load_yields T _ b hb'
  have hav' := (hlb.earlier hla.below hla.eval).2
  refine (hla.trans hlb).trans (insert_yields _ false
    (fun x => .binary x op (load a ps).1 (load b (load a ps).2).1) _ ?_)
  rw [← hav, ← hbw', ← hlb.eval, ← hav']
  rfl

theorem sel_yields {c : Ref} (hc : c.name < ps.next)
    (ha : a.Below ps.next) (hav : a.eval (after T ps) = v) (hb : b.Below ps.next)
    (hbw : b.eval (after T ps) = w) : Yields T ps (sel c a b ps).2 (sel c a b ps).1
      (if (after T ps).ints c.name ≠ 0 then v else w) := by
  have hla := load_yields T ps a ha
  obtain ⟨hb', hbw'⟩ := hla.earlier hb hbw
  have hlb := load_yields T _ b hb'
  have hav' := (hlb.earlier hla.below hla.eval).2
  have hc' := (hla.trans hlb).quiet.ints c.name hc
  refine (hla.trans hlb).trans (insert_yields _ false
    (fun x => .select x c (load a ps).1 (load b (load a ps).2).1) _ ?_)
  rw [← hav, ← hbw', ← hlb.eval, ← hav', ← hc']
  rfl

theorem Yields.store {r : Ref} (h : Yields T ps ps' (.value r) v) (a : Nat) :
    Quiet ps.next ((after T ps).setRealVar a v)
      (after T (insertStore (.localStore (varRef a) r) ps').2) := by
  rw [insertStore_after, ← h.eval]
  exact h.quiet.setRealVar a _

theorem addTo_effect (a : Nat) (ho : o.Below ps.next) (hv : o.eval (after T ps) = v) :
    Quiet ps.next ((after T ps).setRealVar a ((after T ps).realVars a + v))
      (after T (addTo a o ps).2) := by
  have hold := load_yields T ps (.var a) trivial
  obtain ⟨ho', hv'⟩ := hold.earlier ho hv
  have hsum := binaryOp_yields (T := T) .add hold.below hold.eval ho' hv'
  have hload := load_yields T _ _ hsum.below
  rw [hsum.eval] at hload
  exact (hold.trans (hsum.trans hload)).store a

end Values

section Duals

variable {R : Type} [CommRing R] [LinearOrder R] {D : Nat → Option Nat} {T : State R}
  {ps ps' : PassState R}

theorem dual_cases (T : State R) (ps : PassState R) (x : Ref) (hD : Keeps D (dual x ps).2) :
    (dualVar D x = none ∧ ∃ r, (dual x ps).1 = .value r ∧ Yields T ps (dual x ps).2 (.value r) 0) ∨
      ∃ c, dualVar D x = some c ∧ (dual x ps).1 = .var c ∧
        Yields T ps (dual x ps).2 (.var c) ((after T ps).realVars c) := by
  by_cases hx : x.ty ≠ .real ∨ x.isConst
  · refine .inl ⟨?_, ?_⟩
    · rcases hx with hx | hx <;> simp [dualVar, hasDual, hx]
    · rw [dual, if_pos hx]
      exact ⟨_, rfl, constantZero_yields T ps⟩
  · refine .inr ?_
    rw [dual, if_neg hx] at hD ⊢
    have hvar : dualVar D x = D x.name := by
      simp only [not_or, not_not, Bool.not_eq_true] at hx
      simp [dualVar, hasDual, hx.1, hx.2]
    rw [hvar]
    cases hd : ps.dualStmt x.name with
    | some c =>
      simp only [hd] at hD ⊢
      exact ⟨c, hD _ _ hd, rfl, Quiet.refl _ _, Nat.le_refl _, trivial, rfl⟩
    | none =>
      simp only [hd] at hD ⊢
      refine ⟨ps.next, hD _ _ (update_self ..), rfl, Quiet.refl _ _, le_succ _, trivial, rfl⟩

theorem dual_yields (x : Ref) (hD : Keeps D (dual x ps).2) :
    Yields T ps (dual x ps).2 (dual x ps).1 (dualValue D (after T ps) x) := by
  rcases dual_cases T ps x hD with ⟨hx, r, hr, h⟩ | ⟨c, hx, hr, h⟩
  · rw [hr, dualValue, hx]
    exact h
  · rw [hr, dualValue, hx]
    exact h

theorem accumulate_effect (x : Ref) {o : Operand} {v : R} (ho : o.Below ps.next)
    (hv : o.eval (after T ps) = v) (hD : Keeps D (accumulate x o ps).2) :
    Quiet ps.next (setDual D (after T ps) x (dualValue D (after T ps) x + v))
      (after T (accumulate x o ps).2) := by
  rcases dual_cases T ps x (dual_keeps hD) with ⟨hx, r, hr, h⟩ | ⟨c, hx, hr, h⟩
  · rw [accumulate_value o hr, setDual, hx]
    exact h.quiet
  · obtain ⟨ho', hv'⟩ := h.earlier ho hv
    have hadd := addTo_effect (T := T) c ho' hv'
    rw [accumulate_var o hr, setDual, dualValue, hx]
    refine Quiet.trans ?_ hadd h.next_le
    rw [congrFun h.quiet.realVars c]
    exact h.quiet.setRealVar c _

/-- From `ps` on, as long as the values there stay, `f` computes `g`. -/
def Computes (T : State R) (ps : PassState R) (f : Operand → Pass R Operand) (g : R → R) : Prop :=
  ∀ p : PassState R, ps.next ≤ p.next →
    (∀ x < ps.next, (after T p).reals x = (after T ps).reals x) →
    (∀ x < ps.next, (after T p).ints x = (after T ps).ints x) →
    ∀ o v, o.Below p.next → o.eval (after T p) = v → Yields T p (f o p).2 (f o p).1 (g v)

variable {f : Operand → Pass R Operand} {g : R → R}

theorem Computes.later {U : State R}
    (h : Computes T ps f g) (hnext : ps.next ≤ ps'.next) (hU : Quiet ps.next U (after T ps'))
    (hreals : U.reals = (after T ps).reals) (hints : U.ints = (after T ps).ints) :
    Computes T ps' f g := by
  intro p hp hpr hpi
  apply h p (Nat.le_trans hnext hp)
  · intro x hx
    rw [hpr x (Nat.lt_of_lt_of_le hx hnext), hU.reals x hx, hreals]
  · intro x hx
    rw [hpi x (Nat.lt_of_lt_of_le hx hnext), hU.ints x hx, hints]

theorem term_effect (ps : PassState R) (x a : Ref)
    (hf : Computes T ps f g) (hfm : ∀ o, Mentions [] (f o))
    (hD : Keeps D ((do accumulate x (← f (← dual a)) : Pass R Unit) ps).2) : Quiet ps.next
      (setDual D (after T ps) x (dualValue D (after T ps) x + g (dualValue D (after T ps) a)))
      (after T ((do accumulate x (← f (← dual a)) : Pass R Unit) ps).2) := by
  have hD₂ := hD.of_grows (accumulate_mentions x _ _)
  have hD₁ := hD₂.of_grows (hfm _ _)
  have ha := dual_yields (T := T) a hD₁
  have hfa := hf _ ha.next_le ha.quiet.reals ha.quiet.ints _ _ ha.below ha.eval
  have hboth := ha.trans hfa
  have hacc := accumulate_effect x hfa.below hfa.eval hD
  refine Quiet.trans ?_ hacc hboth.next_le
  rw [dualValue_congr hboth.quiet.realVars]
  exact hboth.quiet.setDual x _

theorem terms_effect (x a b : Ref) {f' : Operand → Pass R Operand} {g' : R → R}
    (hxb : ∀ c, dualVar D x = some c → dualVar D b ≠ some c)
    (hf : Computes T ps f g) (hf' : Computes T ps f' g')
    (hfm : ∀ o, Mentions [] (f o)) (hfm' : ∀ o, Mentions [] (f' o)) (hD : Keeps D ((do
      accumulate x (← f (← dual a))
      accumulate x (← f' (← dual b)) : Pass R Unit) ps).2) :
    Quiet ps.next
      (setDual D (after T ps) x (dualValue D (after T ps) x +
        (g (dualValue D (after T ps) a) + g' (dualValue D (after T ps) b))))
      (after T ((do
        accumulate x (← f (← dual a))
        accumulate x (← f' (← dual b)) : Pass R Unit) ps).2) := by
  have hm := term_mentions x a hfm ps
  have h₁ := term_effect ps x a hf hfm (hD.of_grows (term_mentions x b hfm' _))
  have hf'₁ := hf'.later hm.next_le h₁ (setDual_reals _ _ _) (setDual_ints _ _ _)
  have h₂ := term_effect _ x b hf'₁ hfm' hD
  refine Quiet.trans ?_ h₂ hm.next_le
  rw [dualValue_congr h₁.realVars, dualValue_congr h₁.realVars, dualValue_setDual_of_ne hxb]
  cases hx : dualVar D x with
  | none =>
    rw [setDual_of_none hx] at h₁
    rw [setDual_of_none hx, setDual_of_none hx]
    exact h₁
  | some c =>
    rw [dualValue_setDual_self hx, add_assoc]
    have h := h₁.setDual (D := D) x (dualValue D (after T ps) x +
      (g (dualValue D (after T ps) a) + g' (dualValue D (after T ps) b)))
    rw [setDual_setDual] at h
    exact h

theorem computes_pure : Computes T ps Pure.pure id := by
  intro p _ _ _ o v ho hv
  exact ⟨Quiet.refl _ _, Nat.le_refl _, ho, hv⟩

theorem computes_negate : Computes T ps negate Neg.neg := by
  intro p _ _ _ o v ho hv
  exact negate_yields ho hv

variable {c r zero : Ref}

theorem computes_mul (hr : r.name < ps.next) :
    Computes T ps (binaryOp .mul (.value r)) fun v => (after T ps).reals r.name * v := by
  intro p hp hreals _ o v ho hv
  rw [← hreals r.name hr]
  exact binaryOp_yields .mul (Nat.lt_of_lt_of_le hr hp) rfl ho hv

theorem computes_sel_left (hc : c.name < ps.next) (hz : zero.name < ps.next)
    (hzero : (after T ps).reals zero.name = 0) : Computes T ps (fun o => sel c o (.value zero))
      fun v => if (after T ps).ints c.name ≠ 0 then v else 0 := by
  intro p hp hreals hints o v ho hv
  rw [← hreals zero.name hz] at hzero
  rw [← hints c.name hc]
  exact sel_yields (Nat.lt_of_lt_of_le hc hp) ho hv (Nat.lt_of_lt_of_le hz hp) hzero

theorem computes_sel_right (hc : c.name < ps.next) (hz : zero.name < ps.next)
    (hzero : (after T ps).reals zero.name = 0) : Computes T ps (fun o => sel c (.value zero) o)
      fun v => if (after T ps).ints c.name ≠ 0 then 0 else v := by
  intro p hp hreals hints o v ho hv
  rw [← hreals zero.name hz] at hzero
  rw [← hints c.name hc]
  exact sel_yields (Nat.lt_of_lt_of_le hc hp) (Nat.lt_of_lt_of_le hz hp) hzero ho hv

theorem sel_terms_effect (x c zero a b : Ref)
    (hxb : ∀ d, dualVar D x = some d → dualVar D b ≠ some d)
    (hc : c.name < ps.next) (hz : zero.name < ps.next) (hzero : (after T ps).reals zero.name = 0)
    (hD : Keeps D ((do
      accumulate x (← sel c (← dual a) (.value zero))
      accumulate x (← sel c (.value zero) (← dual b)) : Pass R Unit) ps).2) :
    Quiet ps.next
      (setDual D (after T ps) x (dualValue D (after T ps) x +
        if (after T ps).ints c.name ≠ 0 then dualValue D (after T ps) a
        else dualValue D (after T ps) b))
      (after T ((do
        accumulate x (← sel c (← dual a) (.value zero))
        accumulate x (← sel c (.value zero) (← dual b)) : Pass R Unit) ps).2) := by
  have h := terms_effect x a b hxb (computes_sel_left hc hz hzero)
    (computes_sel_right hc hz hzero) (fun o => sel_mentions c o _) (sel_mentions c _) hD
  convert h using 3
  split
  · rw [add_zero]
  · rw [zero_add]

theorem cmpLt_after (T : State R) (ps : PassState R) {l : Ref} (hl : l.ty = .real) :
    after T (cmpLt l r ps).2 = (after T ps).setInt ps.next
      (boolInt (lessThan ((after T ps).reals l.name) ((after T ps).reals r.name))) := by
  simp only [after, cmpLt, foldl_append, foldl_cons, foldl_nil]
  rw [execStmt, hl]
  rfl

theorem cmpLt_quiet (T : State R) (ps : PassState R) (l r : Ref) :
    Quiet ps.next (after T ps) (after T (cmpLt l r ps).2) := by
  simp only [after, cmpLt, foldl_append, foldl_cons, foldl_nil]
  rw [execStmt]
  split <;> exact quiet_setInt _ _ _

theorem boolInt_ne_zero (b : Bool) : boolInt b ≠ 0 ↔ b = true := by
  cases b <;> simp [boolInt]

theorem cmp_terms_effect (x l r a b : Ref)
    (hxb : ∀ d, dualVar D x = some d → dualVar D b ≠ some d) (hty : x.ty = .real → l.ty = .real)
    (hD : Keeps D ((do
      let cmp ← cmpLt l r
      let zero ← constantZero
      accumulate x (← sel cmp (← dual a) (.value zero))
      accumulate x (← sel cmp (.value zero) (← dual b)) : Pass R Unit) ps).2) :
    Quiet ps.next
      (setDual D (after T ps) x (dualValue D (after T ps) x +
        if (after T ps).reals l.name < (after T ps).reals r.name then dualValue D (after T ps) a
        else dualValue D (after T ps) b))
      (after T ((do
        let cmp ← cmpLt l r
        let zero ← constantZero
        accumulate x (← sel cmp (← dual a) (.value zero))
        accumulate x (← sel cmp (.value zero) (← dual b)) : Pass R Unit) ps).2) := by
  have hcmp := cmpLt_quiet T ps l r
  have hzero := constantZero_yields T (cmpLt l r ps).2
  have hquiet := hcmp.trans hzero.quiet (le_succ _)
  have hnext : ps.next ≤ (constantZero (cmpLt l r ps).2).2.next :=
    Nat.le_trans (le_succ _) hzero.next_le
  have hc : (cmpLt l r ps).1.name < (constantZero (cmpLt l r ps).2).2.next :=
    Nat.lt_of_lt_of_le (lt_succ_self ps.next) hzero.next_le
  have h := sel_terms_effect (T := T) x (cmpLt l r ps).1 (constantZero (cmpLt l r ps).2).1 a b hxb
    hc hzero.below hzero.eval hD
  refine Quiet.trans ?_ h hnext
  rw [dualValue_congr hquiet.realVars, dualValue_congr hquiet.realVars,
    dualValue_congr hquiet.realVars]
  by_cases hx : x.ty = .real
  · have hint : (after T (constantZero (cmpLt l r ps).2).2).ints (cmpLt l r ps).1.name =
        boolInt (lessThan ((after T ps).reals l.name) ((after T ps).reals r.name)) := by
      rw [hzero.quiet.ints (cmpLt l r ps).1.name (lt_succ_self ps.next), cmpLt_after T ps (hty hx)]
      exact update_self ..
    simp only [hint, boolInt_ne_zero, lessThan, decide_eq_true_eq]
    exact hquiet.setDual x _
  · rw [setDual_of_none (dualVar_of_not_real hx), setDual_of_none (dualVar_of_not_real hx)]
    exact hquiet

def tangent (op : ArithOp) (a b da db : R) : R :=
  match op with
  | .add => da + db
  | .sub => da + -db
  | .mul => a * db + b * da
  | .min => if a < b then da else db
  | .max => if b < a then da else db

theorem visitBinary_effect (x : Ref) (op : ArithOp) (a b : Ref) (ha : a.name < ps.next)
    (hb : b.name < ps.next) (hxa : ∀ d, dualVar D x = some d → dualVar D a ≠ some d)
    (hxb : ∀ d, dualVar D x = some d → dualVar D b ≠ some d) (hta : a.ty = x.ty)
    (htb : b.ty = x.ty) (hD : Keeps D (visitBinary x op a b ps).2) : Quiet ps.next
      (setDual D (after T ps) x (dualValue D (after T ps) x +
        tangent op ((after T ps).reals a.name) ((after T ps).reals b.name)
          (dualValue D (after T ps) a) (dualValue D (after T ps) b)))
      (after T (visitBinary x op a b ps).2) := by
  cases op with
  | add =>
    exact terms_effect x a b hxb computes_pure computes_pure Mentions.pure Mentions.pure hD
  | sub =>
    exact terms_effect x a b hxb computes_pure computes_negate Mentions.pure negate_mentions hD
  | mul =>
    exact terms_effect x b a hxa (computes_mul ha) (computes_mul hb) (binaryOp_mentions _ _)
      (binaryOp_mentions _ _) hD
  | min => exact cmp_terms_effect x a b a b hxb (fun hx => hta.trans hx) hD
  | max => exact cmp_terms_effect x b a a b hxb (fun hx => htb.trans hx) hD

theorem clearDual_effect (dest : Ref) (hD : Keeps D (clearDual dest ps).2) :
    Quiet ps.next (setDual D (after T ps) dest 0) (after T (clearDual dest ps).2) := by
  have hzero := constantZero_yields T ps
  have hstep : clearDual dest ps = (match (dual dest (constantZero ps).2).1 with
    | .value _ => Pure.pure ()
    | .var a => insertStore (.localStore (varRef a) (constantZero ps).1) : Pass R Unit)
      (dual dest (constantZero ps).2).2 := rfl
  have hD₁ : Keeps D (dual dest (constantZero ps).2).2 := by
    rw [hstep] at hD
    cases hd : (dual dest (constantZero ps).2).1 with
    | value r =>
      rw [hd] at hD
      exact hD
    | var c =>
      rw [hd] at hD
      exact hD.of_grows (insertStore_mentions _ _)
  rcases dual_cases T (constantZero ps).2 dest hD₁ with ⟨hx, r, hr, h⟩ | ⟨c, hx, hr, h⟩
  · rw [hstep, hr, setDual_of_none hx]
    exact hzero.quiet.trans h.quiet hzero.next_le
  · obtain ⟨hz, hz'⟩ := h.earlier hzero.below hzero.eval
    have hboth := hzero.trans h
    have hstored : Yields T ps _ (.value (constantZero ps).1) 0 :=
      ⟨hboth.quiet, hboth.next_le, hz, hz'⟩
    rw [hstep, hr, setDual, hx]
    exact hstored.store c

theorem accumulateCell_effect (dest : GlobalPtr) (val : Ref) (hdest : dest.ty = .real)
    (hindices : ∀ r ∈ dest.indices, r.name < ps.next)
    (hD : Keeps D (accumulateCell dest val ps).2) : Quiet ps.next
      ((after T ps).setCell false (dualPtr dest)
        ((after T ps).cell (dualPtr dest) + dualValue D (after T ps) val))
      (after T (accumulateCell dest val ps).2) := by
  have hD₂ : Keeps D (load (dual val ps).1 (dual val ps).2).2 :=
    hD.of_grows (insert_mentions false (fun x => .atomicAdd x (dualPtr dest) _) _)
  have hdual := dual_yields (T := T) val (hD₂.of_grows (load_mentions _ _))
  have hload := load_yields T _ _ hdual.below
  have hboth := hdual.trans hload
  have hafter : after T (accumulateCell dest val ps).2 =
      execStmt id lessThan (after T (load (dual val ps).1 (dual val ps).2).2)
        (.atomicAdd ⟨(load (dual val ps).1 (dual val ps).2).2.next, .real, false⟩ (dualPtr dest)
          (load (dual val ps).1 (dual val ps).2).1) :=
    insert_after false (fun x => .atomicAdd x (dualPtr dest) _) _
  rw [hafter, execStmt, show (dualPtr dest).ty = .real from hdest]
  refine Quiet.trans ?_ (quiet_setReal _ _ _) hboth.next_le
  rw [hboth.quiet.cell (dualPtr dest) hindices, ← hdual.eval, ← hload.eval]
  exact hboth.quiet.setCell false (dualPtr dest) _ hindices

def dualEffect (D : Nat → Option Nat) (T : State R) : Stmt R → State R
  | .neg x a => setDual D T x (dualValue D T x + -dualValue D T a)
  | .castValue x a =>
    if x.ty = .real ∧ a.ty = .real then
      setDual D T x (dualValue D T x + dualValue D T a)
    else T
  | .binary x op a b =>
    setDual D T x (dualValue D T x +
      tangent op (T.reals a.name) (T.reals b.name) (dualValue D T a) (dualValue D T b))
  | .select x c a b =>
    setDual D T x (dualValue D T x + if T.ints c.name ≠ 0 then dualValue D T a else dualValue D T b)
  | .localLoad x src => setDual D T x (dualValue D T x + dualValue D T src)
  | .localStore dest val => setDual D T dest (dualValue D T val)
  | .globalLoad x src =>
    if src.ty = .real then setDual D T x (dualValue D T x + T.cell (dualPtr src)) else T
  | .globalStore dest val | .atomicAdd _ dest val =>
    if dest.ty = .real then
      T.setCell false (dualPtr dest) (T.cell (dualPtr dest) + dualValue D T val)
    else T
  | _ => T

/-- No operand shares its dual variable with the statement that is defined. -/
def Separated (D : Nat → Option Nat) (x a : Ref) : Prop :=
  ∀ d, dualVar D x = some d → dualVar D a ≠ some d

theorem localStore_effect (dest val : Ref) (hsep : Separated D dest val)
    (hD : Keeps D (visitSimple (.localStore dest val) ps).2) :
    Quiet ps.next (setDual D (after T ps) dest (dualValue D (after T ps) val))
      (after T (visitSimple (.localStore dest val) ps).2) := by
  rw [visitSimple] at hD ⊢
  split_ifs at hD ⊢ with hty
  · have hnext := (clearDual_mentions dest ps).next_le
    have h₁ := clearDual_effect (T := T) dest (hD.of_grows (term_mentions dest val Mentions.pure _))
    have h₂ := term_effect (T := T) (clearDual dest ps).2 dest val computes_pure Mentions.pure hD
    refine Quiet.trans ?_ h₂ hnext
    rw [dualValue_congr h₁.realVars, dualValue_congr h₁.realVars, dualValue_setDual_of_ne hsep]
    cases hx : dualVar D dest with
    | none =>
      rw [setDual_of_none hx] at h₁
      rw [setDual_of_none hx, setDual_of_none hx]
      exact h₁
    | some c =>
      rw [dualValue_setDual_self hx, zero_add]
      have h := h₁.setDual (D := D) dest (dualValue D (after T ps) val)
      rw [setDual_setDual] at h
      exact h
  · have h := term_effect (T := T) ps dest val computes_pure Mentions.pure hD
    rw [setDual_of_none (dualVar_of_not_real hty)] at h ⊢
    exact h

theorem globalLoad_effect (x : Ref) (src : GlobalPtr) (hsrc : src.ty = .real) (hD : Keeps D ((do
      let d ← insert false fun y => .globalLoad y (dualPtr src)
      accumulate x (.value d) : Pass R Unit) ps).2) :
    Quiet ps.next
      (setDual D (after T ps) x (dualValue D (after T ps) x + (after T ps).cell (dualPtr src)))
      (after T ((do
        let d ← insert false fun y => .globalLoad y (dualPtr src)
        accumulate x (.value d) : Pass R Unit) ps).2) := by
  have hload : Yields T ps _ _ ((after T ps).cell (dualPtr src)) :=
    insert_yields ps false (fun y => .globalLoad y (dualPtr src)) _ (by
      rw [execStmt, show (dualPtr src).ty = .real from hsrc])
  have hacc := accumulate_effect (T := T) x hload.below hload.eval hD
  refine Quiet.trans ?_ hacc hload.next_le
  rw [dualValue_congr hload.quiet.realVars]
  exact hload.quiet.setDual x _

theorem visitSimple_effect {sc : Scope} {s : Stmt R} (hs : s.isSimple) (hws : s.WellScoped sc)
    (hsc : ∀ r ∈ sc.values, r.name < ps.next)
    (hown : ∀ x, s.value? = some x → ∀ r ∈ sc.values ++ sc.vars, Separated D x r)
    (hvars : ∀ x ∈ sc.vars, ∀ r ∈ sc.values, Separated D x r) (hD : Keeps D (visitSimple s ps).2) :
    Quiet ps.next (dualEffect D (after T ps) s) (after T (visitSimple s ps).2) := by
  cases s with
  | ifStmt | rangeFor => simp [Stmt.isSimple] at hs
  | neg x a => exact term_effect ps x a computes_negate negate_mentions hD
  | castValue x a =>
    rw [dualEffect, visitSimple] at *
    split_ifs at hD ⊢ with hty
    · exact term_effect ps x a computes_pure Mentions.pure hD
    · exact Quiet.refl _ _
  | binary x op a b =>
    obtain ⟨⟨ha, hta⟩, ⟨hb, htb⟩, _⟩ := hws
    exact visitBinary_effect x op a b (hsc a ha) (hsc b hb)
      (hown x rfl a (mem_append_left _ ha)) (hown x rfl b (mem_append_left _ hb))
      hta htb hD
  | select x c a b =>
    obtain ⟨⟨hc, _⟩, ⟨ha, _⟩, ⟨hb, _⟩, _⟩ := hws
    have hzero := constantZero_yields T ps
    have h := sel_terms_effect (T := T) x c (constantZero ps).1 a b
      (hown x rfl b (mem_append_left _ hb)) (Nat.lt_of_lt_of_le (hsc c hc) hzero.next_le)
      hzero.below hzero.eval hD
    refine Quiet.trans ?_ h hzero.next_le
    rw [dualValue_congr hzero.quiet.realVars, dualValue_congr hzero.quiet.realVars,
      dualValue_congr hzero.quiet.realVars, hzero.quiet.ints c.name (hsc c hc)]
    exact hzero.quiet.setDual x _
  | localLoad x src => exact term_effect ps x src computes_pure Mentions.pure hD
  | localStore dest val =>
    obtain ⟨hdest, hval, _⟩ := hws
    exact localStore_effect dest val (hvars dest hdest val hval) hD
  | globalLoad x src =>
    rw [dualEffect, visitSimple] at *
    split_ifs at hD ⊢ with hty
    · exact globalLoad_effect x src hty hD
    · exact Quiet.refl _ _
  | globalStore dest val =>
    obtain ⟨hdest, _⟩ := hws
    rw [dualEffect, visitSimple] at *
    split_ifs at hD ⊢ with hty
    · exact accumulateCell_effect dest val hty (fun r hr => hsc r (hdest.2 r hr).1) hD
    · exact Quiet.refl _ _
  | atomicAdd x dest val =>
    obtain ⟨hdest, _⟩ := hws
    rw [dualEffect, visitSimple] at *
    split_ifs at hD ⊢ with hty
    · exact accumulateCell_effect dest val hty (fun r hr => hsc r (hdest.2 r hr).1) hD
    · exact Quiet.refl _ _
  | _ => exact Quiet.refl _ _

end Duals

end Quadrants.AutoDiff.MakeDual
