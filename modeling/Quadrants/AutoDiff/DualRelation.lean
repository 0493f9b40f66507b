import Quadrants.AutoDiff.DualEffect
import Mathlib.Algebra.DualNumber

/-!
The relation between a run of the original body over dual numbers and a run of
the transformed body, and its preservation by statements without a body.

`D` is the final map from statements to dual variables, `n` bounds the names of
the original body, `atomics` are the results of atomic adds and `init` the
contents of the dual cells before the kernel.
-/

namespace Quadrants.AutoDiff.MakeDual

open Quadrants.AutoDiff.Ir List Option Function

def dualLess {R : Type} [LinearOrder R] (a b : DualNumber R) : Bool := decide (a.fst < b.fst)

/-- The variable of a statement exists, and the pass keeps it up to date. -/
def Met (D : Nat → Option Nat) (atomics : List Nat) (r : Ref) : Prop :=
  hasDual r = true → r.name ∉ atomics ∧ D r.name ≠ none

theorem cell_dualPtr_setCell {R : Type} {T : State R} {ptr : GlobalPtr} (hptr : ptr.isDual = false)
    (isStore : Bool)
    (v : R) : (T.setCell isStore ptr v).cell (dualPtr ptr) = T.cell (dualPtr ptr) := by
  simp [State.cell, State.setCell, updateCell, dualPtr, hptr, State.index]

variable {R : Type} [CommRing R]

structure Rel (D : Nat → Option Nat) (n : Nat) (atomics : List Nat) (init : Nat → List Int → R)
    (sc : Scope) (S : State (DualNumber R)) (T : State R) : Prop where
  reals : ∀ x < n, T.reals x = (S.reals x).fst
  ints : ∀ x < n, T.ints x = S.ints x
  realVars : ∀ x < n, T.realVars x = (S.realVars x).fst
  intVars : ∀ x < n, T.intVars x = S.intVars x
  cells : ∀ snode index, T.realCells snode false index = (S.realCells snode false index).fst
  dualCells : ∀ snode index, T.realCells snode true index = (S.realCells snode false index).snd
  intCells : T.intCells = S.intCells
  untouched : ∀ snode index, (∀ b, (⟨b, snode, index⟩ : Write) ∉ S.writes) →
    (S.realCells snode false index).snd = init snode index
  values : ∀ r ∈ sc.values, r.ty = .real → Met D atomics r →
    dualValue D T r = (S.reals r.name).snd
  vars : ∀ r ∈ sc.vars, r.ty = .real → Met D atomics r →
    dualValue D T r = (S.realVars r.name).snd

structure ScopeOk (n : Nat) (sc : Scope) : Prop where
  lt : ∀ x ∈ sc.names, x < n
  nodup : sc.names.Nodup
  vars_isConst : ∀ r ∈ sc.vars, r.isConst = false

structure DualMapOk (n : Nat) (D : Nat → Option Nat) : Prop where
  injective : ∀ x y a, D x = some a → D y = some a → x = y
  le : ∀ x a, D x = some a → n ≤ a

section Scopes

variable {n : Nat} {r x : Ref} {sc : Scope}

theorem ScopeOk.value_lt (h : ScopeOk n sc) (hr : r ∈ sc.values) : r.name < n :=
  h.lt _ (mem_map_of_mem (mem_append_left _ hr))

theorem ScopeOk.var_lt (h : ScopeOk n sc) (hr : r ∈ sc.vars) : r.name < n :=
  h.lt _ (mem_map_of_mem (mem_append_right _ hr))

theorem ScopeOk.eq_of_name (h : ScopeOk n sc) {r' : Ref}
    (hr : r ∈ sc.values ++ sc.vars) (hr' : r' ∈ sc.values ++ sc.vars) (hname : r.name = r'.name) :
    r = r' :=
  inj_on_of_nodup_map h.nodup hr hr' hname

theorem ScopeOk.name_ne (h : ScopeOk n sc) {r' : Ref}
    (hr : r ∈ sc.vars) (hr' : r' ∈ sc.values) : r.name ≠ r'.name := by
  have hnodup := h.nodup
  rw [Scope.names, map_append, nodup_append] at hnodup
  intro hname
  exact hnodup.2.2 _ (mem_map_of_mem hr') _ (mem_map_of_mem hr) hname.symm

theorem ScopeOk.extend {R : Type} (h : ScopeOk n sc) {s : Stmt R}
    (hws : s.WellScoped sc) (hlt : ∀ x ∈ s.own, x < n) (hnodup : s.own.Nodup)
    (hnew : ∀ x ∈ s.own, x ∉ sc.names) : ScopeOk n (sc.extend s) := by
  refine ⟨?_, ?_, ?_⟩
  · intro x hx
    rcases (sc.mem_names_extend s x).mp hx with hx | hx
    · exact h.lt x hx
    · exact hlt x hx
  · rw [(sc.names_extend_perm s).nodup_iff, nodup_append]
    refine ⟨hnodup, h.nodup, ?_⟩
    rintro x hx y hy rfl
    exact hnew x hx hy
  · intro r hr
    rcases mem_append.mp hr with hr | hr
    · cases s with
      | alloca x =>
        simp only [Stmt.var?, toList_some, mem_singleton] at hr
        rw [hr]
        exact hws
      | _ => simp [Stmt.var?] at hr
    · exact h.vars_isConst r hr

theorem ScopeOk.addValue (h : ScopeOk n sc) (hlt : x.name < n)
    (hnew : x.name ∉ sc.names) : ScopeOk n (sc.addValue x) := by
  refine ⟨?_, ?_, h.vars_isConst⟩
  · intro y hy
    rcases (sc.mem_names_addValue x y).mp hy with hy | rfl
    · exact h.lt y hy
    · exact hlt
  · exact nodup_cons.mpr ⟨hnew, h.nodup⟩

theorem DualMapOk.separated {D : Nat → Option Nat} (h : DualMapOk n D)
    (hname : x.name ≠ r.name) : Separated D x r := by
  intro d hx hr
  simp only [dualVar, ite_none_right_eq_some] at hx hr
  exact hname (h.injective _ _ d hx.2 hr.2)

theorem DualMapOk.dualVar_le {D : Nat → Option Nat} (h : DualMapOk n D)
    {c : Nat} (hx : dualVar D x = some c) : n ≤ c := by
  simp only [dualVar, ite_none_right_eq_some] at hx
  exact h.le _ c hx.2

end Scopes

section Steps

variable {D : Nat → Option Nat} {n : Nat} {atomics : List Nat} {init : Nat → List Int → R}
  {sc : Scope} {S : State (DualNumber R)} {T T' : State R}

theorem Rel.quiet (h : Rel D n atomics init sc S T) (hT : Quiet n T T') :
    Rel D n atomics init sc S T' where
  reals := fun x hx => (hT.reals x hx).trans (h.reals x hx)
  ints := fun x hx => (hT.ints x hx).trans (h.ints x hx)
  realVars := fun x hx => by rw [hT.realVars, h.realVars x hx]
  intVars := fun x hx => by rw [hT.intVars, h.intVars x hx]
  cells := fun snode index => by rw [hT.realCells, h.cells]
  dualCells := fun snode index => by rw [hT.realCells, h.dualCells]
  intCells := hT.intCells.trans h.intCells
  untouched := h.untouched
  values := fun r hr hty hmet => (dualValue_congr hT.realVars r).trans (h.values r hr hty hmet)
  vars := fun r hr hty hmet => (dualValue_congr hT.realVars r).trans (h.vars r hr hty hmet)

theorem Rel.weaken {sc' : Scope} (h : Rel D n atomics init sc' S T)
    (hvalues : sc.values ⊆ sc'.values) (hvars : sc.vars ⊆ sc'.vars) : Rel D n atomics init sc S T :=
  ⟨h.reals, h.ints, h.realVars, h.intVars, h.cells, h.dualCells, h.intCells, h.untouched,
    fun r hr => h.values r (hvalues hr), fun r hr => h.vars r (hvars hr)⟩

variable {ptr : GlobalPtr} {x : Ref}

theorem Rel.index (h : Rel D n atomics init sc S T)
    (hok : ScopeOk n sc) (hptr : sc.hasPtr ptr) : T.index ptr = S.index ptr := by
  apply map_congr_left
  intro r hr
  exact h.ints r.name (hok.value_lt (hptr.2 r hr).1)

theorem Rel.setInt (h : Rel D n atomics init sc S T) (x : Nat) (v : Int) :
    Rel D n atomics init sc (S.setInt x v) (T.setInt x v) := by
  refine ⟨h.reals, ?_, h.realVars, h.intVars, h.cells, h.dualCells, h.intCells, h.untouched,
    h.values, h.vars⟩
  intro y hy
  simp only [State.setInt, update_apply]
  split
  · rfl
  · exact h.ints y hy

theorem Rel.setIntVar (h : Rel D n atomics init sc S T) (x : Nat) (v : Int) :
    Rel D n atomics init sc (S.setIntVar x v) (T.setIntVar x v) := by
  refine ⟨h.reals, h.ints, h.realVars, ?_, h.cells, h.dualCells, h.intCells, h.untouched,
    h.values, h.vars⟩
  intro y hy
  simp only [State.setIntVar, update_apply]
  split
  · rfl
  · exact h.intVars y hy

theorem Rel.setReal (h : Rel D n atomics init sc S T) {x : Nat} (hx : x ∉ sc.names)
    (v : DualNumber R) : Rel D n atomics init sc (S.setReal x v) (T.setReal x v.fst) := by
  refine ⟨?_, h.ints, h.realVars, h.intVars, h.cells, h.dualCells, h.intCells, h.untouched, ?_,
    h.vars⟩
  · intro y hy
    simp only [State.setReal, update_apply]
    split
    · rfl
    · exact h.reals y hy
  · intro r hr hreal hmet
    have hne : r.name ≠ x := by
      rintro rfl
      exact hx (mem_map_of_mem (mem_append_left _ hr))
    simp only [State.setReal, update_of_ne hne]
    exact h.values r hr hreal hmet

theorem Rel.setDual (h : Rel D n atomics init sc S T) (hD : DualMapOk n D)
    (hx : x.name ∉ sc.names) (w : R) : Rel D n atomics init sc S (setDual D T x w) := by
  have hother : ∀ r ∈ sc.values ++ sc.vars, dualValue D (MakeDual.setDual D T x w) r =
      dualValue D T r := by
    intro r hr
    apply dualValue_setDual_of_ne
    apply hD.separated
    rintro hname
    exact hx (hname ▸ mem_map_of_mem hr)
  cases hc : dualVar D x with
  | none =>
    rw [setDual_of_none hc]
    exact h
  | some c =>
    have hT : MakeDual.setDual D T x w = T.setRealVar c w := by simp [MakeDual.setDual, hc]
    rw [hT] at hother ⊢
    refine ⟨h.reals, h.ints, ?_, h.intVars, h.cells, h.dualCells, h.intCells, h.untouched, ?_, ?_⟩
    · intro y hy
      have hne : y ≠ c := Nat.ne_of_lt (Nat.lt_of_lt_of_le hy (hD.dualVar_le hc))
      simp only [State.setRealVar, update_of_ne hne]
      exact h.realVars y hy
    · intro r hr hreal hmet
      rw [hother r (mem_append_left _ hr)]
      exact h.values r hr hreal hmet
    · intro r hr hreal hmet
      rw [hother r (mem_append_right _ hr)]
      exact h.vars r hr hreal hmet

theorem Rel.addValue (h : Rel D n atomics init sc S T)
    (hx : x.ty = .real → Met D atomics x → dualValue D T x = (S.reals x.name).snd) :
    Rel D n atomics init (sc.addValue x) S T := by
  refine ⟨h.reals, h.ints, h.realVars, h.intVars, h.cells, h.dualCells, h.intCells, h.untouched, ?_,
    h.vars⟩
  intro r hr hreal hmet
  rcases mem_cons.mp hr with rfl | hr
  · exact hx hreal hmet
  · exact h.values r hr hreal hmet

theorem Rel.defineInt (h : Rel D n atomics init sc S T) (hty : x.ty = .int) (v : Int) :
    Rel D n atomics init (sc.addValue x) (S.setInt x.name v) (T.setInt x.name v) := by
  apply (h.setInt x.name v).addValue
  intro hreal
  rw [hty] at hreal
  cases hreal

theorem Rel.defineReal (h : Rel D n atomics init sc S T) (hD : DualMapOk n D)
    (hx : x.name ∉ sc.names) (v : DualNumber R) (w : R)
    (hw : Met D atomics x → dualValue D (MakeDual.setDual D T x w) x = v.snd) :
    Rel D n atomics init (sc.addValue x) (S.setReal x.name v)
      (MakeDual.setDual D (T.setReal x.name v.fst) x w) := by
  apply ((h.setReal hx v).setDual hD hx w).addValue
  intro _ hmet
  rw [show (S.setReal x.name v).reals x.name = v from update_self .., ← hw hmet]
  cases hc : dualVar D x with
  | none => simp [dualValue, hc]
  | some c => rw [dualValue_setDual_self hc, dualValue_setDual_self hc]

theorem Rel.defineSum (h : Rel D n atomics init sc S T) (hD : DualMapOk n D)
    (hx : x.name ∉ sc.names) (hty : x.ty = .real) (hconst : x.isConst = false)
    (hzero : dualValue D T x = 0) {v : DualNumber R} {w : R} (hw : w = v.snd) :
    Rel D n atomics init (sc.addValue x) (S.setReal x.name v)
      (MakeDual.setDual D (T.setReal x.name v.fst) x
        (dualValue D (T.setReal x.name v.fst) x + w)) := by
  apply h.defineReal hD hx
  intro hmet
  have hdual : hasDual x = true := by simp [hasDual, hty, hconst]
  obtain ⟨c, hc⟩ := ne_none_iff_exists'.mp (hmet hdual).2
  have hvar : dualVar D x = some c := by simp [dualVar, hdual, hc]
  rw [dualValue_setDual_self hvar, ← hw]
  have hsame : dualValue D (T.setReal x.name v.fst) x = dualValue D T x := dualValue_congr rfl x
  rw [hsame, hzero, zero_add]

theorem dualValue_setRealVar (hD : DualMapOk n D) {x : Nat} (hx : x < n) (v : R) (r : Ref) :
    dualValue D (T.setRealVar x v) r = dualValue D T r := by
  cases hc : dualVar D r with
  | none => simp [dualValue, hc]
  | some c =>
    have hne : c ≠ x := (Nat.ne_of_lt (Nat.lt_of_lt_of_le hx (hD.dualVar_le hc))).symm
    simp [dualValue, hc, State.setRealVar, update_of_ne hne]

theorem Rel.declareReal (h : Rel D n atomics init sc S T) (hD : DualMapOk n D)
    (hlt : x.name < n) (hx : x.name ∉ sc.names) (hzero : dualValue D T x = 0) :
    Rel D n atomics init ⟨sc.values, x :: sc.vars⟩ (S.setRealVar x.name 0)
      (T.setRealVar x.name 0) := by
  refine ⟨h.reals, h.ints, ?_, h.intVars, h.cells, h.dualCells, h.intCells, h.untouched, ?_, ?_⟩
  · intro y hy
    simp only [State.setRealVar, update_apply]
    split
    · rw [TrivSqZeroExt.fst_zero]
    · exact h.realVars y hy
  · intro r hr hreal hmet
    rw [dualValue_setRealVar hD hlt]
    exact h.values r hr hreal hmet
  · intro r hr hreal hmet
    rw [dualValue_setRealVar hD hlt]
    rcases mem_cons.mp hr with rfl | hr
    · rw [hzero]
      simp [State.setRealVar]
    · have hne : r.name ≠ x.name := by
        intro hname
        exact hx (hname ▸ mem_map_of_mem (mem_append_right _ hr))
      simp only [State.setRealVar, update_of_ne hne]
      exact h.vars r hr hreal hmet

theorem Rel.declareInt (h : Rel D n atomics init sc S T) (hty : x.ty = .int) :
    Rel D n atomics init ⟨sc.values, x :: sc.vars⟩ (S.setIntVar x.name 0)
      (T.setIntVar x.name 0) := by
  obtain ⟨hreals, hints, hrv, hiv, hc, hdc, hic, hun, hval, hvar⟩ := h.setIntVar x.name 0
  refine ⟨hreals, hints, hrv, hiv, hc, hdc, hic, hun, hval, ?_⟩
  intro r hr hreal hmet
  rcases mem_cons.mp hr with rfl | hr
  · rw [hty] at hreal
    cases hreal
  · exact hvar r hr hreal hmet

theorem Rel.assignReal (h : Rel D n atomics init sc S T) (hD : DualMapOk n D)
    (hok : ScopeOk n sc) (hx : x ∈ sc.vars) (hty : x.ty = .real)
    (hmet : Met D atomics x) (v : DualNumber R) : Rel D n atomics init sc (S.setRealVar x.name v)
      (MakeDual.setDual D (T.setRealVar x.name v.fst) x v.snd) := by
  have hlt := hok.var_lt hx
  have hdual : hasDual x = true := by simp [hasDual, hty, hok.vars_isConst x hx]
  obtain ⟨c, hc⟩ := ne_none_iff_exists'.mp (hmet hdual).2
  have hvar : dualVar D x = some c := by simp [dualVar, hdual, hc]
  have hne : ∀ y < n, y ≠ c := fun y hy =>
    Nat.ne_of_lt (Nat.lt_of_lt_of_le hy (hD.dualVar_le hvar))
  have hself := dualValue_setDual_self hvar (T.setRealVar x.name v.fst) v.snd
  have hother : ∀ r : Ref, x.name ≠ r.name →
      dualValue D (MakeDual.setDual D (T.setRealVar x.name v.fst) x v.snd) r = dualValue D T r := by
    intro r hr
    rw [dualValue_setDual_of_ne (hD.separated hr), dualValue_setRealVar hD hlt]
  have hT : MakeDual.setDual D (T.setRealVar x.name v.fst) x v.snd =
      (T.setRealVar x.name v.fst).setRealVar c v.snd := by simp [MakeDual.setDual, hvar]
  rw [hT] at hself hother ⊢
  refine ⟨h.reals, h.ints, ?_, h.intVars, h.cells, h.dualCells, h.intCells, h.untouched, ?_, ?_⟩
  · intro y hy
    simp only [State.setRealVar, update_of_ne (hne y hy)]
    simp only [update_apply]
    split
    · rfl
    · exact h.realVars y hy
  · intro r hr hreal hr'
    rw [hother r (hok.name_ne hx hr)]
    exact h.values r hr hreal hr'
  · intro r hr hreal hr'
    by_cases hname : x.name = r.name
    · have hxr := hok.eq_of_name (mem_append_right _ hx) (mem_append_right _ hr) hname
      subst hxr
      rw [hself]
      simp [State.setRealVar]
    · rw [hother r hname]
      simp only [State.setRealVar, update_of_ne (Ne.symm hname)]
      exact h.vars r hr hreal hr'

theorem Rel.setIntCell (h : Rel D n atomics init sc S T)
    (hindex : T.index ptr = S.index ptr) (v : Int) :
    Rel D n atomics init sc (S.setIntCell ptr v) (T.setIntCell ptr v) := by
  refine ⟨h.reals, h.ints, h.realVars, h.intVars, h.cells, h.dualCells, ?_, h.untouched, h.values,
    h.vars⟩
  simp only [State.setIntCell, h.intCells, hindex]

theorem Rel.writeCell (h : Rel D n atomics init sc S T)
    (hptr : ptr.isDual = false) (hindex : T.index ptr = S.index ptr) (isStore : Bool)
    (v : DualNumber R) {w : R} (hw : T.cell (dualPtr ptr) + w = v.snd) :
    Rel D n atomics init sc (S.setCell isStore ptr v)
      ((T.setCell isStore ptr v.fst).setCell false (dualPtr ptr)
        ((T.setCell isStore ptr v.fst).cell (dualPtr ptr) + w)) := by
  rw [cell_dualPtr_setCell hptr, hw]
  have hT : ((T.setCell isStore ptr v.fst).setCell false (dualPtr ptr) v.snd).realCells =
      updateCell (updateCell T.realCells ptr.snode false (S.index ptr) v.fst) ptr.snode true
        (S.index ptr) v.snd := by
    rw [← hindex, ← hptr]
    rfl
  have hS : (S.setCell isStore ptr v).realCells =
      updateCell S.realCells ptr.snode false (S.index ptr) v := by
    rw [← hptr]
    rfl
  refine ⟨h.reals, h.ints, h.realVars, h.intVars, ?_, ?_, h.intCells, ?_, h.values, h.vars⟩
  · intro snode index
    rw [hT, hS]
    simp only [updateCell, Bool.false_eq_true, false_and, and_false, if_false, true_and]
    split
    · rfl
    · exact h.cells snode index
  · intro snode index
    rw [hT, hS]
    simp only [updateCell, Bool.true_eq_false, false_and, and_false, if_false, true_and]
    split
    · rfl
    · exact h.dualCells snode index
  · intro snode index hwrites
    have hne : ¬(snode = ptr.snode ∧ index = S.index ptr) := by
      rintro ⟨rfl, rfl⟩
      apply hwrites isStore
      simp [State.setCell, hptr]
    rw [hS]
    simp only [updateCell, true_and, if_neg hne]
    apply h.untouched
    intro b hb
    apply hwrites b
    simp [State.setCell, hptr, hb]

end Steps

section Arithmetic

variable [LinearOrder R]

theorem fst_evalArith (op : ArithOp) (a b : DualNumber R) :
    (evalArith dualLess op a b).fst = evalArith lessThan op a.fst b.fst := by
  cases op with
  | add | sub | mul => rfl
  | min | max => exact apply_ite TrivSqZeroExt.fst _ _ _

theorem snd_evalArith (op : ArithOp) (a b : DualNumber R) :
    (evalArith dualLess op a b).snd = tangent op a.fst b.fst a.snd b.snd := by
  cases op with
  | add => rfl
  | sub => exact sub_eq_add_neg _ _
  | mul => simp [evalArith, tangent, mul_comm]
  | min | max =>
    simp only [evalArith, tangent, dualLess, decide_eq_true_eq]
    exact apply_ite TrivSqZeroExt.snd _ _ _

omit [CommRing R] in
theorem evalCmp_dualLess (op : CmpOp) (a b : DualNumber R) :
    evalCmp dualLess op a b = evalCmp lessThan op a.fst b.fst := by
  cases op <;> rfl

end Arithmetic

section Statements

variable {D : Nat → Option Nat} {n : Nat} {atomics : List Nat}
  {init : Nat → List Int → R} {sc : Scope} {S : State (DualNumber R)} {T : State R}

structure Fresh (D : Nat → Option Nat) (n : Nat) (sc : Scope) (T : State R) (x : Ref) : Prop where
  lt : x.name < n
  not_mem : x.name ∉ sc.names
  clear : dualValue D T x = 0

variable (h : Rel D n atomics init sc S T) (hD : DualMapOk n D) (hok : ScopeOk n sc)

variable {a b val x : Ref}

include h hok in
theorem Rel.real (ha : a ∈ sc.values) : T.reals a.name = (S.reals a.name).fst :=
  h.reals a.name (hok.value_lt ha)

include h hok in
theorem Rel.int (ha : a ∈ sc.values) : T.ints a.name = S.ints a.name :=
  h.ints a.name (hok.value_lt ha)

include h hok in
theorem Rel.cell {ptr : GlobalPtr} (hptr : sc.hasPtr ptr) : T.cell ptr = (S.cell ptr).fst := by
  rw [State.cell, State.cell, h.index hok hptr, hptr.1]
  exact h.cells _ _

include h hok in
theorem Rel.dualCell {ptr : GlobalPtr} (hptr : sc.hasPtr ptr) :
    T.cell (dualPtr ptr) = (S.cell ptr).snd := by
  have hindex : T.index ptr = S.index ptr := h.index hok hptr
  rw [State.cell, State.cell, show T.index (dualPtr ptr) = T.index ptr from rfl, hindex, hptr.1]
  exact h.dualCells _ _

theorem Fresh.reals_setReal (hx : Fresh D n sc T x) (v : R)
    (ha : a ∈ sc.values) : (T.setReal x.name v).reals a.name = T.reals a.name := by
  apply update_of_ne
  intro hname
  exact hx.not_mem (hname ▸ mem_map_of_mem (mem_append_left _ ha))

include h hD in
theorem Rel.define (hx : Fresh D n sc T x) (hty : x.ty = .real)
    (hconst : x.isConst = false) {v : DualNumber R} {u w : R} (hu : u = v.fst) (hw : w = v.snd) :
    Rel D n atomics init (sc.addValue x) (S.setReal x.name v)
      (MakeDual.setDual D (T.setReal x.name u) x (dualValue D (T.setReal x.name u) x + w)) := by
  subst hu
  exact h.defineSum hD hx.not_mem hty hconst hx.clear hw

variable [LinearOrder R]

include h hD hok in
theorem Rel.neg (hws : (Stmt.neg x a : Stmt R).WellScoped sc)
    (hx : Fresh D n sc T x) (hmet : Met D atomics a) :
    Rel D n atomics init (sc.addValue x) (execStmt TrivSqZeroExt.inl dualLess S (.neg x a))
      (dualEffect D (execStmt id lessThan T (.neg x a)) (.neg x a)) := by
  obtain ⟨⟨ha, hta⟩, hconst⟩ := hws
  rw [execStmt, execStmt, dualEffect]
  cases hty : x.ty with
  | real =>
    refine h.define hD hx hty hconst ?_ ?_
    · rw [h.real hok ha]
      rfl
    · exact congrArg Neg.neg (h.values a ha (hta.trans hty) hmet)
  | int =>
    rw [setDual_of_int hty, h.int hok ha]
    exact h.defineInt hty _

include h hD hok in
theorem Rel.castValue (hws : (Stmt.castValue x a : Stmt R).WellScoped sc)
    (hx : Fresh D n sc T x) (hmet : a.ty = .real → Met D atomics a) :
    Rel D n atomics init (sc.addValue x) (execStmt TrivSqZeroExt.inl dualLess S (.castValue x a))
      (dualEffect D (execStmt id lessThan T (.castValue x a)) (.castValue x a)) := by
  obtain ⟨ha, hty, hconst⟩ := hws
  rw [execStmt, execStmt, dualEffect]
  cases hta : a.ty with
  | real =>
    rw [if_pos ⟨hty, rfl⟩]
    exact h.define hD hx hty hconst (h.real hok ha) (h.values a ha hta (hmet hta))
  | int =>
    rw [if_neg (fun hc => Ty.noConfusion hc.2)]
    have hset := h.setReal hx.not_mem (S.ints a.name : DualNumber R)
    rw [TrivSqZeroExt.fst_intCast] at hset
    rw [h.int hok ha]
    apply hset.addValue
    intro _ _
    rw [show (S.setReal x.name _).reals x.name = _ from update_self .., TrivSqZeroExt.snd_intCast]
    exact hx.clear

include h hD hok in
theorem Rel.binary {op : ArithOp}
    (hws : (Stmt.binary x op a b : Stmt R).WellScoped sc) (hx : Fresh D n sc T x)
    (hmeta : Met D atomics a) (hmetb : Met D atomics b) :
    Rel D n atomics init (sc.addValue x) (execStmt TrivSqZeroExt.inl dualLess S (.binary x op a b))
      (dualEffect D (execStmt id lessThan T (.binary x op a b)) (.binary x op a b)) := by
  obtain ⟨⟨ha, hta⟩, ⟨hb, htb⟩, hconst⟩ := hws
  rw [execStmt, execStmt, dualEffect]
  cases hty : x.ty with
  | real =>
    refine h.define hD hx hty hconst ?_ ?_
    · rw [fst_evalArith, h.real hok ha, h.real hok hb]
    · rw [snd_evalArith, ← h.real hok ha, ← h.real hok hb,
        ← h.values a ha (hta.trans hty) hmeta, ← h.values b hb (htb.trans hty) hmetb]
      have hra := hx.reals_setReal (evalArith lessThan op (T.reals a.name) (T.reals b.name)) ha
      have hrb := hx.reals_setReal (evalArith lessThan op (T.reals a.name) (T.reals b.name)) hb
      exact congrArg₂ (fun u v => tangent op u v (dualValue D T a) (dualValue D T b)) hra hrb
  | int =>
    rw [setDual_of_int hty, h.int hok ha, h.int hok hb]
    exact h.defineInt hty _

include h hD hok in
theorem Rel.select {c : Ref} (hws : (Stmt.select x c a b : Stmt R).WellScoped sc)
    (hx : Fresh D n sc T x) (hmeta : Met D atomics a) (hmetb : Met D atomics b) :
    Rel D n atomics init (sc.addValue x) (execStmt TrivSqZeroExt.inl dualLess S (.select x c a b))
      (dualEffect D (execStmt id lessThan T (.select x c a b)) (.select x c a b)) := by
  obtain ⟨⟨hc, _⟩, ⟨ha, hta⟩, ⟨hb, htb⟩, hconst⟩ := hws
  rw [execStmt, execStmt, dualEffect]
  cases hty : x.ty with
  | real =>
    refine h.define hD hx hty hconst ?_ ?_
    · rw [h.int hok hc, h.real hok ha, h.real hok hb, apply_ite TrivSqZeroExt.fst]
    · have hda := h.values a ha (hta.trans hty) hmeta
      have hdb := h.values b hb (htb.trans hty) hmetb
      rw [apply_ite TrivSqZeroExt.snd, ← hda, ← hdb, ← h.int hok hc]
      rfl
  | int =>
    rw [setDual_of_int hty, h.int hok hc, h.int hok ha, h.int hok hb]
    exact h.defineInt hty _

include h hok in
theorem Rel.compare {op : CmpOp} (hws : (Stmt.compare x op a b : Stmt R).WellScoped sc) :
    Rel D n atomics init (sc.addValue x) (execStmt TrivSqZeroExt.inl dualLess S (.compare x op a b))
      (execStmt id lessThan T (.compare x op a b)) := by
  obtain ⟨ha, ⟨hb, _⟩, hty⟩ := hws
  rw [execStmt, execStmt]
  cases a.ty with
  | real =>
    simp only [evalCmp_dualLess, ← h.real hok ha, ← h.real hok hb]
    exact h.defineInt hty _
  | int =>
    simp only [h.int hok ha, h.int hok hb]
    exact h.defineInt hty _

include h hok in
theorem Rel.logicNot (hws : (Stmt.logicNot x a : Stmt R).WellScoped sc) :
    Rel D n atomics init (sc.addValue x) (execStmt TrivSqZeroExt.inl dualLess S (.logicNot x a))
      (execStmt id lessThan T (.logicNot x a)) := by
  obtain ⟨⟨ha, _⟩, hty⟩ := hws
  rw [execStmt, execStmt, h.int hok ha]
  exact h.defineInt hty _

include h hok in
theorem Rel.intBinary {f : Int → Int → Int}
    (hws : (Stmt.intBinary x f a b : Stmt R).WellScoped sc) : Rel D n atomics init (sc.addValue x)
      (execStmt TrivSqZeroExt.inl dualLess S (.intBinary x f a b))
      (execStmt id lessThan T (.intBinary x f a b)) := by
  obtain ⟨⟨ha, _⟩, ⟨hb, _⟩, hty⟩ := hws
  rw [execStmt, execStmt, h.int hok ha, h.int hok hb]
  exact h.defineInt hty _

include h hD in
theorem Rel.alloca (hx : Fresh D n sc T x) : Rel D n atomics init ⟨sc.values, x :: sc.vars⟩
      (execStmt TrivSqZeroExt.inl dualLess S (.alloca x : Stmt R))
      (execStmt id lessThan T (.alloca x)) := by
  rw [execStmt, execStmt]
  cases hty : x.ty with
  | real => exact h.declareReal hD hx.lt hx.not_mem hx.clear
  | int => exact h.declareInt hty

include h hD hok in
theorem Rel.localLoad {src : Ref} (hws : (Stmt.localLoad x src : Stmt R).WellScoped sc)
    (hx : Fresh D n sc T x) (hmet : Met D atomics src) :
    Rel D n atomics init (sc.addValue x) (execStmt TrivSqZeroExt.inl dualLess S (.localLoad x src))
      (dualEffect D (execStmt id lessThan T (.localLoad x src)) (.localLoad x src)) := by
  obtain ⟨hsrc, hts, hconst⟩ := hws
  rw [execStmt, execStmt, dualEffect]
  cases hty : x.ty with
  | real =>
    exact h.define hD hx hty hconst (h.realVars _ (hok.var_lt hsrc))
      (h.vars src hsrc (hts.trans hty) hmet)
  | int =>
    rw [setDual_of_int hty, h.intVars _ (hok.var_lt hsrc)]
    exact h.defineInt hty _

include h hD hok in
theorem Rel.localStore {dest : Ref} (hws : (Stmt.localStore dest val : Stmt R).WellScoped sc)
    (hmetd : Met D atomics dest) (hmetv : Met D atomics val) :
    Rel D n atomics init sc (execStmt TrivSqZeroExt.inl dualLess S (.localStore dest val))
      (dualEffect D (execStmt id lessThan T (.localStore dest val)) (.localStore dest val)) := by
  obtain ⟨hdest, hval, htv⟩ := hws
  rw [execStmt, execStmt, dualEffect]
  cases hty : dest.ty with
  | real =>
    have hdv : dualValue D (T.setRealVar dest.name (T.reals val.name)) val =
        (S.reals val.name).snd := by
      rw [dualValue_setRealVar hD (hok.var_lt hdest)]
      exact h.values val hval (htv.trans hty) hmetv
    simp only [hdv]
    rw [h.real hok hval]
    exact h.assignReal hD hok hdest hty hmetd _
  | int =>
    rw [setDual_of_int hty, h.int hok hval]
    exact h.setIntVar _ _

include h hD hok in
theorem Rel.globalLoad {src : GlobalPtr}
    (hws : (Stmt.globalLoad x src : Stmt R).WellScoped sc) (hx : Fresh D n sc T x) :
    Rel D n atomics init (sc.addValue x) (execStmt TrivSqZeroExt.inl dualLess S (.globalLoad x src))
      (dualEffect D (execStmt id lessThan T (.globalLoad x src)) (.globalLoad x src)) := by
  obtain ⟨hsrc, hts, hconst⟩ := hws
  have hindex := h.index hok hsrc
  rw [execStmt, execStmt, dualEffect]
  cases hty : src.ty with
  | real =>
    rw [if_pos rfl]
    refine h.define hD hx (hts.trans hty) hconst ?_ ?_
    · exact h.cell hok hsrc
    · exact h.dualCell hok hsrc
  | int =>
    rw [if_neg Ty.noConfusion, h.intCells, hindex]
    exact h.defineInt (hts.trans hty) _

include h hok in
theorem Rel.globalStore {dest : GlobalPtr}
    (hws : (Stmt.globalStore dest val : Stmt R).WellScoped sc)
    (hmet : dest.ty = .real → Met D atomics val)
    (hstore : dest.ty = .real → (∀ b, (⟨b, dest.snode, S.index dest⟩ : Write) ∉ S.writes) ∧
      init dest.snode (S.index dest) = 0) :
    Rel D n atomics init sc (execStmt TrivSqZeroExt.inl dualLess S (.globalStore dest val))
      (dualEffect D (execStmt id lessThan T (.globalStore dest val)) (.globalStore dest val)) := by
  obtain ⟨hdest, hval, htv⟩ := hws
  have hindex := h.index hok hdest
  rw [execStmt, execStmt, dualEffect]
  cases hty : dest.ty with
  | real =>
    obtain ⟨hfresh, hinit⟩ := hstore hty
    rw [if_pos rfl, h.real hok hval]
    apply h.writeCell hdest.1 hindex
    -- the dual cell is still as it was before the kernel, that is zero
    have hzero : T.cell (dualPtr dest) = 0 := by
      rw [h.dualCell hok hdest, State.cell, hdest.1, h.untouched _ _ hfresh, hinit]
    rw [hzero, zero_add]
    exact h.values val hval (htv.trans hty) (hmet hty)
  | int =>
    rw [if_neg Ty.noConfusion, h.int hok hval]
    exact h.setIntCell hindex _

include h hok in
theorem Rel.atomicAdd {dest : GlobalPtr}
    (hws : (Stmt.atomicAdd x dest val : Stmt R).WellScoped sc) (hx : Fresh D n sc T x)
    (hmet : dest.ty = .real → Met D atomics val) (hatomic : dest.ty = .real → x.name ∈ atomics) :
    Rel D n atomics init (sc.addValue x)
      (execStmt TrivSqZeroExt.inl dualLess S (.atomicAdd x dest val))
      (dualEffect D (execStmt id lessThan T (.atomicAdd x dest val)) (.atomicAdd x dest val)) := by
  obtain ⟨hdest, ⟨hval, htv⟩, htx, hconst⟩ := hws
  have hindex := h.index hok hdest
  rw [execStmt, execStmt, dualEffect]
  cases hty : dest.ty with
  | real =>
    rw [if_pos rfl, h.real hok hval, h.cell hok hdest]
    have hw : T.cell (dualPtr dest) + dualValue D T val =
        (S.cell dest + S.reals val.name).snd := by
      rw [h.dualCell hok hdest, h.values val hval (htv.trans hty) (hmet hty)]
      rfl
    have hset := (h.writeCell hdest.1 hindex false _ hw).setReal hx.not_mem (S.cell dest)
    apply hset.addValue
    intro _ hmetx
    have hdual : hasDual x = true := by simp [hasDual, htx, hty, hconst]
    exact absurd (hatomic hty) (hmetx hdual).1
  | int =>
    rw [if_neg Ty.noConfusion, h.int hok hval, h.intCells, hindex]
    exact (h.setIntCell hindex _).defineInt (htx.trans hty) _

include h hD hok in
theorem Rel.simple {s : Stmt R} (hs : s.isSimple) (hws : s.WellScoped sc)
    (hown : ∀ x ∈ s.own, x < n ∧ x ∉ sc.names)
    (hzero : ∀ x ∈ s.own, ∀ a, D x = some a → T.realVars a = 0)
    (hmet : ∀ r ∈ mentionedRefs s, Met D atomics r)
    (hatomic : ∀ x dest val, s = .atomicAdd x dest val → dest.ty = .real → x.name ∈ atomics)
    (hstore : ∀ dest val, s = .globalStore dest val → dest.ty = .real →
      (∀ b, (⟨b, dest.snode, S.index dest⟩ : Write) ∉ S.writes) ∧
        init dest.snode (S.index dest) = 0) :
    Rel D n atomics init (sc.extend s) (execStmt TrivSqZeroExt.inl dualLess S s)
      (dualEffect D (execStmt id lessThan T s) s) := by
  have hfresh : ∀ x : Ref, x.name ∈ s.own → Fresh D n sc T x := by
    intro x hx
    refine ⟨(hown _ hx).1, (hown _ hx).2, ?_⟩
    cases hc : dualVar D x with
    | none => simp [dualValue, hc]
    | some c =>
      simp only [dualVar, ite_none_right_eq_some] at hc
      simpa [dualValue, dualVar, hc.1, hc.2] using hzero x.name hx c hc.2
  cases s with
  | ifStmt | rangeFor => simp [Stmt.isSimple] at hs
  | constReal x c =>
    have hx := hfresh x (mem_singleton_self _)
    have hvar : dualVar D x = none := by simp [dualVar, hasDual, hws.2]
    apply (h.setReal hx.not_mem (TrivSqZeroExt.inl c)).addValue
    intro _ _
    simp [dualValue, hvar, State.setReal]
  | constInt x c => exact h.defineInt hws c
  | neg x a =>
    exact h.neg hD hok hws (hfresh x (mem_singleton_self _)) (hmet a (by simp [mentionedRefs]))
  | castValue x a =>
    refine h.castValue hD hok hws (hfresh x (mem_singleton_self _)) fun hta => ?_
    exact hmet a (by simp [mentionedRefs, hws.2.1, hta])
  | logicNot x a => exact h.logicNot hok hws
  | binary x op a b =>
    exact h.binary hD hok hws (hfresh x (mem_singleton_self _))
      (hmet a (by simp [mentionedRefs])) (hmet b (by simp [mentionedRefs]))
  | compare x op a b => exact h.compare hok hws
  | intBinary x f a b => exact h.intBinary hok hws
  | select x c a b =>
    exact h.select hD hok hws (hfresh x (mem_singleton_self _))
      (hmet a (by simp [mentionedRefs])) (hmet b (by simp [mentionedRefs]))
  | alloca x => exact h.alloca hD (hfresh x (mem_singleton_self _))
  | localLoad x src =>
    exact h.localLoad hD hok hws (hfresh x (mem_singleton_self _))
      (hmet src (by simp [mentionedRefs]))
  | localStore dest val =>
    exact h.localStore hD hok hws (hmet dest (by simp [mentionedRefs]))
      (hmet val (by simp [mentionedRefs]))
  | globalLoad x src =>
    exact h.globalLoad hD hok hws (hfresh x (mem_singleton_self _))
  | globalStore dest val =>
    exact h.globalStore hok hws (fun hty => hmet val (by simp [mentionedRefs, hty]))
      (hstore dest val rfl)
  | atomicAdd x dest val =>
    exact h.atomicAdd hok hws (hfresh x (mem_singleton_self _))
      (fun hty => hmet val (by simp [mentionedRefs, hty])) (hatomic x dest val rfl)

end Statements

end Quadrants.AutoDiff.MakeDual
