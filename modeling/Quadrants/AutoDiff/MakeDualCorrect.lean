import Quadrants.AutoDiff.DualRelation
import Mathlib.Algebra.Order.Ring.Int

/-!
Forward-mode differentiation is correct: a body after `make_dual` computes in
its dual cells the dual components of a run of the original body over dual
numbers.
-/

namespace Quadrants.AutoDiff.MakeDual

open Quadrants.AutoDiff.Ir List

variable {R : Type}

variable {ms : List Nat} {n : Nat} {sc : Scope}

variable {D : Nat → Option Nat} {atomics defs defs' ms' results results' : List Nat} {s : Stmt R}

theorem setDual_realVars_of_ne {x a : Nat} {T : State R}
    {y : Ref} (hD : DualMapOk n D) (hx : D x = some a)
    (hxy : y.name ≠ x) (v : R) : (setDual D T y v).realVars a = T.realVars a := by
  cases hc : dualVar D y with
  | none => rw [setDual_of_none hc]
  | some c =>
    have hne : a ≠ c := by
      rintro rfl
      simp only [dualVar, Option.ite_none_right_eq_some] at hc
      exact hxy (hD.injective _ _ a hc.2 hx)
    simp only [setDual, hc]
    exact Function.update_of_ne hne _ _

mutual

def atomicResultsStmt : Stmt R → List Nat
  | .atomicAdd x dest _ => if dest.ty = .real then [x.name] else []
  | .ifStmt _ t f => atomicResults t ++ atomicResults f
  | .rangeFor _ _ _ body => atomicResults body
  | _ => []

def atomicResults : Block R → List Nat
  | .nil => []
  | .cons s rest => atomicResultsStmt s ++ atomicResults rest

end

/-- In the log `w`, a store goes to a cell that was not written before and whose
dual was zero. -/
def LogOk [Zero R] (init : Nat → List Int → R) (w : List Write) : Prop :=
  ∀ l r snode index, w = l ++ ⟨true, snode, index⟩ :: r →
    (∀ b, (⟨b, snode, index⟩ : Write) ∉ l) ∧ init snode index = 0

structure Final (D : Nat → Option Nat) (ps : PassState R) : Prop where
  keeps : Keeps D ps
  later : ∀ x a, D x = some a → ps.dualStmt x = none → ps.next ≤ a

theorem Final.of_grows {ls : List Nat} {ps ps' : PassState R}
    (hD : Final D ps') (h : Grows ms ls ps ps') : Final D ps := by
  refine ⟨hD.keeps.of_grows h, ?_⟩
  intro x a hx hps
  cases hps' : ps'.dualStmt x with
  | none => exact Nat.le_trans h.next_le (hD.later x a hx hps')
  | some b =>
    have hb := hD.keeps x b hps'
    rw [hx] at hb
    cases hb
    exact h.fresh x a hps hps'

structure Ready (n : Nat) (atomics : List Nat) (sc : Scope) (defs ms results : List Nat) :
    Prop where
  scope : ScopeOk n sc
  lt : ∀ x ∈ defs, x < n
  nodup : defs.Nodup
  fresh : ∀ x ∈ defs, x ∉ sc.names
  not_atomic : ∀ x ∈ ms, x ∉ atomics
  atomic : ∀ x ∈ results, x ∈ atomics

theorem Ready.left (h : Ready n atomics sc (defs ++ defs') (ms ++ ms') (results ++ results')) :
    Ready n atomics sc defs ms results where
  scope := h.scope
  lt := fun x hx => h.lt x (mem_append_left _ hx)
  nodup := (nodup_append.mp h.nodup).1
  fresh := fun x hx => h.fresh x (mem_append_left _ hx)
  not_atomic := fun x hx => h.not_atomic x (mem_append_left _ hx)
  atomic := fun x hx => h.atomic x (mem_append_left _ hx)

theorem Ready.right {sc' : Scope}
    (h : Ready n atomics sc (defs ++ defs') (ms ++ ms') (results ++ results'))
    (hok : ScopeOk n sc') (hsc : ∀ x ∈ sc'.names, x ∈ sc.names ∨ x ∈ defs) :
    Ready n atomics sc' defs' ms' results' where
  scope := hok
  lt := fun x hx => h.lt x (mem_append_right _ hx)
  nodup := (nodup_append.mp h.nodup).2.1
  fresh := by
    intro x hx hx'
    rcases hsc x hx' with hx' | hx'
    · exact h.fresh x (mem_append_right _ hx) hx'
    · exact (nodup_append.mp h.nodup).2.2 x hx' x hx rfl
  not_atomic := fun x hx => h.not_atomic x (mem_append_right _ hx)
  atomic := fun x hx => h.atomic x (mem_append_right _ hx)

theorem mentionedRefs_scope (hws : s.WellScoped sc) :
    ∀ r ∈ mentionedRefs s, r.name ∈ sc.names ∨ r.name ∈ s.own := by
  have hval : ∀ a ∈ sc.values, a.name ∈ sc.names :=
    fun a ha => mem_map_of_mem (mem_append_left _ ha)
  have hvar : ∀ a ∈ sc.vars, a.name ∈ sc.names :=
    fun a ha => mem_map_of_mem (mem_append_right _ ha)
  have hrefs : ∀ r ∈ mentionedRefs s, r ∈ sc.values ∨ r ∈ sc.vars ∨ s.value? = some r := by
    cases s with
    | neg x a => simp [mentionedRefs, Stmt.value?, hws.1.1]
    | castValue x a =>
      rw [mentionedRefs]
      split <;> simp [Stmt.value?, hws.1]
    | binary x op a b => simp [mentionedRefs, Stmt.value?, hws.1.1, hws.2.1.1]
    | select x c a b => simp [mentionedRefs, Stmt.value?, hws.2.1.1, hws.2.2.1.1]
    | localLoad x src => simp [mentionedRefs, Stmt.value?, hws.1]
    | localStore dest val => simp [mentionedRefs, hws.1, hws.2.1]
    | globalLoad x src =>
      rw [mentionedRefs]
      split <;> simp [Stmt.value?]
    | globalStore dest val =>
      rw [mentionedRefs]
      split <;> simp [hws.2.1]
    | atomicAdd x dest val =>
      rw [mentionedRefs]
      split <;> simp [hws.2.1.1]
    | _ => simp [mentionedRefs]
  intro r hr
  rcases hrefs r hr with h | h | h
  · exact .inl (hval r h)
  · exact .inl (hvar r h)
  · exact .inr (by simp [Stmt.own, h])

theorem mentions_scope (b : Block R) : ∀ sc, b.WellScoped sc →
    ∀ x ∈ mentions b, x ∈ sc.names ∨ x ∈ b.defs := by
  induction b using Block.rule (P := fun s => ∀ sc, s.WellScoped sc →
    ∀ x ∈ mentionsStmt s, x ∈ sc.names ∨ x ∈ s.defs) with
  | simple s hs sc hws x hx =>
    rw [mentionsStmt_simple hs, mem_mentionedNames] at hx
    obtain ⟨r, hr, _, rfl⟩ := hx
    rw [Stmt.defs_of_isSimple hs]
    exact mentionedRefs_scope hws r hr
  | ifStmt cond t f iht ihf sc hws x hx =>
    rw [mentionsStmt, mem_append] at hx
    rw [Stmt.defs, mem_append]
    rcases hx with hx | hx
    · rcases iht sc hws.2.1 x hx with h | h
      · exact .inl h
      · exact .inr (.inl h)
    · rcases ihf sc hws.2.2 x hx with h | h
      · exact .inl h
      · exact .inr (.inr h)
  | rangeFor index begin' end' body ih sc hws x hx =>
    rw [Stmt.defs, mem_cons]
    rcases ih _ hws.2.2.2 x hx with h | h
    · rcases (sc.mem_names_addValue index x).mp h with h | h
      · exact .inl h
      · exact .inr (.inl h)
    · exact .inr (.inr h)
  | nil =>
    intro sc _ x hx
    simp [mentions] at hx
  | cons s rest ihs ihr =>
    intro sc hws x hx
    rw [mentions, mem_append] at hx
    rw [Block.defs, mem_append]
    rcases hx with hx | hx
    · rcases ihs sc hws.1 x hx with h | h
      · exact .inl h
      · exact .inr (.inl h)
    · rcases ihr _ hws.2 x hx with h | h
      · rcases (sc.mem_names_extend s x).mp h with h | h
        · exact .inl h
        · exact .inr (.inl (s.own_sublist_defs.subset h))
      · exact .inr (.inr h)

theorem mentionsStmt_scope (hws : s.WellScoped sc) :
    ∀ x ∈ mentionsStmt s, x ∈ sc.names ∨ x ∈ s.defs := by
  have h := mentions_scope (.cons s .nil) sc ⟨hws, trivial⟩
  rw [mentions, mentions, append_nil, Block.defs, Block.defs, append_nil] at h
  exact h

section Frame

variable [CommRing R] [LinearOrder R] {D : Nat → Option Nat} {n : Nat} {sc : Scope} {T : State R}
variable {s : Stmt R} {x a : Nat}

theorem execStmt_realVars (hs : s.isSimple) (hok : ScopeOk n sc) (hws : s.WellScoped sc)
    (hown : ∀ y ∈ s.own, y < n) (ha : n ≤ a) :
    (execStmt id lessThan T s).realVars a = T.realVars a := by
  have hset : ∀ (y : Nat) (v : R), y < n → (T.setRealVar y v).realVars a = T.realVars a :=
    fun y v hy => Function.update_of_ne (Nat.ne_of_lt (Nat.lt_of_lt_of_le hy ha)).symm _ _
  cases s with
  | ifStmt | rangeFor => simp [Stmt.isSimple] at hs
  | constReal | constInt | logicNot | intBinary => rfl
  | alloca y =>
    rw [execStmt]
    split
    · exact hset _ _ (hown _ (mem_singleton_self _))
    · rfl
  | localStore dest val =>
    rw [execStmt]
    split
    · exact hset _ _ (hok.var_lt hws.1)
    · rfl
  | _ =>
    rw [execStmt]
    split <;> rfl

theorem dualEffect_frame (hs : s.isSimple) (hD : DualMapOk n D) (hok : ScopeOk n sc)
    (hws : s.WellScoped sc) (hown : ∀ y ∈ s.own, y < n) (hx : x ∉ sc.names) (hx' : x ∉ s.own)
    (hDx : D x = some a) :
    (dualEffect D (execStmt id lessThan T s) s).realVars a = T.realVars a := by
  have hexec := execStmt_realVars (T := T) hs hok hws hown (hD.le x a hDx)
  have hset : ∀ (y : Ref) (v : R), y.name ∈ s.own →
      (setDual D (execStmt id lessThan T s) y v).realVars a = T.realVars a := by
    intro y v hy
    rw [setDual_realVars_of_ne hD hDx (fun hyx => hx' (hyx ▸ hy)), hexec]
  cases s with
  | ifStmt | rangeFor => simp [Stmt.isSimple] at hs
  | neg y | binary y | select y | localLoad y => exact hset y _ (mem_singleton_self _)
  | castValue y b =>
    rw [dualEffect]
    split
    · exact hset y _ (mem_singleton_self _)
    · exact hexec
  | localStore dest val =>
    rw [dualEffect, setDual_realVars_of_ne hD hDx, hexec]
    intro hdx
    exact hx (hdx ▸ mem_map_of_mem (mem_append_right _ hws.1))
  | globalLoad y src =>
    rw [dualEffect]
    split
    · exact hset y _ (mem_singleton_self _)
    · exact hexec
  | globalStore dest val =>
    rw [dualEffect]
    split
    · exact hexec
    · exact hexec
  | atomicAdd y dest val =>
    rw [dualEffect]
    split
    · exact hexec
    · exact hexec
  | _ => exact hexec

end Frame

section Simulation

variable [CommRing R] (D : Nat → Option Nat) (n : Nat) (atomics : List Nat) (init : Nat → List Int → R)
  (w : List Write)

/-- `g` simulates `f`: the relation is kept, provided that the variables of
`frame` are clear, and only variables of `defs` and of the scope are changed. -/
def Simulates (sc sc' : Scope) (defs frame : List Nat)
    (f : State (DualNumber R) → State (DualNumber R)) (g : State R → State R) : Prop :=
  ∀ S T, Rel D n atomics init sc S T → (∀ x ∈ frame, ∀ a, D x = some a → T.realVars a = 0) →
    (f S).writes <+: w →
    Rel D n atomics init sc' (f S) (g T) ∧
      ∀ x a, x ∉ sc.names → x ∉ defs → D x = some a → (g T).realVars a = T.realVars a

variable {D n atomics init w}

variable {defs frame : List Nat} {f : State (DualNumber R) → State (DualNumber R)}
variable {g : State R → State R} {sc : Scope}

theorem Simulates.seq {sc₁ sc₂ : Scope} {defs' frame' : List Nat}
    {f' : State (DualNumber R) → State (DualNumber R)} {g' : State R → State R}
    (h : Simulates D n atomics init w sc sc₁ defs frame f g)
    (h' : Simulates D n atomics init w sc₁ sc₂ defs' frame' f' g')
    (hsc : ∀ x ∈ sc₁.names, x ∈ sc.names ∨ x ∈ defs)
    (hframe : ∀ x ∈ frame', x ∉ sc.names ∧ x ∉ defs) (hwrites : ∀ S, S.writes <+: (f' S).writes) :
    Simulates D n atomics init w sc sc₂ (defs ++ defs') (frame ++ frame') (fun S => f' (f S))
      (fun T => g' (g T)) := by
  intro S T hrel hclear hw
  obtain ⟨hrel₁, hsame₁⟩ := h S T hrel (fun x hx => hclear x (mem_append_left _ hx))
    ((hwrites _).trans hw)
  obtain ⟨hrel₂, hsame₂⟩ := h' (f S) (g T) hrel₁ (by
    intro x hx a ha
    rw [hsame₁ x a (hframe x hx).1 (hframe x hx).2 ha]
    exact hclear x (mem_append_right _ hx) a ha) hw
  refine ⟨hrel₂, ?_⟩
  intro x a hx hxd ha
  rw [mem_append, not_or] at hxd
  rw [hsame₂ x a (fun hx₁ => (hsc x hx₁).elim hx hxd.1) hxd.2 ha, hsame₁ x a hx hxd.1 ha]

theorem Simulates.weaken {sc' sc'' : Scope}
    (h : Simulates D n atomics init w sc sc' defs frame f g) (hvalues : sc''.values ⊆ sc'.values)
    (hvars : sc''.vars ⊆ sc'.vars) : Simulates D n atomics init w sc sc'' defs frame f g := by
  intro S T hrel hclear hw
  obtain ⟨hrel', hsame⟩ := h S T hrel hclear hw
  exact ⟨hrel'.weaken hvalues hvars, hsame⟩

theorem Simulates.repeat
    {f : Int → State (DualNumber R) → State (DualNumber R)} {g : Int → State R → State R}
    (h : ∀ i, Simulates D n atomics init w sc sc defs [] (f i) (g i))
    (hwrites : ∀ i S, S.writes <+: (f i S).writes) (count : Nat) : ∀ i,
    Simulates D n atomics init w sc sc defs [] (repeatRange f count i) (repeatRange g count i) := by
  induction count with
  | zero => exact fun i S T hrel _ _ => ⟨hrel, fun _ _ _ _ _ => rfl⟩
  | succ count ih =>
    intro i S T hrel hclear hw
    have hlonger : (f i S).writes <+: (repeatRange f count (i + 1) (f i S)).writes :=
      repeatRange_rule (P := fun S' => (f i S).writes <+: S'.writes) f
        (fun j S' hS' => hS'.trans (hwrites j S')) count _ _ (prefix_refl _)
    obtain ⟨hrel₁, hsame₁⟩ := h i S T hrel hclear (hlonger.trans hw)
    obtain ⟨hrel₂, hsame₂⟩ := ih (i + 1) (f i S) (g i T) hrel₁ (by simp) hw
    refine ⟨hrel₂, fun x a hx hxd ha => ?_⟩
    rw [← hsame₁ x a hx hxd ha]
    exact hsame₂ x a hx hxd ha

def clearVars (vars : List Nat) (T : State R) : State R :=
  { T with realVars := fun a => if a ∈ vars then 0 else T.realVars a }

variable {vars : List Nat}

theorem Rel.clearVars {S : State (DualNumber R)} {T : State R}
    (h : Rel D n atomics init sc S T) (hle : ∀ a ∈ vars, n ≤ a)
    (hvars : ∀ x ∈ sc.names, ∀ a ∈ vars, D x ≠ some a) :
    Rel D n atomics init sc S (clearVars vars T) := by
  have hdual : ∀ r ∈ sc.values ++ sc.vars,
      dualValue D (MakeDual.clearVars vars T) r = dualValue D T r := by
    intro r hr
    cases hc : dualVar D r with
    | none => simp [dualValue, hc]
    | some c =>
      simp only [dualVar, Option.ite_none_right_eq_some] at hc
      have hcv : c ∉ vars := fun hcv => hvars _ (mem_map_of_mem hr) c hcv hc.2
      simp [dualValue, dualVar, hc.1, hc.2, MakeDual.clearVars, hcv]
  refine ⟨h.reals, h.ints, ?_, h.intVars, h.cells, h.dualCells, h.intCells, h.untouched, ?_, ?_⟩
  · intro x hx
    have hxv : x ∉ vars := fun hxv => absurd (hle x hxv) (Nat.not_le_of_lt hx)
    simp only [MakeDual.clearVars, hxv, if_false]
    exact h.realVars x hx
  · intro r hr hreal hmet
    rw [hdual r (mem_append_left _ hr)]
    exact h.values r hr hreal hmet
  · intro r hr hreal hmet
    rw [hdual r (mem_append_right _ hr)]
    exact h.vars r hr hreal hmet

theorem Simulates.clearVars
    (h : Simulates D n atomics init w sc sc defs frame f g) (hD : DualMapOk n D)
    (hdefs : ∀ x ∈ defs, x ∉ sc.names) (hvars : ∀ a ∈ vars, ∃ x ∈ defs, D x = some a)
    (hframe : ∀ x ∈ frame, ∀ a, D x = some a → a ∈ vars) :
    Simulates D n atomics init w sc sc defs [] f fun T => g (clearVars vars T) := by
  intro S T hrel _ hw
  have hother : ∀ x a, x ∉ defs → D x = some a → a ∉ vars := by
    intro x a hx ha hav
    obtain ⟨y, hy, hya⟩ := hvars a hav
    exact hx (hD.injective y x a hya ha ▸ hy)
  have hrel' : Rel D n atomics init sc S (MakeDual.clearVars vars T) := by
    apply hrel.clearVars
    · intro a ha
      obtain ⟨x, _, hx⟩ := hvars a ha
      exact hD.le x a hx
    · intro x hx a ha hxa
      exact hother x a (fun hxd => hdefs x hxd hx) hxa ha
  obtain ⟨hrel'', hsame⟩ := h S _ hrel' (by
    intro x hx a ha
    simp [MakeDual.clearVars, hframe x hx a ha]) hw
  refine ⟨hrel'', fun x a hx hxd ha => ?_⟩
  rw [hsame x a hx hxd ha]
  simp [MakeDual.clearVars, hother x a hxd ha]

theorem setInt_simulates {x : Ref} (hty : x.ty = .int) (v : Int) :
    Simulates D n atomics init w sc (sc.addValue x) [x.name] []
      (fun S => S.setInt x.name v) (fun T => T.setInt x.name v) :=
  fun _ _ hrel _ _ => ⟨hrel.defineInt hty v, fun _ _ _ _ _ => rfl⟩

variable [LinearOrder R]

theorem execBlock_allocaBlock (vars : List Nat) : ∀ T : State R,
    execBlock id lessThan T (allocaBlock vars) = clearVars vars T := by
  induction vars with
  | nil => intro T; simp [allocaBlock, Block.ofList, execBlock, clearVars]
  | cons a vars ih =>
    intro T
    have hstep : execBlock id lessThan T (allocaBlock (a :: vars)) =
        execBlock id lessThan (T.setRealVar a 0) (allocaBlock vars) := rfl
    rw [hstep, ih]
    simp only [clearVars, State.setRealVar, State.mk.injEq, true_and, and_true]
    funext c
    by_cases hca : c = a
    · simp [hca]
    · simp [hca]

theorem visitStmt_simple_simulates {s : Stmt R} (hs : s.isSimple) (hD : DualMapOk n D)
    (hlog : LogOk init w) {ps : PassState R}
    (hready : Ready n atomics sc s.defs (mentionsStmt s) (atomicResultsStmt s))
    (hws : s.WellScoped sc) (hn : n ≤ ps.next) (hfinal : Keeps D (visitStmt s ps).2) :
    Simulates D n atomics init w sc (sc.extend s) s.defs s.frameDefs
      (fun S => execStmt TrivSqZeroExt.inl dualLess S s)
      (fun T => execBlock id lessThan T (visitStmt s ps).1) := by
  intro S T hrel hclear hw
  rw [Stmt.frameDefs_of_isSimple hs] at hclear
  rw [visitStmt_simple hs] at hfinal
  have hdefs := Stmt.defs_of_isSimple hs
  have hlt : ∀ y ∈ s.own, y < n := fun y hy => hready.lt y (hdefs ▸ hy)
  have hnot : ∀ y ∈ s.own, y ∉ sc.names := fun y hy => hready.fresh y (hdefs ▸ hy)
  have hrun : execBlock id lessThan T (visitStmt s ps).1 =
      after (execStmt id lessThan T s) (visitSimple s { ps with inserted := [] }).2 := by
    rw [visitStmt_simple hs, execBlock, execBlock_ofList]
    rfl
  have hquiet : Quiet n (dualEffect D (execStmt id lessThan T s) s)
      (execBlock id lessThan T (visitStmt s ps).1) := by
    rw [hrun]
    refine (visitSimple_effect hs hws ?_ ?_ ?_ hfinal).mono hn
    · exact fun r hr => Nat.lt_of_lt_of_le (hready.scope.value_lt hr) hn
    · intro x hx r hr
      apply hD.separated
      intro hname
      apply hnot x.name (by simp [Stmt.own, hx])
      rw [hname]
      exact mem_map_of_mem hr
    · exact fun x hx r hr => hD.separated (hready.scope.name_ne hx hr)
  constructor
  · refine (hrel.simple hD hready.scope hs hws (fun y hy => ⟨hlt y hy, hnot y hy⟩) hclear ?_ ?_
      ?_).quiet hquiet
    · intro r hr hdual
      have hmem : r.name ∈ mentionedNames (mentionedRefs s) :=
        (mem_mentionedNames _ _).mpr ⟨r, hr, hdual, rfl⟩
      refine ⟨hready.not_atomic _ (by rw [mentionsStmt_simple hs]; exact hmem), ?_⟩
      obtain ⟨a, ha⟩ := Option.ne_none_iff_exists'.mp ((visitSimple_mentions s _).met _ hmem)
      rw [hfinal _ _ ha]
      exact Option.some_ne_none a
    · rintro x dest val rfl hty
      exact hready.atomic _ (by simp [atomicResultsStmt, hty])
    · rintro dest val rfl hty
      obtain ⟨r, hr⟩ := hw
      apply hlog S.writes r dest.snode (S.index dest)
      rw [← hr]
      simp [execStmt, hty, State.setCell, hws.1.1]
  · intro x a hx hxd ha
    rw [hdefs] at hxd
    rw [hquiet.realVars]
    exact dualEffect_frame hs hD hready.scope hws hlt hx hxd ha

end Simulation

section Frames

variable {D : Nat → Option Nat} {b : Block R} {ps inner : PassState R}

theorem frame_variables (hg : Grows (mentions b) b.loopDefs ps inner) (hps : ps.allocas = [])
    (hin : ∀ x ∈ mentions b, x ∉ b.defs → ps.dualStmt x ≠ none)
    (hnew : ∀ x ∈ b.defs, ps.dualStmt x = none) (hnodup : b.defs.Nodup)
    (hkeeps : Keeps D inner) (hsettled : ∀ x ∈ b.defs, D x = inner.dualStmt x) :
    (∀ a ∈ inner.allocas, ∃ x ∈ b.defs, D x = some a) ∧
      ∀ x ∈ b.frameDefs, ∀ a, D x = some a → a ∈ inner.allocas := by
  have hperm := defs_perm b
  constructor
  · intro a ha
    rcases hg.allocas_new a ha with ha | ⟨x, hx, hx'⟩
    · rw [hps] at ha
      cases ha
    · refine ⟨x, ?_, hkeeps x a hx'⟩
      by_contra hxd
      exact hin x (hg.mentioned x a hx hx') hxd hx
  · intro x hx a ha
    have hxd : x ∈ b.defs := hperm.mem_iff.mpr (mem_append_left _ hx)
    rw [hsettled x hxd] at ha
    rcases hg.located x a (hnew x hxd) ha with ha | hxl
    · exact ha
    · have hdisjoint := (nodup_append.mp (hperm.nodup_iff.mp hnodup)).2.2
      exact absurd rfl (hdisjoint x hx x hxl)

theorem Grows.dualStmt_eq {ms ls : List Nat} {x : Nat} (hg : Grows ms ls ps inner) (hx : x ∉ ms) :
    inner.dualStmt x = ps.dualStmt x := by
  cases hi : inner.dualStmt x with
  | none =>
    cases hp : ps.dualStmt x with
    | none => rfl
    | some a =>
      rw [hg.keep x a hp] at hi
      cases hi
  | some a =>
    rcases hg.some_or_none hi with hp | hp
    · exact hp.symm
    · exact absurd (hg.mentioned x a hp hi) hx

structure Visiting (D : Nat → Option Nat) (n : Nat) (seen defs settled : List Nat)
    (ps ps' : PassState R) : Prop where
  seen : ∀ x ∈ seen, ps.dualStmt x ≠ none
  next_le : n ≤ ps.next
  new : ∀ x ∈ defs, ps.dualStmt x = none
  final : Final D ps'
  settled : ∀ x ∈ settled, D x = ps'.dualStmt x

end Frames

section Visits

variable [CommRing R] [LinearOrder R] (D : Nat → Option Nat) (n : Nat) (atomics : List Nat)
  (init : Nat → List Int → R) (w : List Write)

def BlockSimulates (b : Block R) : Prop :=
  ∀ (sc : Scope) (seen : List Nat) (ps : PassState R),
    Ready n atomics sc b.defs (mentions b) (atomicResults b) → b.WellScoped sc →
    MetBeforeLoops seen b → Visiting D n seen b.defs b.defs ps (visitBlock b ps).2 →
    Simulates D n atomics init w sc sc b.defs b.frameDefs
      (fun S => execBlock TrivSqZeroExt.inl dualLess S b)
      (fun T => execBlock id lessThan T (visitBlock b ps).1)

def StmtSimulates (s : Stmt R) : Prop :=
  ∀ (sc : Scope) (seen : List Nat) (ps : PassState R),
    Ready n atomics sc s.defs (mentionsStmt s) (atomicResultsStmt s) → s.WellScoped sc →
    MetBeforeLoopsStmt seen s →
    Visiting D n seen s.defs (s.defs.filter (· ∉ s.own)) ps (visitStmt s ps).2 →
    Simulates D n atomics init w sc (sc.extend s) s.defs s.frameDefs
      (fun S => execStmt TrivSqZeroExt.inl dualLess S s)
      (fun T => execBlock id lessThan T (visitStmt s ps).1)

variable {D n atomics init w}

theorem cons_simulates {s : Stmt R} {rest : Block R}
    (hs : StmtSimulates D n atomics init w s) (hr : BlockSimulates D n atomics init w rest) :
    BlockSimulates D n atomics init w (.cons s rest) := by
  intro sc seen ps hready hws hmet hv
  have hgs := visitStmt_grows s seen ps hmet.1 hv.seen
  have hgr := visitBlock_grows rest _ _ hmet.2 (hgs.seen hv.seen)
  have hready' : Ready n atomics sc s.defs (mentionsStmt s) (atomicResultsStmt s) := hready.left
  have hscope : ∀ x ∈ (sc.extend s).names, x ∈ sc.names ∨ x ∈ s.defs := by
    intro x hx
    rcases (sc.mem_names_extend s x).mp hx with hx | hx
    · exact .inl hx
    · exact .inr (s.own_sublist_defs.subset hx)
  have hok : ScopeOk n (sc.extend s) :=
    hready'.scope.extend hws.1 (fun x hx => hready'.lt x (s.own_sublist_defs.subset hx))
      (hready'.nodup.sublist s.own_sublist_defs)
      (fun x hx => hready'.fresh x (s.own_sublist_defs.subset hx))
  have hready'' : Ready n atomics (sc.extend s) rest.defs (mentions rest) (atomicResults rest) :=
    Ready.right hready hok hscope
  have hdisjoint := (nodup_append.mp hready.nodup).2.2
  have hvs : Visiting D n seen s.defs (s.defs.filter (· ∉ s.own)) ps (visitStmt s ps).2 := by
    refine ⟨hv.seen, hv.next_le, fun x hx => hv.new x (mem_append_left _ hx),
      hv.final.of_grows hgr, ?_⟩
    intro x hx
    rw [mem_filter, decide_eq_true_eq] at hx
    rw [hv.settled x (mem_append_left _ hx.1)]
    apply hgr.dualStmt_eq
    intro hxm
    rcases mentions_scope rest _ hws.2 x hxm with hxs | hxr
    · rcases (sc.mem_names_extend s x).mp hxs with hxs | hxs
      · exact hready'.fresh x hx.1 hxs
      · exact hx.2 hxs
    · exact hdisjoint x hx.1 x hxr rfl
  have hvr : Visiting D n (seen ++ mentionsStmt s) rest.defs rest.defs (visitStmt s ps).2
      (visitBlock rest (visitStmt s ps).2).2 := by
    refine ⟨hgs.seen hv.seen, Nat.le_trans hv.next_le hgs.next_le, ?_, hv.final,
      fun x hx => hv.settled x (mem_append_right _ hx)⟩
    intro x hx
    rw [hgs.dualStmt_eq, hv.new x (mem_append_right _ hx)]
    intro hxm
    rcases mentionsStmt_scope hws.1 x hxm with hxs | hxs
    · exact hready.fresh x (mem_append_right _ hx) hxs
    · exact hdisjoint x hxs x hx rfl
  have hrun : (fun T : State R => execBlock id lessThan T (visitBlock (.cons s rest) ps).1) =
      fun T => execBlock id lessThan (execBlock id lessThan T (visitStmt s ps).1)
        (visitBlock rest (visitStmt s ps).2).1 := by
    funext T
    rw [visitBlock_cons, execBlock_append]
  rw [hrun]
  have hseq := (hs sc seen ps hready' hws.1 hmet.1 hvs).seq
    (hr _ _ _ hready'' hws.2 hmet.2 hvr) hscope ?_ (execBlock_writes _ _ rest)
  · exact hseq.weaken (subset_append_right _ _) (subset_append_right _ _)
  · intro x hx
    have hxd := frameDefs_subset rest hx
    exact ⟨hready.fresh x (mem_append_right _ hxd), fun hxs => hdisjoint x hxs x hxd rfl⟩

theorem ifStmt_simulates {cond : Ref} {t f : Block R}
    (ht : BlockSimulates D n atomics init w t) (hf : BlockSimulates D n atomics init w f) :
    StmtSimulates D n atomics init w (.ifStmt cond t f) := by
  intro sc seen ps hready hws hmet hv
  have hgt := visitBlock_grows t seen ps hmet.1 hv.seen
  have hgf := visitBlock_grows f _ _ hmet.2 (hgt.seen hv.seen)
  have hreadyt : Ready n atomics sc t.defs (mentions t) (atomicResults t) := Ready.left hready
  have hreadyf : Ready n atomics sc f.defs (mentions f) (atomicResults f) :=
    Ready.right hready hready.scope fun x hx => .inl hx
  have hdisjoint := (nodup_append.mp hready.nodup).2.2
  have hsettled : ∀ x ∈ t.defs ++ f.defs, D x = (visitBlock f (visitBlock t ps).2).2.dualStmt x := by
    intro x hx
    apply hv.settled
    rw [mem_filter, decide_eq_true_eq]
    exact ⟨hx, not_mem_nil⟩
  have hvt : Visiting D n seen t.defs t.defs ps (visitBlock t ps).2 := by
    refine ⟨hv.seen, hv.next_le, fun x hx => hv.new x (mem_append_left _ hx),
      hv.final.of_grows hgf, ?_⟩
    intro x hx
    rw [hsettled x (mem_append_left _ hx)]
    apply hgf.dualStmt_eq
    intro hxm
    rcases mentions_scope f sc hws.2.2 x hxm with hxs | hxf
    · exact hreadyt.fresh x hx hxs
    · exact hdisjoint x hx x hxf rfl
  have hvf : Visiting D n (seen ++ mentions t) f.defs f.defs (visitBlock t ps).2
      (visitBlock f (visitBlock t ps).2).2 := by
    refine ⟨hgt.seen hv.seen, Nat.le_trans hv.next_le hgt.next_le, ?_, hv.final,
      fun x hx => hsettled x (mem_append_right _ hx)⟩
    intro x hx
    rw [hgt.dualStmt_eq, hv.new x (mem_append_right _ hx)]
    intro hxm
    rcases mentions_scope t sc hws.2.1 x hxm with hxs | hxt
    · exact hreadyf.fresh x hx hxs
    · exact hdisjoint x hxt x hx rfl
  have hst := ht sc seen ps hreadyt hws.2.1 hmet.1 hvt
  have hsf := hf sc _ _ hreadyf hws.2.2 hmet.2 hvf
  intro S T hrel hclear hw
  have hcond : T.ints cond.name = S.ints cond.name := hrel.int hready.scope hws.1.1
  by_cases hc : S.ints cond.name ≠ 0
  · have hS : execStmt TrivSqZeroExt.inl dualLess S (.ifStmt cond t f) =
        execBlock TrivSqZeroExt.inl dualLess S t := by
      rw [execStmt, if_pos hc]
    have hT : execBlock id lessThan T (visitStmt (.ifStmt cond t f) ps).1 =
        execBlock id lessThan T (visitBlock t ps).1 := by
      rw [visitStmt_ifStmt, execBlock, execBlock, execStmt, if_pos (hcond ▸ hc)]
    simp only [hS, hT] at hw ⊢
    obtain ⟨hrel', hsame⟩ := hst S T hrel
      (fun x hx => hclear x (mem_append_left _ hx)) hw
    exact ⟨hrel', fun x a hx hxd => hsame x a hx fun hxt => hxd (mem_append_left _ hxt)⟩
  · have hS : execStmt TrivSqZeroExt.inl dualLess S (.ifStmt cond t f) =
        execBlock TrivSqZeroExt.inl dualLess S f := by
      rw [execStmt, if_neg hc]
    have hT : execBlock id lessThan T (visitStmt (.ifStmt cond t f) ps).1 =
        execBlock id lessThan T (visitBlock f (visitBlock t ps).2).1 := by
      rw [visitStmt_ifStmt, execBlock, execBlock, execStmt, if_neg (hcond ▸ hc)]
    simp only [hS, hT] at hw ⊢
    obtain ⟨hrel', hsame⟩ := hsf S T hrel
      (fun x hx => hclear x (mem_append_right _ hx)) hw
    exact ⟨hrel', fun x a hx hxd => hsame x a hx fun hxf => hxd (mem_append_right _ hxf)⟩

theorem frame_simulates {b : Block R} (hb : BlockSimulates D n atomics init w b)
    (hD : DualMapOk n D) {sc : Scope} {seen : List Nat} {ps : PassState R}
    (hready : Ready n atomics sc b.defs (mentions b) (atomicResults b)) (hws : b.WellScoped sc)
    (hmet : MetBeforeLoops seen b) (hin : ∀ x ∈ mentions b, x ∉ b.defs → x ∈ seen)
    (hps : ps.allocas = []) (hv : Visiting D n seen b.defs b.defs ps (visitBlock b ps).2) :
    Simulates D n atomics init w sc sc b.defs []
      (fun S => execBlock TrivSqZeroExt.inl dualLess S b)
      (fun T => execBlock id lessThan T
        ((allocaBlock (visitBlock b ps).2.allocas).append (visitBlock b ps).1)) := by
  have hg := visitBlock_grows b seen ps hmet hv.seen
  obtain ⟨hvars, hframe⟩ := frame_variables hg hps
    (fun x hx hxd => hv.seen x (hin x hx hxd)) hv.new hready.nodup hv.final.keeps hv.settled
  have hsim := (hb sc seen ps hready hws hmet hv).clearVars hD hready.fresh hvars hframe
  simp only [execBlock_append, execBlock_allocaBlock]
  exact hsim

theorem rangeFor_simulates {index begin' end' : Ref} {body : Block R} (hD : DualMapOk n D)
    (hb : BlockSimulates D n atomics init w body) :
    StmtSimulates D n atomics init w (.rangeFor index begin' end' body) := by
  intro sc seen ps hready hws hmet hv
  obtain ⟨hbegin, hend, hty, hwsb⟩ := hws
  have hscope : ∀ x ∈ (sc.addValue index).names, x ∈ sc.names ∨ x ∈ [index.name] := by
    intro x hx
    rcases (sc.mem_names_addValue index x).mp hx with hx | hx
    · exact .inl hx
    · exact .inr (mem_singleton.mpr hx)
  have hsplit : Ready n atomics sc ([index.name] ++ body.defs) ([] ++ mentions body)
      ([] ++ atomicResults body) := hready
  have hok : ScopeOk n (sc.addValue index) :=
    hready.scope.addValue (hready.lt _ mem_cons_self) (hready.fresh _ mem_cons_self)
  have hreadyb := hsplit.right hok hscope
  have hvb : Visiting D n seen body.defs body.defs { ps with allocas := [] }
      (visitBlock body { ps with allocas := [] }).2 := by
    refine ⟨hv.seen, hv.next_le, fun x hx => hv.new x (mem_cons_of_mem _ hx),
      ⟨hv.final.keeps, hv.final.later⟩, fun x hx => hv.settled x ?_⟩
    rw [mem_filter, decide_eq_true_eq]
    exact ⟨mem_cons_of_mem _ hx, not_mem_nil⟩
  have hbody := frame_simulates hb hD hreadyb hwsb hmet.2 hmet.1 rfl hvb
  have hiter : ∀ i, Simulates D n atomics init w sc sc ([index.name] ++ body.defs) [] _ _ :=
    fun i => ((setInt_simulates hty i).seq hbody hscope (by simp)
      (execBlock_writes _ _ body)).weaken (subset_cons_self _ _) (List.Subset.refl _)
  intro S T hrel hclear hw
  have hloop := Simulates.repeat hiter (fun i S => execBlock_writes _ _ body (S.setInt index.name i))
    (S.ints end'.name - S.ints begin'.name).toNat (S.ints begin'.name) S T hrel (by simp)
  have hS : execStmt TrivSqZeroExt.inl dualLess S (.rangeFor index begin' end' body) =
      repeatRange (fun i S => execBlock TrivSqZeroExt.inl dualLess (S.setInt index.name i) body)
        (S.ints end'.name - S.ints begin'.name).toNat (S.ints begin'.name) S := by
    rw [execStmt]
  simp only [hS] at hw ⊢
  rw [visitStmt_rangeFor, execBlock, execStmt, hrel.int hready.scope hbegin.1,
    hrel.int hready.scope hend.1]
  exact hloop hw

theorem visitBlock_simulates (hD : DualMapOk n D) (hlog : LogOk init w) (b : Block R) :
    BlockSimulates D n atomics init w b := by
  induction b using Block.rule (P := StmtSimulates D n atomics init w) with
  | simple s hs =>
    intro sc seen ps hready hws hmet hv
    exact visitStmt_simple_simulates hs hD hlog hready hws hv.next_le hv.final.keeps
  | ifStmt cond t f iht ihf => exact ifStmt_simulates iht ihf
  | rangeFor index begin' end' body ih => exact rangeFor_simulates hD ih
  | nil =>
    intro sc seen ps _ _ _ _ S T hrel _ _
    exact ⟨hrel, fun _ _ _ _ _ => rfl⟩
  | cons s rest ihs ihr => exact cons_simulates ihs ihr

end Visits

section Kernel

variable [CommRing R] [LinearOrder R]

def seed (T : State R) : State (DualNumber R) :=
  { reals := fun x => TrivSqZeroExt.inl (T.reals x)
    ints := T.ints
    realVars := fun x => TrivSqZeroExt.inl (T.realVars x)
    intVars := T.intVars
    realCells := fun snode isDual index =>
      TrivSqZeroExt.inl (T.realCells snode isDual index) +
        TrivSqZeroExt.inr (T.realCells snode true index)
    intCells := T.intCells
    writes := T.writes }

def run (T : State R) (body : Block R) : State R := execBlock id lessThan T body

def runDual (T : State R) (body : Block R) : State (DualNumber R) :=
  execBlock TrivSqZeroExt.inl dualLess (seed T) body

/-- The kernel after `make_dual` leaves the primal cells as the original kernel,
and the dual cells as the dual components of its run over dual numbers. -/
structure ForwardCorrect (next : Nat) (body : Block R) (T : State R) : Prop where
  primal : ∀ snode index, (run T (makeDual next body)).realCells snode false index =
    (run T body).realCells snode false index
  ints : (run T (makeDual next body)).intCells = (run T body).intCells
  dual : ∀ snode index, (run T (makeDual next body)).realCells snode true index =
    ((runDual T body).realCells snode false index).snd

structure StoredOnce (T : State R) (body : Block R) : Prop where
  once : ∀ l r snode index, (run T body).writes = l ++ ⟨true, snode, index⟩ :: r →
    (⟨true, snode, index⟩ : Write) ∉ l
  zero : ∀ snode index, (⟨true, snode, index⟩ : Write) ∈ (run T body).writes →
    T.realCells snode true index = 0

def NoStoreAfterAdd (T : State R) (body : Block R) : Prop :=
  ∀ l r snode index, (run T body).writes = l ++ ⟨true, snode, index⟩ :: r →
    (⟨false, snode, index⟩ : Write) ∉ l

theorem run_eq_map_runDual (T : State R) (body : Block R) :
    run T body = (runDual T body).map TrivSqZeroExt.fst := by
  have hseed : (seed T).map TrivSqZeroExt.fst = T := by
    simp [State.map, seed]
  have hlift : ∀ c : R, id c = (TrivSqZeroExt.fstHom R R R).toRingHom (TrivSqZeroExt.inl c) :=
    fun c => rfl
  have hlt : ∀ a b : DualNumber R, lessThan ((TrivSqZeroExt.fstHom R R R).toRingHom a)
      ((TrivSqZeroExt.fstHom R R R).toRingHom b) = dualLess a b := fun a b => rfl
  calc run T body = execBlock id lessThan ((seed T).map TrivSqZeroExt.fst) body := by
        rw [hseed, run]
    _ = (runDual T body).map TrivSqZeroExt.fst :=
        execBlock_map (TrivSqZeroExt.fstHom R R R).toRingHom hlift hlt body (seed T)

theorem logOk_of_storedOnce {T : State R} {body : Block R} (honce : StoredOnce T body)
    (hadd : NoStoreAfterAdd T body) :
    LogOk (fun snode index => T.realCells snode true index) (runDual T body).writes := by
  have hwrites : (runDual T body).writes = (run T body).writes := by
    rw [run_eq_map_runDual]
    rfl
  rw [hwrites]
  intro l r snode index hw
  refine ⟨?_, honce.zero snode index (by rw [hw]; simp)⟩
  intro b
  cases b with
  | true => exact honce.once l r snode index hw
  | false => exact hadd l r snode index hw

omit [LinearOrder R] in
theorem rel_seed (D : Nat → Option Nat) (n : Nat) (atomics : List Nat) (T : State R) :
    Rel D n atomics (fun snode index => T.realCells snode true index) ⟨[], []⟩ (seed T) T := by
  constructor <;> simp [seed]

/-- `make_dual` is correct on every well-formed body in which loops only mention
what they declare or what was mentioned before them, the results of atomic adds
are not differentiated, and no cell is stored after an addition. -/
theorem makeDual_correct (next : Nat) (body : Block R) (T : State R)
    (hwf : WellFormed next body) (honce : StoredOnce T body)
    (hmet : MetBeforeLoops [] body) (hatomic : ∀ x ∈ mentions body, x ∉ atomicResults body)
    (hadd : NoStoreAfterAdd T body) : ForwardCorrect next body T := by
  let ps : PassState R := ⟨next, fun _ => none, [], []⟩
  have hg := visitBlock_grows body [] ps hmet (by simp)
  have hps : ps.Ok := by constructor <;> simp [ps]
  have hD : DualMapOk next (visitBlock body ps).2.dualStmt :=
    ⟨(hg.ok hps).injective, fun x a hx => hg.fresh x a rfl hx⟩
  have hready : Ready next (atomicResults body) ⟨[], []⟩ body.defs (mentions body)
      (atomicResults body) :=
    ⟨⟨by simp [Scope.names], by simp [Scope.names], by simp⟩, hwf.lt_next, hwf.nodup,
      by simp [Scope.names], hatomic, fun x hx => hx⟩
  have hv : Visiting (visitBlock body ps).2.dualStmt next [] body.defs body.defs ps
      (visitBlock body ps).2 :=
    ⟨by simp, Nat.le_refl _, fun x _ => rfl, ⟨fun x a hx => hx, fun x a hx hx' => by
      rw [hx] at hx'
      cases hx'⟩, fun x _ => rfl⟩
  have hin : ∀ x ∈ mentions body, x ∉ body.defs → x ∈ ([] : List Nat) := by
    intro x hx hxd
    rcases mentions_scope body _ hwf.wellScoped x hx with h | h
    · simp [Scope.names] at h
    · exact absurd h hxd
  have hlog := logOk_of_storedOnce honce hadd
  have hsim := frame_simulates (visitBlock_simulates hD hlog body) hD hready hwf.wellScoped hmet
    hin rfl hv
  obtain ⟨hrel, -⟩ := hsim (seed T) T (rel_seed _ _ _ T) (by simp) (prefix_refl _)
  refine ⟨fun snode index => ?_, ?_, hrel.dualCells⟩
  · rw [run_eq_map_runDual T body]
    exact hrel.cells snode index
  · rw [run_eq_map_runDual T body]
    exact hrel.intCells

end Kernel

def realRef (x : Nat) : Ref := ⟨x, .real, false⟩

def intRef (x : Nat) : Ref := ⟨x, .int, false⟩

/-- Sum the first two elements of field 0 into field 1.  The local that holds the
sum is declared, and set by `setup`, before the loop. -/
def sumKernel (setup : List (Stmt ℤ)) : Block ℤ :=
  .ofList (.alloca (realRef 0) :: setup ++ [.constInt (intRef 2) 0, .constInt (intRef 3) 2,
      .rangeFor (intRef 4) (intRef 2) (intRef 3) (.ofList [.localLoad (realRef 5) (realRef 0),
        .globalLoad (realRef 6) ⟨0, false, .real, [intRef 4]⟩,
        .binary (realRef 7) .add (realRef 5) (realRef 6),
        .localStore (realRef 0) (realRef 7)]),
      .localLoad (realRef 8) (realRef 0),
      .globalStore ⟨1, false, .real, [intRef 2]⟩ (realRef 8)])

def setToZero : List (Stmt ℤ) :=
  [.constReal ⟨1, .real, true⟩ 0, .localStore (realRef 0) ⟨1, .real, true⟩]

def onesState : State ℤ where
  reals := fun _ => 0
  ints := fun _ => 0
  realVars := fun _ => 0
  intVars := fun _ => 0
  realCells := fun snode _ _ => if snode = 0 then 1 else 0
  intCells := fun _ _ => 0
  writes := []

theorem storedOnce_of_singleton {T : State ℤ} {body : Block ℤ} {snode : Nat} {index : List Int}
    (hw : (run T body).writes = [⟨true, snode, index⟩]) (hzero : T.realCells snode true index = 0) :
    StoredOnce T body ∧ NoStoreAfterAdd T body := by
  have hnil : ∀ (l r : List Write) (x : Write), (run T body).writes = l ++ x :: r → l = [] := by
    intro l r x hx
    rw [hw] at hx
    cases l with
    | nil => rfl
    | cons y l => simp at hx
  refine ⟨⟨?_, ?_⟩, ?_⟩
  · intro l r s i h
    simp [hnil l r _ h]
  · intro s i h
    rw [hw, mem_singleton] at h
    cases h
    exact hzero
  · intro l r s i h
    simp [hnil l r _ h]

theorem sumKernel_wellFormed (setup : List (Stmt ℤ)) (hsetup : setup = [] ∨ setup = setToZero) :
    WellFormed 9 (sumKernel setup) := by
  rcases hsetup with rfl | rfl
  · refine ⟨?_, by decide, by decide⟩
    simp [sumKernel, Block.ofList, Block.WellScoped, Stmt.WellScoped, Scope.has, Scope.hasPtr,
      Scope.extend, Scope.addValue, Stmt.value?, Stmt.var?, realRef, intRef]
  · refine ⟨?_, by decide, by decide⟩
    simp [sumKernel, setToZero, Block.ofList, Block.WellScoped, Stmt.WellScoped, Scope.has,
      Scope.hasPtr, Scope.extend, Scope.addValue, Stmt.value?, Stmt.var?, realRef, intRef]

/-- With the initial store the dual of the sum is right. -/
theorem makeDual_correct_sum : StoredOnce onesState (sumKernel setToZero) ∧
      ForwardCorrect 9 (sumKernel setToZero) onesState := by
  have hw : (run onesState (sumKernel setToZero)).writes = [⟨true, 1, [0]⟩] := by decide +kernel
  obtain ⟨honce, hadd⟩ := storedOnce_of_singleton hw (by decide)
  refine ⟨honce, makeDual_correct 9 _ _ (sumKernel_wellFormed _ (.inr rfl)) honce ?_
    (by decide +kernel) hadd⟩
  simp [sumKernel, setToZero, Block.ofList, MetBeforeLoops, MetBeforeLoopsStmt, mentions,
    mentionsStmt, mentionedNames, mentionedRefs, hasDual, Block.defs, Stmt.defs, Stmt.own,
    Stmt.value?, Stmt.var?, realRef, intRef]

/-- Without it the local is first mentioned in the loop, and its dual is cleared
by every iteration. -/
theorem makeDual_wrong_sum : WellFormed 9 (sumKernel []) ∧ StoredOnce onesState (sumKernel []) ∧
      ¬ForwardCorrect 9 (sumKernel []) onesState := by
  have hw : (run onesState (sumKernel [])).writes = [⟨true, 1, [0]⟩] := by decide +kernel
  refine ⟨sumKernel_wellFormed _ (.inl rfl), (storedOnce_of_singleton hw (by decide)).1, ?_⟩
  -- the dual of the sum is 2, and the kernel computes 1
  intro h
  exact absurd (h.dual 1 [0]) (by decide +kernel)

end Quadrants.AutoDiff.MakeDual
