import Quadrants.Library.SsaBlocks
import Mathlib.Data.List.Nodup

/-!
An invariant rule for programs whose operands are in scope. The invariant may speak of the values
and of the loops that are in scope.
-/

namespace Quadrants.Library.SsaBlocks

open TracedLoops List

variable {S K V M : Type}

mutual

def Stmt.leaves : Stmt S K → List (Stmt S K)
  | .plain name kind operands => [.plain name kind operands]
  | .loopIndex name loop axis => [.loopIndex name loop axis]
  | .ifStmt _ _ t f => blockLeaves t ++ blockLeaves f
  | .loop _ _ _ body => blockLeaves body

def blockLeaves : List (Stmt S K) → List (Stmt S K)
  | [] => []
  | stmt :: rest => stmt.leaves ++ blockLeaves rest

end

mutual

def Stmt.loops : Stmt S K → List (S × K)
  | .plain _ _ _ => []
  | .loopIndex _ _ _ => []
  | .ifStmt _ _ t f => blockLoops t ++ blockLoops f
  | .loop name kind _ body => (name, kind) :: blockLoops body

def blockLoops : List (Stmt S K) → List (S × K)
  | [] => []
  | stmt :: rest => stmt.loops ++ blockLoops rest

end

def Stmt.operands : Stmt S K → List S
  | .plain _ _ operands => operands
  | _ => []

def LeavesOrdered (values : List S) : List (Stmt S K) → Prop
  | [] => True
  | leaf :: rest => leaf.operands ⊆ values ∧ LeavesOrdered (leaf.value ++ values) rest

variable {leaf : Stmt S K} {leaves rest : List (Stmt S K)} {values : List S}

theorem LeavesOrdered.mono {values' : List S}
    (h : LeavesOrdered values leaves) (hvalues : values ⊆ values') :
    LeavesOrdered values' leaves := by
  induction leaves generalizing values values' with
  | nil => trivial
  | cons leaf rest ih =>
    refine ⟨List.Subset.trans h.1 hvalues, ih h.2 ?_⟩
    exact append_subset.2 ⟨subset_append_left _ _, subset_append_of_subset_right _ hvalues⟩

theorem leavesOrdered_append (h : LeavesOrdered values leaves)
    (hrest : LeavesOrdered (leaves.flatMap Stmt.value ++ values) rest) :
    LeavesOrdered values (leaves ++ rest) := by
  induction leaves generalizing values with
  | nil => exact hrest
  | cons leaf leaves ih =>
    refine ⟨h.1, ih h.2 (hrest.mono fun x hx => ?_)⟩
    simp only [flatMap_cons, mem_append] at hx ⊢
    tauto

theorem LeavesOrdered.operands_subset (h : LeavesOrdered values (leaves ++ leaf :: rest)) :
    leaf.operands ⊆ leaves.flatMap Stmt.value ++ values := by
  induction leaves generalizing values with
  | nil => exact h.1
  | cons first leaves ih =>
    refine List.Subset.trans (ih h.2) fun x hx => ?_
    simp only [flatMap_cons, mem_append] at hx ⊢
    tauto

mutual

theorem Stmt.directNames_leaves : ∀ (stmt : Stmt S K),
    stmt.value ⊆ stmt.leaves.flatMap Stmt.value
  | .plain _ _ _ => by simp [Stmt.leaves]
  | .loopIndex _ _ _ => by simp [Stmt.leaves]
  | .ifStmt _ _ _ _ => by simp [Stmt.value]
  | .loop _ _ _ _ => by simp [Stmt.value]

theorem directNames_leaves : ∀ (block : List (Stmt S K)),
    directNames block ⊆ (blockLeaves block).flatMap Stmt.value
  | [] => by simp [directNames]
  | stmt :: rest => by
    rw [blockLeaves, flatMap_append]
    exact append_subset.2
      ⟨subset_append_of_subset_left _ (Stmt.directNames_leaves stmt),
        subset_append_of_subset_right _ (directNames_leaves rest)⟩

end

mutual

theorem Stmt.leavesOrdered : ∀ {stmt : Stmt S K} {values loops : List S},
    stmt.Scoped values loops → LeavesOrdered values stmt.leaves
  | .plain _ _ _, _, _, h => by
    exact ⟨h, trivial⟩
  | .loopIndex _ _ _, _, _, _ => ⟨nil_subset _, trivial⟩
  | .ifStmt _ _ _ _, _, _, h => by
    exact leavesOrdered_append (blockLeavesOrdered h.2.1)
      ((blockLeavesOrdered h.2.2).mono (subset_append_right _ _))
  | .loop _ _ _ _, _, _, h => by
    exact blockLeavesOrdered h.2

theorem blockLeavesOrdered : ∀ {block : List (Stmt S K)} {values loops : List S},
    BlockScoped values loops block → LeavesOrdered values (blockLeaves block)
  | [], _, _, _ => trivial
  | stmt :: rest, values, _, h => by
    refine leavesOrdered_append (Stmt.leavesOrdered h.1) ((blockLeavesOrdered h.2).mono ?_)
    exact append_subset.2
      ⟨subset_append_of_subset_left _ (Stmt.directNames_leaves stmt), subset_append_right _ _⟩

end

mutual

theorem Stmt.leaves_sublist : ∀ (stmt : Stmt S K),
    (stmt.leaves.flatMap Stmt.value).Sublist stmt.names
  | .plain _ _ _ => by simp [Stmt.leaves, Stmt.value, Stmt.names]
  | .loopIndex _ _ _ => by simp [Stmt.leaves, Stmt.value, Stmt.names]
  | .ifStmt _ _ t f => by
    rw [Stmt.leaves, flatMap_append]
    exact (blockLeaves_sublist t).append (blockLeaves_sublist f)
  | .loop name _ _ body => by
    exact (blockLeaves_sublist body).cons name

theorem blockLeaves_sublist : ∀ (block : List (Stmt S K)),
    ((blockLeaves block).flatMap Stmt.value).Sublist (blockNames block)
  | [] => by simp [blockLeaves]
  | stmt :: rest => by
    rw [blockLeaves, flatMap_append]
    exact (Stmt.leaves_sublist stmt).append (blockLeaves_sublist rest)

end

mutual

theorem Stmt.loops_sublist : ∀ (stmt : Stmt S K), (stmt.loops.map Prod.fst).Sublist stmt.names
  | .plain _ _ _ => by simp [Stmt.loops]
  | .loopIndex _ _ _ => by simp [Stmt.loops]
  | .ifStmt _ _ t f => by
    rw [Stmt.loops, map_append]
    exact (blockLoops_sublist t).append (blockLoops_sublist f)
  | .loop name _ _ body => by
    exact (blockLoops_sublist body).cons_cons name

theorem blockLoops_sublist : ∀ (block : List (Stmt S K)),
    ((blockLoops block).map Prod.fst).Sublist (blockNames block)
  | [] => by simp [blockLoops]
  | stmt :: rest => by
    rw [blockLoops, map_append]
    exact (Stmt.loops_sublist stmt).append (blockLoops_sublist rest)

end

theorem leaf_unique (h : (leaves.flatMap Stmt.value).Nodup)
    {leaf' : Stmt S K} (hleaf : leaf ∈ leaves) (hleaf' : leaf' ∈ leaves) {name : S}
    (hname : name ∈ leaf.value) (hname' : name ∈ leaf'.value) : leaf = leaf' := by
  induction leaves with
  | nil => exact absurd hleaf not_mem_nil
  | cons first rest ih =>
    have hapart := disjoint_of_nodup_append h
    rcases mem_cons.1 hleaf with rfl | hrest
    · rcases mem_cons.1 hleaf' with rfl | hrest'
      · rfl
      · exact absurd (mem_flatMap.2 ⟨leaf', hrest', hname'⟩) (hapart hname)
    · rcases mem_cons.1 hleaf' with rfl | hrest'
      · exact absurd (mem_flatMap.2 ⟨leaf, hrest, hname⟩) (hapart hname')
      · exact ih h.of_append_right hrest hrest'

section Holds

structure Holds (I : List S → List S → State S V M → Prop) (P : Event S K V → Prop)
    (values loops new : List S) (r : Outcome (Event S K V) (State S V M)) : Prop where
  state : I values loops r.state
  values : r.signal = .normal → I (new ++ values) loops r.state
  events : ∀ e ∈ r.trace, P e

variable {I : List S → List S → State S V M → Prop} {P : Event S K V → Prop}
  {values loops new : List S}

theorem Holds.after {r : Outcome (Event S K V) (State S V M)} (h : Holds I P values loops new r)
    {e : Event S K V} (he : P e) : Holds I P values loops new (r.after [e]) where
  state := h.state
  values := h.values
  events := by
    intro e' he'
    rcases mem_cons.1 he' with rfl | he'
    · exact he
    · exact h.events e' he'

theorem holds_andThen {first second : State S V M → Outcome (Event S K V) (State S V M)}
    (hI : ∀ {values values' s s'}, values ⊆ values' → I values loops s → I values' loops s' →
      I values loops s')
    {later : List S} {s : State S V M} (hfirst : Holds I P values loops new (first s))
    (hsecond : ∀ s, I (new ++ values) loops s → Holds I P (new ++ values) loops later (second s)) :
    Holds I P values loops (later ++ new) (andThen first second s) := by
  by_cases hnormal : (first s).signal = .normal
  · have h := hsecond _ (hfirst.values hnormal)
    rw [andThen_of_normal hnormal]
    refine ⟨hI (subset_append_right _ _) hfirst.state h.state, fun hsignal => ?_, fun e he => ?_⟩
    · rw [append_assoc]
      exact h.values hsignal
    · rcases mem_append.1 he with he | he
      · exact hfirst.events e he
      · exact h.events e he
  · rw [andThen_of_ne_normal hnormal]
    exact ⟨hfirst.state, fun hsignal => absurd hsignal hnormal, hfirst.events⟩

end Holds

section Rule

variable [DecidableEq S]

def Machine.Enters (m : Machine K V M) (kind : K) (i : V) : Prop :=
  ∃ values mem, (∃ indices, m.iterations kind values mem = some indices ∧ i ∈ indices) ∨
    (m.iterations kind values mem = none ∧ i = m.noIndex)

/-- `I` speaks of the values and the loops in scope, and `P` of the events of leaves. -/
structure ScopeInvariant (m : Machine K V M) (body : List (Stmt S K))
    (I : List S → List S → State S V M → Prop) (P : Event S K V → Prop) : Prop where
  forget : ∀ {values values' loops loops' s s'}, values ⊆ values' → loops ⊆ loops' →
    I values loops s → I values' loops' s' → I values loops s'
  plain : ∀ {name kind operands values loops s}, .plain name kind operands ∈ blockLeaves body →
    operands ⊆ values → name ∉ values → name ∉ loops → I values loops s →
    I (name :: values) loops (execPlain m name kind operands s).state ∧
      ∀ e ∈ (execPlain m name kind operands s).trace, P e
  loopIndex : ∀ {name loop axis values loops s}, .loopIndex name loop axis ∈ blockLeaves body →
    loop ∈ loops → name ∉ values → name ∉ loops → I values loops s →
    I (name :: values) loops (s.set name (m.index (s.env loop) axis))
  enter : ∀ {name kind values loops s i}, (name, kind) ∈ blockLoops body → m.Enters kind i →
    name ∉ values → name ∉ loops → I values loops s → I values (name :: loops) (s.set name i)
  container : ∀ e, e.kind = none ∨ e.value = none → P e

variable {m : Machine K V M} {body : List (Stmt S K)}
  {I : List S → List S → State S V M → Prop} {P : Event S K V → Prop}

mutual

theorem Stmt.exec_holds (h : ScopeInvariant m body I P) (rounds : ℕ) :
    ∀ (stmt : Stmt S K) (values loops : List S) (s : State S V M),
      stmt.Scoped values loops → stmt.names.Nodup →
      values.Disjoint stmt.names → loops.Disjoint stmt.names →
      stmt.leaves ⊆ blockLeaves body → stmt.loops ⊆ blockLoops body → I values loops s →
      Holds I P values loops stmt.value (stmt.exec m rounds s)
  | .plain name kind operands, values, loops, s, hscoped, _, hvalues, hloops, hleaves, _,
      hI => by
      rw [Stmt.Scoped] at hscoped
      rw [Stmt.names, disjoint_singleton] at hvalues hloops
      have hmem := hleaves (mem_singleton_self _)
      obtain ⟨hstate, hevents⟩ := h.plain hmem hscoped hvalues hloops hI
      rw [Stmt.exec]
      exact ⟨h.forget (subset_cons_self _ _) (List.Subset.refl _) hI hstate, fun _ => hstate,
        hevents⟩
  | .loopIndex name loop axis, values, loops, s, hscoped, _, hvalues, hloops, hleaves, _,
      hI => by
      rw [Stmt.Scoped] at hscoped
      rw [Stmt.names, disjoint_singleton] at hvalues hloops
      have hmem := hleaves (mem_singleton_self _)
      have hstate := h.loopIndex hmem hscoped hvalues hloops hI
      rw [Stmt.exec]
      refine ⟨h.forget (subset_cons_self _ _) (List.Subset.refl _) hI hstate, fun _ => hstate, ?_⟩
      intro e he
      rw [mem_singleton.1 he]
      exact h.container _ (.inl rfl)
  | .ifStmt name cond t f, values, loops, s, hscoped, hnodup, hvalues, hloops, hleaves,
      hinside, hI => by
      rw [Stmt.Scoped] at hscoped
      rw [Stmt.names] at hnodup hvalues hloops
      rw [disjoint_append_right] at hvalues hloops
      rw [Stmt.leaves, append_subset] at hleaves
      rw [Stmt.loops, append_subset] at hinside
      have ht := execBlock_holds h rounds t values loops s hscoped.2.1
        hnodup.of_append_left hvalues.1 hloops.1 hleaves.1 hinside.1 hI
      have hf := execBlock_holds h rounds f values loops s hscoped.2.2
        hnodup.of_append_right hvalues.2 hloops.2 hleaves.2 hinside.2 hI
      rw [Stmt.exec]
      refine Holds.after ?_ (h.container _ (.inl rfl))
      split
      · exact ⟨ht.state, fun _ => ht.state, ht.events⟩
      · exact ⟨hf.state, fun _ => hf.state, hf.events⟩
  | .loop name kind operands inner, values, loops, s, hscoped, hnodup, hvalues, hloops,
      hleaves, hinside, hI => by
      rw [Stmt.Scoped] at hscoped
      rw [Stmt.names, nodup_cons] at hnodup
      rw [Stmt.names, disjoint_cons_right] at hvalues hloops
      rw [Stmt.loops] at hinside
      have hround : ∀ i, m.Enters kind i → ∀ s, I values loops s →
          I values loops (execBlock m rounds inner (s.set name i)).state ∧
            ∀ e ∈ (execBlock m rounds inner (s.set name i)).trace, P e := by
        intro i hi s hs
        have hround := execBlock_holds h rounds inner values (name :: loops) (s.set name i)
          hscoped.2 hnodup.2 hvalues.2
          (disjoint_cons_left.2 ⟨hnodup.1, hloops.2⟩) hleaves
          (List.Subset.trans (subset_cons_self _ _) hinside)
          (h.enter (hinside mem_cons_self) hi hvalues.1 hloops.1 hs)
        exact ⟨h.forget (List.Subset.refl _) (subset_cons_self _ _) hs hround.state, hround.events⟩
      rw [Stmt.exec]
      refine Holds.after ?_ (h.container _ (.inr rfl))
      cases hiterations : m.iterations kind (operands.map s.env) s.mem with
      | some indices =>
        obtain ⟨hstate, hevents⟩ := forEach_keeps_events
          (fun i hi s hs => hround i ⟨_, _, .inl ⟨_, hiterations, hi⟩⟩ s hs) s hI
        exact ⟨hstate, fun _ => hstate, hevents⟩
      | none =>
        obtain ⟨hstate, hevents⟩ := forever_keeps
          (fun s hs => hround m.noIndex ⟨_, _, .inr ⟨hiterations, rfl⟩⟩ s hs) rounds s hI
        exact ⟨hstate, fun _ => hstate, hevents⟩

theorem execBlock_holds (h : ScopeInvariant m body I P) (rounds : ℕ) :
    ∀ (block : List (Stmt S K)) (values loops : List S) (s : State S V M),
      BlockScoped values loops block → (blockNames block).Nodup → values.Disjoint (blockNames block) →
      loops.Disjoint (blockNames block) → blockLeaves block ⊆ blockLeaves body →
      blockLoops block ⊆ blockLoops body → I values loops s →
      Holds I P values loops [] (execBlock m rounds block s)
  | [], _, _, s, _, _, _, _, _, _, hI => by
    exact ⟨hI, fun _ => hI, fun e he => absurd he not_mem_nil⟩
  | stmt :: rest, values, loops, s, hscoped, hnodup, hvalues, hloops, hleaves, hinside,
      hI => by
      rw [blockNames] at hnodup hvalues hloops
      rw [disjoint_append_right] at hvalues hloops
      rw [blockLeaves, append_subset] at hleaves
      rw [blockLoops, append_subset] at hinside
      have hstmt := Stmt.exec_holds h rounds stmt values loops s hscoped.1
        hnodup.of_append_left hvalues.1 hloops.1 hleaves.1 hinside.1 hI
      have hapart : (stmt.value ++ values).Disjoint (blockNames rest) :=
        disjoint_append_left.2 ⟨fun x hx hx' =>
          disjoint_of_nodup_append hnodup (stmt.value_subset hx) hx', hvalues.2⟩
      have hboth : Holds I P values loops ([] ++ stmt.value)
          (andThen (fun s => stmt.exec m rounds s) (fun s => execBlock m rounds rest s) s) :=
        holds_andThen (fun hsub => h.forget hsub (List.Subset.refl _)) hstmt
          fun s hs => execBlock_holds h rounds rest (stmt.value ++ values) loops s
            hscoped.2 hnodup.of_append_right hapart
            hloops.2 hleaves.2 hinside.2 hs
      exact ⟨hboth.state, fun _ => hboth.state, hboth.events⟩

end

end Rule

end Quadrants.Library.SsaBlocks
