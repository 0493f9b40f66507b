import Quadrants.AutoDiff.CrossIterationCheck
import Mathlib.Algebra.Ring.Int.Defs

/-!
What a body without an error from the checker reads: where the indices of a store and of a load
both have the loop index in them, and those of the store tell the iterations apart, no iteration
reads what another one has stored.
-/

namespace Quadrants.AutoDiff.CrossIteration

open Library.SsaBlocks Library.TracedLoops List

section Definitions

variable {loop : OffloadLoop}

namespace OffloadLoop.WellFormed

theorem nodup_body (h : loop.WellFormed) : (loop.name :: blockNames loop.body).Nodup :=
  h.nodup.of_append_right

theorem outer_disjoint (h : loop.WellFormed) :
    (loop.outer.flatMap Stmt.value).Disjoint (loop.name :: blockNames loop.body) :=
  disjoint_of_nodup_append h.nodup

theorem nodup_bodyLeaves (h : loop.WellFormed) :
    ((blockLeaves loop.body).flatMap Stmt.value).Nodup :=
  (nodup_cons.1 h.nodup_body).2.sublist (blockLeaves_sublist loop.body)

theorem ordered_body (h : loop.WellFormed) :
    LeavesOrdered (loop.outer.flatMap Stmt.value) (blockLeaves loop.body) :=
  blockLeavesOrdered h.inScope

theorem values_disjoint (h : loop.WellFormed) :
    (loop.outer.flatMap Stmt.value).Disjoint ((blockLeaves loop.body).flatMap Stmt.value) :=
  fun _ hx hx' => h.outer_disjoint hx
    (mem_cons_of_mem _ ((blockLeaves_sublist loop.body).subset hx'))

theorem unique (h : loop.WellFormed) {leaf leaf' : Statement} {name : ℕ}
    (hleaf : leaf ∈ blockLeaves loop.body) (hleaf' : leaf' ∈ blockLeaves loop.body)
    (hname : name ∈ leaf.value) (hname' : name ∈ leaf'.value) : leaf = leaf' :=
  leaf_unique h.nodup_bodyLeaves hleaf hleaf' hname hname'

end OffloadLoop.WellFormed

variable {leaf : Statement} {x : ℕ}

theorem mem_of_definition (h : loop.definition x = some leaf) :
    leaf ∈ loop.leaves ∧ x ∈ leaf.value := by
  rw [OffloadLoop.definition, List.find?_eq_some_iff_append] at h
  obtain ⟨hname, as, bs, hsplit, -⟩ := h
  exact ⟨hsplit ▸ mem_append_right _ mem_cons_self, of_decide_eq_true hname⟩

theorem referencesLoopIndex_outer (hwf : loop.WellFormed)
    (hx : x ∈ loop.outer.flatMap Stmt.value) : referencesLoopIndex loop x = false := by
  have hbody : x ∉ (blockLeaves loop.body).reverse.flatMap Stmt.value := by
    intro hmem
    obtain ⟨leaf, hleaf, hname⟩ := mem_flatMap.1 hmem
    exact hwf.values_disjoint hx
      (mem_flatMap.2 ⟨leaf, mem_reverse.1 hleaf, hname⟩)
  rw [referencesLoopIndex, OffloadLoop.leaves, reverse_append, foldDefinitions_append hbody]
  have hplain : ∀ x name axis, .loopIndex x name axis ∉ loop.outer.reverse :=
    fun x name axis hmem => hwf.outer_plain x name axis (mem_reverse.1 hmem)
  clear hx hbody
  generalize loop.outer.reverse = leaves at hplain
  induction leaves generalizing x with
  | nil => rfl
  | cons leaf before ih =>
    have hbefore : ∀ x, foldDefinitions referencesOfLeaf (fun _ => false) before x = false :=
      fun x => ih fun x name axis hmem => hplain x name axis (mem_cons_of_mem _ hmem)
    rw [foldDefinitions]
    split
    · cases leaf with
      | plain name kind operands =>
        rw [referencesOfLeaf]
        split
        · simp [hbefore]
        · rfl
      | loopIndex y name axis => exact absurd mem_cons_self (hplain y name axis)
      | ifStmt => rfl
      | loop => rfl
    · exact hbefore x

theorem operands_outer (hwf : loop.WellFormed) (h : leaf ∈ loop.outer) :
    leaf.operands ⊆ loop.outer.flatMap Stmt.value := by
  obtain ⟨before, after, hsplit⟩ := append_of_mem h
  have hordered := hwf.ordered
  rw [hsplit] at hordered ⊢
  have hoperands := hordered.operands_subset
  rw [append_nil] at hoperands
  rw [flatMap_append]
  exact subset_append_of_subset_left _ hoperands

theorem not_anyAxis_outer (hwf : loop.WellFormed) {p snode : ℕ} {indices : List ℕ}
    (h : .plain p (.globalPtr snode) indices ∈ loop.outer) :
    anyAxisReferencesLoopIndex loop ⟨snode, indices⟩ = false := by
  rw [anyAxisReferencesLoopIndex, any_eq_false]
  intro x hx
  rw [referencesLoopIndex_outer hwf (operands_outer hwf h hx), Bool.not_eq_true]

theorem extractGlobalPtr_body (hwf : loop.WellFormed) {s : ℕ} {gp : GlobalPtr}
    (h : extractGlobalPtr loop s = some gp) (href : anyAxisReferencesLoopIndex loop gp = true) :
    .plain s (.globalPtr gp.snode) gp.indices ∈ blockLeaves loop.body ∨
      ∃ origin rest, .plain s .matrixPtr (origin :: rest) ∈ blockLeaves loop.body ∧
        .plain origin (.globalPtr gp.snode) gp.indices ∈ blockLeaves loop.body := by
  have hbody {p snode : ℕ} {indices : List ℕ} (hgp : gp = ⟨snode, indices⟩)
      (hmem : .plain p (.globalPtr snode) indices ∈ loop.leaves) :
      .plain p (.globalPtr snode) indices ∈ blockLeaves loop.body := by
    rcases mem_append.1 hmem with houter | hmem
    · rw [hgp, not_anyAxis_outer hwf houter] at href
      contradiction
    · exact hmem
  unfold extractGlobalPtr at h
  split at h
  · next name snode indices hdef =>
      obtain ⟨hmem, hname⟩ := mem_of_definition hdef
      rw [Stmt.value, mem_singleton] at hname
      obtain rfl := Option.some.inj h
      exact .inl (hname ▸ hbody rfl hmem)
  · next name origin rest hdef =>
      obtain ⟨hmem, hname⟩ := mem_of_definition hdef
      rw [Stmt.value, mem_singleton] at hname
      split at h
      · next origin' snode indices horigin =>
          obtain ⟨hptr, hname'⟩ := mem_of_definition horigin
          rw [Stmt.value, mem_singleton] at hname'
          obtain rfl := Option.some.inj h
          refine .inr ⟨origin, rest, ?_, hname' ▸ hbody rfl hptr⟩
          rcases mem_append.1 hmem with houter | hmem
          · -- the origin would be outside as well
            refine absurd (operands_outer hwf houter mem_cons_self) fun hin => ?_
            exact hwf.values_disjoint hin
              (mem_flatMap.2 ⟨_, hname' ▸ hbody rfl hptr, mem_singleton_self _⟩)
          · exact hname ▸ hmem
      · contradiction
  · contradiction

end Definitions

section Rounds

variable {M : Type} {loop : OffloadLoop} {runtime : Runtime M} {outside : ℕ → Value} {i : ℤ}

def baseOf (s : State ℕ Value M) (x : ℕ) : ℤ :=
  (s.env x).toInt

/-- What holds of the values in scope in the iteration `i`, where `outside` is what was there
before the loop. -/
structure InRound (loop : OffloadLoop) (runtime : Runtime M) (outside : ℕ → Value) (i : ℤ)
    (values loops : List ℕ) (s : State ℕ Value M) : Prop where
  closed : ∀ leaf ∈ blockLeaves loop.body, ∀ x ∈ leaf.value, x ∈ values → leaf.operands ⊆ values
  own_mem : loop.name ∈ loops
  own : s.env loop.name = .loop [i]
  outer : ∀ x ∉ blockNames loop.body, x ≠ loop.name → s.env x = outside x
  numbers : ∀ x ∈ values, baseOf s x = indexValue runtime.arithmetic loop (baseOf s) i x
  pointers : ∀ x ∈ values, ∀ snode operands,
    .plain x (.globalPtr snode) operands ∈ blockLeaves loop.body →
      s.env x = .pointer snode (operands.map (baseOf s)) none
  elements : ∀ x ∈ values, ∀ origin rest, .plain x .matrixPtr (origin :: rest) ∈
    blockLeaves loop.body → ∀ snode operands,
      .plain origin (.globalPtr snode) operands ∈ blockLeaves loop.body →
        ∀ snode' indices offset, s.env x = .pointer snode' indices offset →
          snode' = snode ∧ indices = operands.map (baseOf s)

variable {kind : Kind} {loops values : List ℕ} {name : ℕ} {s : State ℕ Value M}

theorem InRound.forget {values' loops' : List ℕ} {s' : State ℕ Value M}
    (hvalues : values ⊆ values') (_ : loops ⊆ loops')
    (hbefore : InRound loop runtime outside i values loops s)
    (h : InRound loop runtime outside i values' loops' s') :
    InRound loop runtime outside i values loops s' where
  closed := hbefore.closed
  own_mem := hbefore.own_mem
  own := h.own
  outer := h.outer
  numbers x hx := h.numbers x (hvalues hx)
  pointers x hx := h.pointers x (hvalues hx)
  elements x hx := h.elements x (hvalues hx)

theorem readsOperands_valueOfLeaf (arithmetic : Kind → List ℤ → ℤ) (loop : OffloadLoop) (i : ℤ) :
    ReadsOperands (valueOfLeaf arithmetic loop i) := by
  intro leaf g g' h
  cases leaf with
  | plain name kind operands =>
    have hmap : operands.map g = operands.map g' := map_congr_left h
    cases kind <;> simp [valueOfLeaf, hmap]
  | loopIndex => rfl
  | ifStmt => rfl
  | loop => rfl

variable {arithmetic : Kind → List ℤ → ℤ} {leaf : Statement} {operands : List ℕ}

theorem indexValue_congr (hclosed : ∀ leaf ∈ blockLeaves loop.body, ∀ x ∈ leaf.value, x ∈ values →
      leaf.operands ⊆ values) {base base' : ℕ → ℤ} (h : ∀ x ∈ values, base x = base' x) :
    ∀ x ∈ values, indexValue arithmetic loop base i x = indexValue arithmetic loop base' i x :=
  foldDefinitions_congr (readsOperands_valueOfLeaf arithmetic loop i)
    (fun leaf hleaf x hx hin _ hy =>
      hclosed leaf (mem_reverse.1 hleaf) x hx hin hy) h

theorem indexValue_leaf (hwf : loop.WellFormed) {x : ℕ} (hleaf : leaf ∈ blockLeaves loop.body)
    (hx : x ∈ leaf.value)
    (base : ℕ → ℤ) (i : ℤ) : indexValue arithmetic loop base i x =
      (valueOfLeaf arithmetic loop i leaf (indexValue arithmetic loop base i)).getD (base x) :=
  foldDefinitions_eq (readsOperands_valueOfLeaf arithmetic loop i) hwf.ordered_body
    hwf.nodup_bodyLeaves hwf.values_disjoint hleaf hx

theorem InRound.set (hwf : loop.WellFormed)
    (h : InRound loop runtime outside i values loops s)
    (hleaf : leaf ∈ blockLeaves loop.body) (hname : leaf.value = [name])
    (hoperands : leaf.operands ⊆ values) (hvalues : name ∉ values) (hloops : name ∉ loops)
    {value : Value} (hnumber : ∀ z, valueOfLeaf runtime.arithmetic loop i leaf (baseOf s) = some z →
      value.toInt = z)
    (hpointer : ∀ snode operands, leaf = .plain name (.globalPtr snode) operands →
      value = .pointer snode (operands.map (baseOf s)) none)
    (helement : ∀ origin rest, leaf = .plain name .matrixPtr (origin :: rest) →
      ∀ snode operands, .plain origin (.globalPtr snode) operands ∈ blockLeaves loop.body →
        ∀ snode' indices offset, value = .pointer snode' indices offset →
          snode' = snode ∧ indices = operands.map (baseOf s)) :
    InRound loop runtime outside i (name :: values) loops (s.set name value) := by
  have hmem : name ∈ leaf.value := hname ▸ mem_singleton_self name
  have hin : name ∈ blockNames loop.body :=
    (blockLeaves_sublist loop.body).subset (mem_flatMap.2 ⟨leaf, hleaf, hmem⟩)
  have hsame : ∀ x ∈ values, baseOf (s.set name value) x = baseOf s x := fun x hx =>
    congrArg Value.toInt (State.set_env_of_ne s (ne_of_mem_of_not_mem hx hvalues) value)
  have hunique {leaf' : Statement} (hleaf' : leaf' ∈ blockLeaves loop.body)
      (hname' : name ∈ leaf'.value) : leaf' = leaf := hwf.unique hleaf' hleaf hname' hmem
  have hmap {operands : List ℕ} (hsub : operands ⊆ values) :
      operands.map (baseOf (s.set name value)) = operands.map (baseOf s) :=
    map_congr_left fun x hx => hsame x (hsub hx)
  have hindex : ∀ x ∈ values, indexValue runtime.arithmetic loop (baseOf (s.set name value)) i x =
      baseOf s x := fun x hx =>
    (indexValue_congr h.closed hsame x hx).trans (h.numbers x hx).symm
  have hclosed : ∀ leaf' ∈ blockLeaves loop.body, ∀ x ∈ leaf'.value, x ∈ name :: values →
      leaf'.operands ⊆ values := by
    intro leaf' hleaf' x hx hxin
    rcases mem_cons.1 hxin with rfl | hxin
    · exact hunique hleaf' hx ▸ hoperands
    · exact h.closed leaf' hleaf' x hx hxin
  constructor
  case closed =>
    exact fun leaf' hleaf' x hx hxin =>
      subset_cons_of_subset _ (hclosed leaf' hleaf' x hx hxin)
  case own_mem => exact h.own_mem
  case own =>
    exact (State.set_env_of_ne s (ne_of_mem_of_not_mem h.own_mem hloops) value).trans h.own
  case outer =>
    intro x hx hne
    exact (State.set_env_of_ne s (ne_of_mem_of_not_mem hin hx).symm value).trans (h.outer x hx hne)
  case numbers =>
    intro x hx
    rcases mem_cons.1 hx with rfl | hx
    · rw [indexValue_leaf hwf hleaf hmem,
        readsOperands_valueOfLeaf _ _ _ leaf _ (baseOf s) fun y hy => hindex y (hoperands hy)]
      have hself : baseOf (s.set x value) x = value.toInt :=
        congrArg Value.toInt (State.set_env_self s x value)
      rw [hself]
      cases hz : valueOfLeaf runtime.arithmetic loop i leaf (baseOf s) with
      | none => rfl
      | some z => exact hnumber z hz
    · rw [hsame x hx, hindex x hx]
  case pointers =>
    intro x hx snode operands hptr
    have hsub : operands ⊆ values := hclosed _ hptr x (mem_singleton_self x) hx
    rw [hmap hsub]
    rcases mem_cons.1 hx with rfl | hx
    · rw [State.set_env_self]
      exact hpointer snode operands (hunique hptr (mem_singleton_self x)).symm
    · rw [State.set_env_of_ne s (ne_of_mem_of_not_mem hx hvalues) value]
      exact h.pointers x hx snode operands hptr
  case elements =>
    intro x hx origin rest hmatrix snode operands hptr snode' indices offset henv
    have horigin := hclosed _ hmatrix x (mem_singleton_self x) hx mem_cons_self
    have hsub : operands ⊆ values :=
      h.closed _ hptr origin (mem_singleton_self origin) horigin
    rw [hmap hsub]
    rcases mem_cons.1 hx with rfl | hx
    · rw [State.set_env_self] at henv
      exact helement origin rest (hunique hmatrix (mem_singleton_self x)).symm snode operands
        hptr snode' indices offset henv
    · rw [State.set_env_of_ne s (ne_of_mem_of_not_mem hx hvalues) value] at henv
      exact h.elements x hx origin rest hmatrix snode operands hptr snode' indices offset henv

theorem InRound.mem (mem : M) (h : InRound loop runtime outside i values loops s) :
    InRound loop runtime outside i values loops { s with mem := mem } :=
  ⟨h.closed, h.own_mem, h.own, h.outer, h.numbers, h.pointers, h.elements⟩

theorem toInt_execKind {z : ℤ}
    (h : valueOfLeaf runtime.arithmetic loop i (.plain name kind operands) (baseOf s) = some z)
    (mem : M) : (runtime.execKind kind (operands.map s.env) mem).1.toInt = z := by
  have hmap : (operands.map s.env).map Value.toInt = operands.map (baseOf s) := map_map
  cases kind with
  | const value => exact Option.some.inj h
  | unaryOp op | binaryOp op | ternaryOp op =>
    simp only [Runtime.execKind, hmap]
    exact Option.some.inj h
  | _ => exact nomatch h

def OwnCell (loop : OffloadLoop) (runtime : Runtime M) (outside : ℕ → Value) (i : ℤ)
    (e : Event ℕ Kind Value) : Prop :=
  ∀ kind gp cell, Accesses loop kind e gp cell → anyAxisReferencesLoopIndex loop gp = true →
    cell.snode = gp.snode ∧
      ∃ base : ℕ → ℤ, (∀ x ∉ blockNames loop.body, x ≠ loop.name → base x = (outside x).toInt) ∧
        cell.indices = gp.indices.map (indexValue runtime.arithmetic loop base i)

mutual

theorem visitStmt_subset : ∀ stmt : Statement, visitStmt stmt ⊆ stmt.leaves
  | .plain _ _ _ => List.Subset.refl _
  | .loopIndex _ _ _ => List.Subset.refl _
  | .ifStmt _ _ t f => by
    exact append_subset.2 ⟨subset_append_of_subset_left _ (visitBlock_subset t),
      subset_append_of_subset_right _ (visitBlock_subset f)⟩
  | .loop _ _ _ _ => nil_subset _

theorem visitBlock_subset : ∀ block : List Statement, visitBlock block ⊆ blockLeaves block
  | [] => nil_subset _
  | stmt :: rest => by
    exact append_subset.2 ⟨subset_append_of_subset_left _ (visitStmt_subset stmt),
      subset_append_of_subset_right _ (visitBlock_subset rest)⟩

end

theorem InRound.execPlain (hwf : loop.WellFormed)
    (hleaf : .plain name kind operands ∈ blockLeaves loop.body) (hoperands : operands ⊆ values)
    (hvalues : name ∉ values) (hloops : name ∉ loops)
    (h : InRound loop runtime outside i values loops s) :
    InRound loop runtime outside i (name :: values) loops
        (execPlain runtime.machine name kind operands s).state ∧
      ∀ e ∈ (execPlain runtime.machine name kind operands s).trace,
        OwnCell loop runtime outside i e := by
  constructor
  · refine (h.mem _).set hwf hleaf rfl hoperands hvalues hloops ?_ ?_ ?_
    · intro z hz
      exact toInt_execKind hz s.mem
    · intro snode operands' heq
      cases heq
      exact congrArg (fun indices => Value.pointer snode indices none) map_map
    · intro origin rest heq snode operands' hptr snode' indices offset hvalue
      cases heq
      have horigin : s.env origin = .pointer snode (operands'.map (baseOf s)) none :=
        h.pointers origin (hoperands mem_cons_self) snode operands' hptr
      simp only [map_cons, horigin] at hvalue
      cases rest with
      | nil => exact nomatch hvalue
      | cons offset' rest =>
        cases hvalue
        exact ⟨rfl, rfl⟩
  · intro e he kind' gp cell haccess href
    rw [Library.SsaBlocks.execPlain, mem_singleton] at he
    subst he
    generalize hread : operands.map s.env = read at haccess
    cases haccess with
    | @mk _ ptr rest _ snode indices offset _ _ hvisit hextract =>
      cases hwf.unique (visitBlock_subset _ hvisit) hleaf (mem_singleton_self name)
        (mem_singleton_self name)
      have hptr : ptr ∈ values := hoperands mem_cons_self
      have henv : s.env ptr = .pointer snode indices offset := (List.cons.inj hread).1
      have hgp : snode = gp.snode ∧ indices = gp.indices.map (baseOf s) ∧
          gp.indices ⊆ values := by
        rcases extractGlobalPtr_body hwf hextract href with hglobal | ⟨origin, rest', hmatrix, hglobal⟩
        · cases henv.symm.trans (h.pointers ptr hptr _ _ hglobal)
          exact ⟨rfl, rfl, h.closed _ hglobal ptr (mem_singleton_self ptr) hptr⟩
        · have horigin : origin ∈ values :=
            h.closed _ hmatrix ptr (mem_singleton_self ptr) hptr mem_cons_self
          obtain ⟨hsnode, hindices⟩ :=
            h.elements ptr hptr origin rest' hmatrix _ _ hglobal _ _ _ henv
          exact ⟨hsnode, hindices, h.closed _ hglobal origin (mem_singleton_self origin) horigin⟩
      obtain ⟨hsnode, hindices, hsub⟩ := hgp
      refine ⟨hsnode, baseOf s, fun x hx hne => congrArg Value.toInt (h.outer x hx hne), ?_⟩
      exact hindices.trans (map_congr_left fun x hx => h.numbers x (hsub hx))

theorem InRound.enter {index : Value} (hloop : (name, kind) ∈ blockLoops loop.body)
    (hvalues : name ∉ values) (hloops : name ∉ loops)
    (h : InRound loop runtime outside i values loops s) :
    InRound loop runtime outside i values (name :: loops) (s.set name index) := by
  have hin : name ∈ blockNames loop.body :=
    (blockLoops_sublist loop.body).subset (mem_map_of_mem hloop)
  have henv : ∀ x ∈ values, (s.set name index).env x = s.env x := fun x hx =>
    State.set_env_of_ne s (ne_of_mem_of_not_mem hx hvalues) index
  have hsame : ∀ x ∈ values, baseOf (s.set name index) x = baseOf s x := fun x hx =>
    congrArg Value.toInt (henv x hx)
  have hmap {operands : List ℕ} (hsub : operands ⊆ values) :
      operands.map (baseOf (s.set name index)) = operands.map (baseOf s) :=
    map_congr_left fun x hx => hsame x (hsub hx)
  constructor
  case closed => exact h.closed
  case own_mem => exact mem_cons_of_mem _ h.own_mem
  case own =>
    exact (State.set_env_of_ne s (ne_of_mem_of_not_mem h.own_mem hloops) index).trans h.own
  case outer =>
    intro x hx hne
    exact (State.set_env_of_ne s (ne_of_mem_of_not_mem hin hx).symm index).trans (h.outer x hx hne)
  case numbers =>
    intro x hx
    rw [hsame x hx, indexValue_congr h.closed hsame x hx]
    exact h.numbers x hx
  case pointers =>
    intro x hx snode operands hptr
    have hsub : operands ⊆ values := h.closed _ hptr x (mem_singleton_self x) hx
    rw [hmap hsub, henv x hx]
    exact h.pointers x hx snode operands hptr
  case elements =>
    intro x hx origin rest hmatrix snode operands hptr snode' indices offset hvalue
    have horigin : origin ∈ values :=
      h.closed _ hmatrix x (mem_singleton_self x) hx mem_cons_self
    have hsub : operands ⊆ values :=
      h.closed _ hptr origin (mem_singleton_self origin) horigin
    rw [henv x hx] at hvalue
    rw [hmap hsub]
    exact h.elements x hx origin rest hmatrix snode operands hptr snode' indices offset hvalue

theorem inRound_invariant (hwf : loop.WellFormed) :
    ScopeInvariant runtime.machine loop.body (InRound loop runtime outside i)
      (OwnCell loop runtime outside i) where
  forget := InRound.forget
  plain := InRound.execPlain hwf
  loopIndex := by
    intro name inner axis values loops s hleaf hinner hvalues hloops h
    refine h.set hwf hleaf rfl (nil_subset _) hvalues hloops ?_ ?_ ?_
    · intro z hz
      rw [valueOfLeaf] at hz
      split at hz
      · next hown =>
          obtain ⟨rfl, rfl⟩ := hown
          rw [h.own]
          exact Option.some.inj hz
      · contradiction
    · exact fun snode operands heq => nomatch heq
    · exact fun origin rest heq => nomatch heq
  enter := fun hloop _ => InRound.enter hloop
  container e he kind gp cell haccess := by
    cases haccess
    rcases he with he | he <;> contradiction

end Rounds

section Sound

variable {M : Type} {loop : OffloadLoop} (runtime : Runtime M)

theorem round_holds (hwf : loop.WellFormed) (limit : ℕ) (s : State ℕ Value M) (i : ℤ) :
    Holds (InRound loop runtime s.env i) (OwnCell loop runtime s.env i)
      (loop.outer.flatMap Stmt.value) [loop.name] []
      (execBlock runtime.machine limit loop.body (s.set loop.name (.loop [i]))) := by
  have hnodup := nodup_cons.1 hwf.nodup_body
  have hdisjoint := disjoint_cons_right.1 hwf.outer_disjoint
  have hstart : InRound loop runtime s.env i (loop.outer.flatMap Stmt.value) [loop.name]
      (s.set loop.name (.loop [i])) := by
    constructor
    case closed =>
      intro leaf hleaf x hx hin
      exact absurd (mem_flatMap.2 ⟨leaf, hleaf, hx⟩) (hwf.values_disjoint hin)
    case own_mem => exact mem_singleton_self _
    case own => exact State.set_env_self s loop.name _
    case outer => exact fun x _ hne => State.set_env_of_ne s hne _
    case numbers =>
      intro x hx
      refine (foldDefinitions_of_notMem fun hmem => ?_).symm
      obtain ⟨leaf, hleaf, hname⟩ := mem_flatMap.1 hmem
      exact hwf.values_disjoint hx (mem_flatMap.2 ⟨leaf, mem_reverse.1 hleaf, hname⟩)
    case pointers =>
      intro x hx snode operands hptr
      exact absurd (mem_flatMap.2 ⟨_, hptr, mem_singleton_self x⟩)
        (hwf.values_disjoint hx)
    case elements =>
      intro x hx origin rest hmatrix
      exact absurd (mem_flatMap.2 ⟨_, hmatrix, mem_singleton_self x⟩)
        (hwf.values_disjoint hx)
  exact execBlock_holds (inRound_invariant hwf) limit loop.body _ _ _ hwf.inScope hnodup.2
    hdisjoint.2 (singleton_disjoint.2 hnodup.1) (List.Subset.refl _) (List.Subset.refl _)
    hstart

theorem ownCell_of_rounds (hwf : loop.WellFormed) (limit : ℕ) {outside : ℕ → Value} :
    ∀ (indices : List ℤ) (s : State ℕ Value M),
      (∀ x ∉ blockNames loop.body, x ≠ loop.name → s.env x = outside x) →
      ∀ (t : ℕ) (i : ℤ) (trace : List (Event ℕ Kind Value)),
        (loop.rounds runtime.machine limit indices s)[t]? = some (i, trace) →
        indices[t]? = some i ∧ ∀ e ∈ trace, ∀ kind gp cell, Accesses loop kind e gp cell →
          anyAxisReferencesLoopIndex loop gp = true → cell.snode = gp.snode ∧
            ∃ base : ℕ → ℤ, (∀ x ∉ blockNames loop.body, x ≠ loop.name →
                base x = (outside x).toInt) ∧
              cell.indices = gp.indices.map (indexValue runtime.arithmetic loop base i) := by
  intro indices
  induction indices with
  | nil => exact fun s _ t i trace h => nomatch h
  | cons first rest ih =>
    intro s hs t i trace h
    have hround := round_holds runtime hwf limit s first
    rw [OffloadLoop.rounds] at h
    cases t with
    | zero =>
      obtain ⟨rfl, rfl⟩ := Prod.mk.inj (Option.some.inj h)
      refine ⟨rfl, fun e he kind gp cell haccess href => ?_⟩
      obtain ⟨hsnode, base, hbase, hindices⟩ := hround.events e he kind gp cell haccess href
      exact ⟨hsnode, base, fun x hx hne => (hbase x hx hne).trans
        (congrArg Value.toInt (hs x hx hne)), hindices⟩
    | succ t =>
      refine ih _ (fun x hx hne => (hround.state.outer x hx hne).trans (hs x hx hne)) t i
        trace ?_
      split at h
      · exact h
      · exact h
      · exact nomatch h

end Sound

section Checked

variable {loop : OffloadLoop} {hasAdjoint : ℕ → Bool}

theorem mem_accesses {kind : Kind} {e : Event ℕ Kind Value} {gp : GlobalPtr}
    {cell : Cell} (h : Accesses loop kind e gp cell) (hadjoint : hasAdjoint gp.snode = true) :
    gp ∈ accesses loop hasAdjoint kind := by
  cases h with
  | mk hvisit hextract =>
    refine mem_filterMap.2 ⟨_, hvisit, ?_⟩
    simp [hextract, Option.filter, hadjoint]

theorem independent_of_raisesNoError (hcheck : raisesNoError loop hasAdjoint) {store load : GlobalPtr}
    (hstore : store ∈ accesses loop hasAdjoint .globalStore)
    (hload : load ∈ accesses loop hasAdjoint .globalLoad) (hsnode : load.snode = store.snode)
    (hstoreRef : anyAxisReferencesLoopIndex loop store = true)
    (hloadRef : anyAxisReferencesLoopIndex loop load = true) :
    indicesHaveNoCrossIterDependency loop store load = true := by
  by_contra hnot
  have hmem : store.snode ∈ hazards loop hasAdjoint := by
    refine mem_flatMap.2 ⟨store, hstore, ?_⟩
    rw [if_pos hstoreRef]
    exact mem_map.2 ⟨load, mem_filter.2 ⟨hload, by simp [hsnode, hloadRef, hnot]⟩, rfl⟩
  rw [hcheck] at hmem
  exact absurd hmem not_mem_nil

variable {x : ℕ}

theorem eq_of_independent {a b : GlobalPtr}
    (h : indicesHaveNoCrossIterDependency loop a b = true) (hx : x ∈ a.indices)
    (href : referencesLoopIndex loop x = true) :
    ∃ k : ℕ, a.indices[k]? = some x ∧ b.indices[k]? = some x := by
  rw [indicesHaveNoCrossIterDependency, Bool.and_eq_true, decide_eq_true_eq, all_eq_true] at h
  obtain ⟨hlength, hall⟩ := h
  obtain ⟨k, hk, rfl⟩ := getElem_of_mem hx
  have hk' : k < b.indices.length := hlength ▸ hk
  have hpair := hall (a.indices[k], b.indices[k])
    (mem_iff_getElem?.2 ⟨k, by simp [List.getElem?_zip_eq_some, hk, hk']⟩)
  refine ⟨k, List.getElem?_eq_getElem hk, ?_⟩
  simp only [href, Bool.true_and, Bool.and_eq_true, decide_eq_true_eq, Bool.not_eq_true'] at hpair
  obtain ⟨hb, heq⟩ := hpair
  rw [← hb, Bool.true_and, bne_eq_false_iff_eq] at heq
  rw [List.getElem?_eq_getElem hk', heq]

theorem separates_of_loopIndex (arithmetic : Kind → List ℤ → ℤ) (hwf : loop.WellFormed)
    (hleaf : .loopIndex x loop.name 0 ∈ blockLeaves loop.body) {indices : List ℕ}
    (hx : x ∈ indices) : Separates arithmetic loop indices := by
  intro base base' _ i i' hne
  refine ⟨x, hx, ?_⟩
  rw [indexValue_leaf hwf hleaf (mem_singleton_self x),
    indexValue_leaf hwf hleaf (mem_singleton_self x)]
  simpa [valueOfLeaf] using hne

theorem nodup_rangeOf (first last : ℤ) : (rangeOf first last).Nodup := by
  refine List.Nodup.map (fun a b h => ?_) nodup_range
  omega

end Checked

def productRuntime : Runtime Unit where
  arithmetic _ operands := operands.prod
  exec _ _ mem := (0, mem, .normal)
  test _ := true
  iterations _ _ _ := none

def startState : State ℕ Value Unit :=
  ⟨fun _ => .number 0, ()⟩

def squareLoop : OffloadLoop where
  name := 0
  outer := []
  body := [.loopIndex 1 0 0, .plain 2 (.globalPtr 0) [1], .plain 3 .globalLoad [2],
    .plain 4 (.binaryOp 0) [3, 3],
    .plain 5 .globalStore [2, 4]]

def sameCellLoop : OffloadLoop where
  name := 0
  outer := []
  body := [.plain 1 (.const 0) [], .plain 2 (.globalPtr 0) [1], .plain 3 .globalLoad [2],
    .plain 4 (.binaryOp 0) [3, 3],
    .plain 5 .globalStore [2, 4]]

theorem squareLoop_wellFormed : squareLoop.WellFormed where
  nodup := by decide
  ordered := trivial
  outer_plain _ _ _ := not_mem_nil
  inScope := by simp [squareLoop, BlockScoped, Stmt.Scoped, Stmt.value]

theorem sameCellLoop_wellFormed : sameCellLoop.WellFormed where
  nodup := by decide
  ordered := trivial
  outer_plain _ _ _ := not_mem_nil
  inScope := by simp [sameCellLoop, BlockScoped, Stmt.Scoped, Stmt.value]

end Quadrants.AutoDiff.CrossIteration
