import Quadrants.SNode.WeakWrites
import Mathlib.Data.List.GetD

/-!
The writes of a task after `flag_access`: when those to inactive cells are kept.
-/

namespace Quadrants.WeakAccess

open Library.SsaBlocks Library.TracedLoops Addressing List

mutual

theorem visitStmt_leaves : ∀ (stmt : Statement) (current : Option Loop),
    (visitStmt current stmt).1.map Prod.fst = stmt.leaves
  | .plain _ _ _, _ => rfl
  | .loopIndex _ _ _, _ => rfl
  | .ifStmt _ _ t f, current => by
    rw [visitStmt, map_append, visitBlock_leaves t, visitBlock_leaves f, Stmt.leaves]
  | .loop _ kind _ body, current => by
    cases kind <;> exact visitBlock_leaves body _

theorem visitBlock_leaves : ∀ (block : List Statement) (current : Option Loop),
    (visitBlock current block).1.map Prod.fst = blockLeaves block
  | [], _ => rfl
  | stmt :: rest, current => by
    rw [visitBlock, map_append, visitStmt_leaves stmt, visitBlock_leaves rest, blockLeaves]

end

variable {task : Task}

theorem mem_leaves_of_visits {visit : Statement × Option Loop}
    (h : visit ∈ task.visits) : visit.1 ∈ task.leaves := by
  obtain ⟨visit', hmem, rfl⟩ := mem_map.1 h
  rw [Task.leaves, ← visitBlock_leaves task.body none]
  exact mem_map.2 ⟨visit', hmem, rfl⟩

def Known (loops : List (ℕ × Kind)) (current : Option Loop) : Prop :=
  ∀ loop, current = some loop → (loop.name, .structFor loop.snode) ∈ loops

theorem known_none (loops : List (ℕ × Kind)) : Known loops none :=
  fun _ h => nomatch h

mutual

theorem visitStmt_known {loops : List (ℕ × Kind)} : ∀ (stmt : Statement) (current : Option Loop),
    stmt.loops ⊆ loops → Known loops current →
      (∀ visit ∈ (visitStmt current stmt).1, Known loops visit.2) ∧
        Known loops (visitStmt current stmt).2
  | .plain _ _ _, current, _, h => by
    exact ⟨fun visit hvisit => mem_singleton.1 hvisit ▸ h, h⟩
  | .loopIndex _ _ _, current, _, h => by
    exact ⟨fun visit hvisit => mem_singleton.1 hvisit ▸ h, h⟩
  | .ifStmt _ _ t f, current, hin, h => by
    rw [Stmt.loops, append_subset] at hin
    obtain ⟨hfirst, hmiddle⟩ := visitBlock_known t current hin.1 h
    obtain ⟨hsecond, hlast⟩ := visitBlock_known f _ hin.2 hmiddle
    exact ⟨fun visit hvisit => (mem_append.1 hvisit).elim (hfirst visit) (hsecond visit), hlast⟩
  | .loop name kind _ body, current, hin, h => by
    rw [Stmt.loops, cons_subset] at hin
    cases kind with
    | structFor snode =>
      refine ⟨(visitBlock_known body (some ⟨name, snode⟩) hin.2 ?_).1, known_none loops⟩
      intro loop hloop
      obtain rfl := Option.some.inj hloop
      exact hin.1
    | _ => exact visitBlock_known body current hin.2 h

theorem visitBlock_known {loops : List (ℕ × Kind)} : ∀ (block : List Statement)
    (current : Option Loop), blockLoops block ⊆ loops → Known loops current →
      (∀ visit ∈ (visitBlock current block).1, Known loops visit.2) ∧
        Known loops (visitBlock current block).2
  | [], current, _, h => by
    exact ⟨fun visit hvisit => absurd hvisit not_mem_nil, h⟩
  | stmt :: rest, current, hin, h => by
    rw [blockLoops, append_subset] at hin
    obtain ⟨hfirst, hmiddle⟩ := visitStmt_known stmt current hin.1 h
    obtain ⟨hsecond, hlast⟩ := visitBlock_known rest _ hin.2 hmiddle
    exact ⟨fun visit hvisit => (mem_append.1 hvisit).elim (hfirst visit) (hsecond visit), hlast⟩

end

def Task.HasLoop (task : Task) (loop : Loop) : Prop :=
  task.loop = some loop ∨ (loop.name, .structFor loop.snode) ∈ blockLoops task.body

theorem hasLoop_of_visits {leaf : Statement} {loop : Loop}
    (h : (leaf, some loop) ∈ task.visits) : task.HasLoop loop := by
  obtain ⟨⟨leaf', current⟩, hmem, heq⟩ := mem_map.1 h
  rw [Prod.mk.injEq] at heq
  have hknown := (visitBlock_known task.body none (List.Subset.refl _) (known_none _)).1 _ hmem
  rcases Option.or_eq_some_iff.1 heq.2 with hcurrent | ⟨-, htask⟩
  · exact .inr (hknown loop hcurrent)
  · exact .inl htask

section Runs

variable {forest : Forest} {active : List (ℕ × ℕ) → Prop} {M : Type} {task : Task}

structure InScope (forest : Forest) (active : List (ℕ × ℕ) → Prop) (task : Task)
    (values loops : List ℕ) (s : State ℕ Value M) : Prop where
  loops_mem : ∀ x ∈ values, ∀ loop axis, .loopIndex x loop axis ∈ task.leaves → loop ∈ loops
  loopIndices : ∀ x ∈ values, ∀ loop ∈ loops, ∀ axis, .loopIndex x loop axis ∈ task.leaves →
    s.env x = (s.env loop).index axis
  pointers : ∀ x ∈ values, ∀ snode indices, s.env x = .pointer snode indices →
    ∀ ptr, PointsInto task x ptr → Own forest task ptr → AddressActive forest active snode indices
  elements : ∀ loop, task.HasLoop loop → loop.name ∈ loops →
    ∃ indices, s.env loop.name = .loop indices ∧ ElementActive forest active loop.snode indices

/-- A write through a pointer to the element of the loop goes to an active cell. -/
def OwnActive (forest : Forest) (active : List (ℕ × ℕ) → Prop) (task : Task)
    (e : Event ℕ Kind Value) : Prop :=
  ∀ ptr snode indices, WritesThrough task e ptr snode indices → Own forest task ptr →
    AddressActive forest active snode indices

variable {indices : List ℤ} {kind : Kind} {loops values : List ℕ} {name : ℕ} {s : State ℕ Value M}
variable {snode : Chain}

theorem InScope.forget {values' loops' : List ℕ} {s' : State ℕ Value M}
    (hvalues : values ⊆ values') (hloops : loops ⊆ loops')
    (hbefore : InScope forest active task values loops s)
    (h : InScope forest active task values' loops' s') :
    InScope forest active task values loops s' where
  loops_mem := hbefore.loops_mem
  loopIndices x hx loop hloop := h.loopIndices x (hvalues hx) loop (hloops hloop)
  pointers x hx := h.pointers x (hvalues hx)
  elements loop hloop hname := h.elements loop hloop (hloops hname)

theorem InScope.set {value : Value}
    (h : InScope forest active task values loops s) (hvalues : name ∉ values)
    (hloops : name ∉ loops)
    (hmem : ∀ loop axis, .loopIndex name loop axis ∈ task.leaves → loop ∈ loops)
    (hindex : ∀ loop ∈ loops, ∀ axis, .loopIndex name loop axis ∈ task.leaves →
      value = (s.env loop).index axis)
    (hpointer : ∀ snode indices, value = .pointer snode indices →
      ∀ ptr, PointsInto task name ptr → Own forest task ptr →
        AddressActive forest active snode indices) :
    InScope forest active task (name :: values) loops (s.set name value) where
  loops_mem x hx loop axis hleaf := by
    rcases mem_cons.1 hx with rfl | hx
    · exact hmem loop axis hleaf
    · exact h.loops_mem x hx loop axis hleaf
  loopIndices x hx loop hloop axis hleaf := by
    rw [State.set_env_of_ne s (ne_of_mem_of_not_mem hloop hloops) value]
    rcases mem_cons.1 hx with rfl | hx
    · rw [State.set_env_self]
      exact hindex loop hloop axis hleaf
    · rw [State.set_env_of_ne s (ne_of_mem_of_not_mem hx hvalues) value]
      exact h.loopIndices x hx loop hloop axis hleaf
  pointers x hx snode indices hvalue ptr hinto hown := by
    rcases mem_cons.1 hx with rfl | hx
    · rw [State.set_env_self] at hvalue
      exact hpointer snode indices hvalue ptr hinto hown
    · rw [State.set_env_of_ne s (ne_of_mem_of_not_mem hx hvalues) value] at hvalue
      exact h.pointers x hx snode indices hvalue ptr hinto hown
  elements loop hloop hname := by
    rw [State.set_env_of_ne s (ne_of_mem_of_not_mem hname hloops) value]
    exact h.elements loop hloop hname

theorem InScope.mem (mem : M) (h : InScope forest active task values loops s) :
    InScope forest active task values loops { s with mem := mem } :=
  ⟨h.loops_mem, h.loopIndices, h.pointers, h.elements⟩

theorem toInt_index (axis : ℕ) :
    ((Value.loop indices).index axis).toInt = indices.getD axis 0 := rfl

variable {i : Value} {loop : Loop} {operands : List ℕ} {ptr : ℕ}

theorem InScope.ownIndices (h : InScope forest active task values loops s)
    (hloop : task.HasLoop loop)
    (hown : OwnElement forest task loop snode operands) (hoperands : operands ⊆ values) :
    AddressActive forest active snode (operands.map fun x => (s.env x).toInt) := by
  have hindex (k : ℕ) (hk : k < operands.length) :
      operands[k] ∈ values ∧ .loopIndex operands[k] loop.name k ∈ task.leaves :=
    ⟨hoperands (getElem_mem hk), hown.loopIndices k _ (List.getElem?_eq_getElem hk)⟩
  have hname : loop.name ∈ loops := by
    obtain ⟨hvalue, hleaf⟩ := hindex 0 (length_pos_iff.2 hown.nonempty)
    exact h.loops_mem _ hvalue _ _ hleaf
  obtain ⟨indices, henv, helement⟩ := h.elements loop hloop hname
  have hlength : operands.length = indices.length := by
    obtain ⟨coordinates, rfl, hlength, -⟩ := helement
    rw [hown.length, length_map, hlength]
  have hvalues : (operands.map fun x => (s.env x).toInt) = indices := by
    refine ext_getElem (by rw [length_map, hlength]) fun k hk hk' => ?_
    obtain ⟨hvalue, hleaf⟩ := hindex k (by rwa [length_map] at hk)
    rw [getElem_map, h.loopIndices _ hvalue _ hname _ hleaf, henv, toInt_index,
      getD_eq_getElem _ _ hk']
  rw [hvalues]
  exact addressActive_of_element forest hown helement

variable (runtime : Runtime forest active M)

theorem pointer_of_execKind {values : List Value} {mem : M}
    (h : (runtime.execKind kind values mem).1 = .pointer snode indices) :
    kind = .globalPtr snode ∧ indices = values.map Value.toInt ∨
      kind = .matrixPtr ∧ ∃ rest, values = .pointer snode indices :: rest := by
  unfold Runtime.execKind at h
  split at h
  · cases h
    exact .inl ⟨rfl, rfl⟩
  · cases h
    exact .inr ⟨rfl, _, rfl⟩
  · contradiction

theorem InScope.execPlain (hwf : task.WellFormed)
    (hleaf : .plain name kind operands ∈ task.leaves) (hoperands : operands ⊆ values)
    (hvalues : name ∉ values) (hloops : name ∉ loops)
    (h : InScope forest active task values loops s) :
    InScope forest active task (name :: values) loops
        (execPlain runtime.machine name kind operands s).state ∧
      ∀ e ∈ (execPlain runtime.machine name kind operands s).trace,
        OwnActive forest active task e := by
  have hunique {leaf : Statement} (hmem : leaf ∈ task.leaves) (hname : name ∈ leaf.value) :
      leaf = .plain name kind operands := hwf.unique hmem hleaf hname (mem_singleton_self name)
  constructor
  · refine (h.mem _).set hvalues hloops ?_ ?_ ?_
    · intro loop axis hmem
      exact nomatch hunique hmem (mem_singleton_self name)
    · intro loop _ axis hmem
      exact nomatch hunique hmem (mem_singleton_self name)
    · intro snode indices hvalue ptr hinto hown
      rcases pointer_of_execKind runtime hvalue with ⟨rfl, rfl⟩ | ⟨rfl, rest, hrest⟩
      · cases hinto with
        | globalPtr =>
          obtain ⟨snode', indices', loop, hvisit, helement⟩ := hown
          cases hunique (mem_leaves_of_visits hvisit) (mem_singleton_self name)
          rw [map_map]
          exact h.ownIndices (hasLoop_of_visits hvisit) helement hoperands
        | matrixPtr hmem => exact nomatch hunique hmem (mem_singleton_self name)
      · cases hinto with
        | globalPtr hmem => exact nomatch hunique hmem (mem_singleton_self name)
        | matrixPtr hmem horigin =>
          cases hunique hmem (mem_singleton_self name)
          rw [map_cons] at hrest
          exact h.pointers _ (hoperands mem_cons_self) snode indices (List.cons.inj hrest).1
            ptr horigin hown
  · intro e he ptr snode indices hwrite hown
    rw [Library.SsaBlocks.execPlain, mem_singleton] at he
    subst he
    generalize hvalue : operands.map s.env = read at hwrite
    cases hwrite with
    | mk hwritten hkind hinto =>
      cases hunique hwritten (mem_singleton_self name)
      rw [map_cons] at hvalue
      exact h.pointers _ (hoperands mem_cons_self) snode indices (List.cons.inj hvalue).1
        ptr hinto hown

theorem elementActive_of_enters (h : runtime.machine.Enters (.structFor snode) i) :
    ∃ indices, i = .loop indices ∧ ElementActive forest active snode indices := by
  obtain ⟨values, mem, ⟨indices, hindices, hi⟩ | ⟨hnone, -⟩⟩ := h
  · obtain rfl := Option.some.inj hindices
    obtain ⟨element, helement, rfl⟩ := mem_map.1 hi
    exact ⟨element, rfl, runtime.elements_active snode values mem element helement⟩
  · contradiction

theorem Task.WellFormed.loop_unique (hwf : task.WellFormed)
    (hloop : (loop.name, kind) ∈ blockLoops task.body) (h : task.HasLoop loop) :
    kind = .structFor loop.snode := by
  have hin := (blockLoops_sublist task.body).subset (mem_map_of_mem hloop)
  rcases h with htask | hmem
  · obtain ⟨snode, -, rfl⟩ := Option.map_eq_some_iff.1 htask
    exact absurd hin (nodup_cons.1 hwf.nodup).1
  · have hnodup := (nodup_cons.1 hwf.nodup).2.sublist (blockLoops_sublist task.body)
    have heq := inj_on_of_nodup_map hnodup hloop hmem rfl
    exact congrArg Prod.snd heq

theorem InScope.enter (hwf : task.WellFormed)
    (hloop : (name, kind) ∈ blockLoops task.body) (henters : runtime.machine.Enters kind i)
    (hvalues : name ∉ values) (hloops : name ∉ loops)
    (h : InScope forest active task values loops s) :
    InScope forest active task values (name :: loops) (s.set name i) where
  loops_mem x hx loop axis hmem := mem_cons_of_mem _ (h.loops_mem x hx loop axis hmem)
  loopIndices x hx loop hmem axis hleaf := by
    have houter := h.loops_mem x hx loop axis hleaf
    rw [State.set_env_of_ne s (ne_of_mem_of_not_mem hx hvalues) i,
      State.set_env_of_ne s (ne_of_mem_of_not_mem houter hloops) i]
    exact h.loopIndices x hx loop houter axis hleaf
  pointers x hx snode indices hvalue := by
    rw [State.set_env_of_ne s (ne_of_mem_of_not_mem hx hvalues) i] at hvalue
    exact h.pointers x hx snode indices hvalue
  elements loop hhas hmem := by
    rcases mem_cons.1 hmem with rfl | hmem
    · rw [hwf.loop_unique hloop hhas] at henters
      rw [State.set_env_self]
      exact elementActive_of_enters runtime henters
    · rw [State.set_env_of_ne s (ne_of_mem_of_not_mem hmem hloops) i]
      exact h.elements loop hhas hmem

theorem inScope_invariant (hwf : task.WellFormed) :
    ScopeInvariant runtime.machine task.body (InScope forest active task)
      (OwnActive forest active task) where
  forget := InScope.forget
  plain := InScope.execPlain runtime hwf
  loopIndex := by
    intro name loop axis values loops s hleaf hloop hvalues hloops h
    refine h.set hvalues hloops ?_ ?_ ?_
    · intro loop' axis' hmem
      cases hwf.unique hmem hleaf (mem_singleton_self name) (mem_singleton_self name)
      exact hloop
    · intro loop' _ axis' hmem
      cases hwf.unique hmem hleaf (mem_singleton_self name) (mem_singleton_self name)
      rfl
    · intro snode indices hvalue
      exact absurd hvalue (by cases s.env loop <;> simp [Runtime.machine, Value.index])
  enter := InScope.enter runtime hwf
  container e he ptr snode indices hwrite := by
    cases hwrite
    rcases he with he | he <;> contradiction

theorem ownActive_of_run (hwf : task.WellFormed) (rounds : ℕ)
    (hstart : task.Starts forest active s) :
    ∀ e ∈ (execBlock runtime.machine rounds task.body s).trace, OwnActive forest active task e := by
  have hnodup := nodup_cons.1 hwf.nodup
  have hscope : InScope forest active task [] [task.name] s := by
    refine ⟨fun x hx => absurd hx not_mem_nil, fun x hx => absurd hx not_mem_nil,
      fun x hx => absurd hx not_mem_nil, ?_⟩
    intro loop hloop hname
    rw [mem_singleton] at hname
    rcases hloop with htask | hmem
    · obtain ⟨snode, hsnode, rfl⟩ := Option.map_eq_some_iff.1 htask
      exact hstart snode hsnode
    · have hin := (blockLoops_sublist task.body).subset (mem_map_of_mem hmem)
      exact absurd (hname ▸ hin) hnodup.1
  exact (execBlock_holds (inScope_invariant runtime hwf) rounds task.body [] [task.name] s
    hwf.inScope hnodup.2 (disjoint_nil_left _)
    (singleton_disjoint.2 hnodup.1) (List.Subset.refl _) (List.Subset.refl _) hscope).events

theorem PointsInto.exists_leaf {x : ℕ} (h : PointsInto task x ptr) :
    ∃ snode indices, .plain ptr (.globalPtr snode) indices ∈ task.leaves := by
  induction h with
  | globalPtr hleaf => exact ⟨_, _, hleaf⟩
  | matrixPtr _ _ ih => exact ih

theorem WritesThrough.exists_leaf {e : Event ℕ Kind Value}
    (h : WritesThrough task e ptr snode indices) :
    ∃ snode indices, .plain ptr (.globalPtr snode) indices ∈ task.leaves := by
  cases h with
  | mk _ _ hinto => exact hinto.exists_leaf

/-- After the pass a run keeps its writes to inactive cells if and only if the writes through the
overlooked pointers go to active cells. -/
theorem keepsWrites_iff (hwf : task.WellFormed) (activate : Activate) (rounds : ℕ)
    {s : State ℕ Value M} (hstart : task.Starts forest active s) :
    KeepsWrites forest active task (flagAccess forest task activate)
        (execBlock runtime.machine rounds task.body s).trace ↔
      ∀ e ∈ (execBlock runtime.machine rounds task.body s).trace, ∀ ptr snode indices,
        WritesThrough task e ptr snode indices → Overlooked forest task ptr →
          AddressActive forest active snode indices := by
  have hiff {e : Event ℕ Kind Value} {ptr : ℕ} {snode : Chain} {indices : List ℤ}
      (hwrite : WritesThrough task e ptr snode indices) :
      flagAccess forest task activate ptr = true ↔
        ¬(Unflagged task ptr ∨ Weakened forest task ptr) := by
    obtain ⟨snode', indices', hleaf⟩ := hwrite.exists_leaf
    rw [flagAccess_iff hwf hleaf, not_or]
  constructor
  · rintro hkeeps e he ptr snode indices hwrite ⟨-, hcause⟩
    refine (hkeeps e he ptr snode indices hwrite).resolve_left fun hactivate => ?_
    exact (hiff hwrite).1 hactivate hcause
  · intro hactive e he ptr snode indices hwrite
    by_cases hown : Own forest task ptr
    · exact .inr (ownActive_of_run runtime hwf rounds hstart e he ptr snode indices hwrite hown)
    · by_cases hcause : Unflagged task ptr ∨ Weakened forest task ptr
      · exact .inr (hactive e he ptr snode indices hwrite ⟨hown, hcause⟩)
      · exact .inl ((hiff hwrite).2 hcause)

end Runs

/-- `for i in x: for k in range(2): x[k] = 1`, where `x` is placed in a pointer node with four
cells -/
def otherLoopForest : Forest
  | 0 => rootSNode
  | 1 => ((rootSNode.insertChildren .pointer).divide 0 4).inferred
  | _ => ((rootSNode.insertChildren .pointer).divide 0 4).inferred.insertChildren .place

def otherLoopTask : Task where
  name := 0
  snode := some [1, 0]
  body := [.plain 1 (.other 0) [], .plain 2 (.other 2) [], .plain 3 (.other 1) [],
    .loop 4 .rangeFor [1, 2] [.loopIndex 5 4 0, .plain 6 (.globalPtr [2, 1, 0]) [5],
      .plain 7 .globalStore [6, 3]]]

def firstCell (cell : List (ℕ × ℕ)) : Prop :=
  cell = [(0, 0), (1, 0)]

theorem firstCell_element : ElementActive otherLoopForest firstCell [1, 0] [0] := by
  refine ⟨[0], rfl, by decide, ?_⟩
  intro above cell hprefix hneed
  have hcells : cells otherLoopForest [1, 0] [0] true = [(0, 0), (1, 0)] := by decide
  rw [hcells] at hprefix
  match above with
  | [] =>
    obtain ⟨rfl, -⟩ := cons_prefix_cons.1 hprefix
    exact absurd hneed (by decide)
  | [first] =>
    obtain ⟨rfl, hrest⟩ := cons_prefix_cons.1 hprefix
    obtain ⟨rfl, -⟩ := cons_prefix_cons.1 hrest
    rfl
  | first :: second :: rest =>
    have hlength := hprefix.length_le
    simp at hlength

def otherLoopRuntime : Runtime otherLoopForest firstCell Unit where
  exec kind _ mem :=
    match kind with
    | .other code => (code, mem, .normal)
    | _ => (0, mem, .normal)
  test _ := true
  iterations _ values _ :=
    match values with
    | [first, last] =>
      some ((List.range (last.toInt - first.toInt).toNat).map fun k : ℕ => [first.toInt + k])
    | _ => none
  elements _ _ _ := []
  elements_active _ _ _ _ h := absurd h not_mem_nil

def otherLoopState : State ℕ Value Unit :=
  ⟨fun _ => .loop [0], ()⟩

theorem otherLoopTask_wellFormed : otherLoopTask.WellFormed where
  nodup := by decide
  inScope := by simp [otherLoopTask, BlockScoped, Stmt.Scoped, Stmt.value]

theorem otherLoopState_starts : otherLoopTask.Starts otherLoopForest firstCell otherLoopState := by
  intro snode hsnode
  obtain rfl := Option.some.inj hsnode
  exact ⟨[0], rfl, firstCell_element⟩

/-- The store of the second round is lost. -/
theorem flagAccess_loses_write :
    ¬∀ (forest : Forest) (active : List (ℕ × ℕ) → Prop) (task : Task), task.WellFormed →
      ∀ (M : Type) (runtime : Runtime forest active M) (activate : Activate) (rounds : ℕ)
        (s : State ℕ Value M), task.Starts forest active s →
          KeepsWrites forest active task (flagAccess forest task activate)
            (execBlock runtime.machine rounds task.body s).trace := by
  intro h
  have hkeeps := h otherLoopForest firstCell otherLoopTask otherLoopTask_wellFormed Unit
    otherLoopRuntime (fun _ => true) 0 otherLoopState otherLoopState_starts
  have hevent : ⟨7, some .globalStore, [.pointer [2, 1, 0] [1], .number 1], some (.number 0)⟩ ∈
      (execBlock otherLoopRuntime.machine 0 otherLoopTask.body otherLoopState).trace :=
    mem_iff_getElem?.2 ⟨9, rfl⟩
  have hptr : .plain 6 (.globalPtr [2, 1, 0]) [5] ∈ otherLoopTask.leaves :=
    mem_iff_getElem?.2 ⟨4, rfl⟩
  have hstore : .plain 7 .globalStore [6, 3] ∈ otherLoopTask.leaves :=
    mem_iff_getElem?.2 ⟨5, rfl⟩
  have hwrite : WritesThrough otherLoopTask
      ⟨7, some .globalStore, [.pointer [2, 1, 0] [1], .number 1], some (.number 0)⟩ 6 [2, 1, 0]
      [1] := .mk hstore (.inl rfl) (.globalPtr hptr)
  rcases hkeeps _ hevent _ _ _ hwrite with hactivate | hactive
  · exact absurd hactivate (by decide)
  · have hcells : cells otherLoopForest [2, 1, 0] [1] false = [(0, 0), (1, 1)] := by decide
    have hcell : firstCell ([(0, 0)] ++ [(1, 1)]) :=
      hactive [(0, 0)] (1, 1) (hcells ▸ prefix_refl _) (by decide)
    exact absurd hcell (by simp [firstCell])

theorem keepsWrites_iff_otherLoop : KeepsWrites otherLoopForest firstCell otherLoopTask
        (flagAccess otherLoopForest otherLoopTask fun _ => true)
        (execBlock otherLoopRuntime.machine 0 otherLoopTask.body otherLoopState).trace ↔
      ∀ e ∈ (execBlock otherLoopRuntime.machine 0 otherLoopTask.body otherLoopState).trace,
        ∀ ptr snode indices, WritesThrough otherLoopTask e ptr snode indices →
          Overlooked otherLoopForest otherLoopTask ptr →
            AddressActive otherLoopForest firstCell snode indices :=
  keepsWrites_iff otherLoopRuntime otherLoopTask_wellFormed (fun _ => true) 0 otherLoopState_starts

end Quadrants.WeakAccess
