import Quadrants.Cfg.Reducible
import Quadrants.Library.Dataflow
import Quadrants.Cfg.Coverage

/-!
`reaching_definition_analysis` and `live_variable_analysis` of `ControlFlowGraph`. The statements
of the nodes are a parameter `σ`: the analyses ask them for their class and for the pointers that
they load from and store to, and compare addresses with `definitely_same_address`.
-/

namespace Quadrants.Cfg

open Quadrants.Library.Dataflow

inductive StmtClass (σ : Type) where
  | alloca
  | adStackAlloca
  | matrixPtr (origin : σ)
  | globalPtr (snode : ℕ)
  | externalPtr
  | blockLocalPtr
  | threadLocalPtr
  | globalTemporary
  | getCh
  | matrixOfGlobalPtr
  | matrixOfMatrixPtr (stmts : List σ)
  | adStackPush (stack : σ)
  | adStackPop (stack : σ)
  | adStackAccAdjoint (stack : σ)
  | funcCall (storeDests : List σ)
  | other

/-- The traits `Load` and `Store` are lists that are empty for statements without them. -/
structure Ir (σ : Type) where
  classOf : σ → StmtClass σ
  loadPointers : σ → List σ
  storeDestination : σ → List σ
  definitelySameAddress : σ → σ → Bool

namespace Ir

variable {σ : Type} (ir : Ir σ)

def isAlloca (s : σ) : Bool :=
  match ir.classOf s with
  | .alloca => true
  | _ => false

def isAdStackAlloca (s : σ) : Bool :=
  match ir.classOf s with
  | .adStackAlloca => true
  | _ => false

def isMatrixPtr (s : σ) : Bool :=
  match ir.classOf s with
  | .matrixPtr _ => true
  | _ => false

def isLocalMatrixPtr (s : σ) : Bool :=
  match ir.classOf s with
  | .matrixPtr origin => ir.isAlloca origin || ir.isMatrixPtr origin
  | _ => false

def isGlobalPointer (s : σ) : Bool :=
  match ir.classOf s with
  | .globalPtr _ | .externalPtr | .blockLocalPtr | .threadLocalPtr | .globalTemporary
  | .matrixPtr _ | .getCh | .matrixOfGlobalPtr | .matrixOfMatrixPtr _ => true
  | _ => false

def includeAliasedStmts (dest : List σ) : List σ :=
  match dest with
  | [destStmt] =>
    match ir.classOf destStmt with
    | .matrixOfMatrixPtr stmts =>
      destStmt :: stmts.flatMap fun stmt =>
        match ir.classOf stmt with
        | .matrixPtr origin => [stmt, origin]
        | _ => []
    | .matrixPtr origin => [destStmt, origin]
    | _ => dest
  | _ => dest

variable [DecidableEq σ]

def containVariable (varSet : Finset σ) (var : σ) : Bool :=
  if ir.isAlloca var || ir.isAdStackAlloca var then decide (var ∈ varSet)
  else decide (var ∈ varSet) || decide (∃ w ∈ varSet, ir.definitelySameAddress var w = true)

structure GenKill (σ : Type) where
  gen : Finset σ
  kill : Finset σ

section Reaching

variable (afterLowerAccess : Bool)

def isDataSource (ptr : σ) : Bool :=
  !afterLowerAccess || ir.isLocalMatrixPtr ptr || ir.isAlloca ptr

def addDefinition (stmt : σ) (sets : GenKill σ) (dataSourcePtr : σ) : GenKill σ :=
  if !ir.isDataSource afterLowerAccess dataSourcePtr then sets
  else if ir.containVariable sets.kill dataSourcePtr then sets
  else ⟨insert stmt sets.gen, insert dataSourcePtr sets.kill⟩

def reachingOfNode : List σ → GenKill σ
  | [] => ⟨∅, ∅⟩
  | stmt :: later =>
    (ir.storeDestination stmt).foldl (ir.addDefinition afterLowerAccess stmt)
      (reachingOfNode later)

def initialDefinitions (stmt : σ) : List σ :=
  if ir.isLocalMatrixPtr stmt || (!afterLowerAccess && ir.isGlobalPointer stmt) then [stmt]
  else
    match ir.classOf stmt with
    | .funcCall storeDests => storeDests
    | _ => []

def reachGenKill (g : Graph σ) (v : ℕ) : GenKill σ :=
  if v = 0 then
    ⟨((g.nodes.flatMap Node.stmts).flatMap (ir.initialDefinitions afterLowerAccess)).toFinset, ∅⟩
  else ir.reachingOfNode afterLowerAccess (g.stmts v)

def killed (kill : Finset σ) (stmt : σ) : Bool :=
  match ir.storeDestination stmt with
  | [] => ir.containVariable kill stmt
  | storePtrs => storePtrs.all (ir.containVariable kill)

end Reaching

section Live

variable (afterLowerAccess : Bool)

def isLiveSource (ptr : σ) : Bool :=
  ir.isDataSource afterLowerAccess ptr || ir.isAdStackAlloca ptr

def storePtrs (stmt : σ) : List σ :=
  match ir.classOf stmt with
  | .adStackPop stack | .adStackPush stack | .adStackAccAdjoint stack => [stack]
  | _ => ir.storeDestination stmt

def addLoad (sets : GenKill σ) (loadPtr : σ) : GenKill σ :=
  if ir.isLiveSource afterLowerAccess loadPtr && !ir.containVariable sets.kill loadPtr then
    ⟨insert loadPtr sets.gen, sets.kill⟩
  else sets

def addStore (sets : GenKill σ) (storePtr : σ) : GenKill σ :=
  if ir.isLiveSource afterLowerAccess storePtr then ⟨sets.gen, insert storePtr sets.kill⟩
  else sets

def visitLive (sets : GenKill σ) (stmt : σ) : GenKill σ :=
  let loadPtrs := ir.includeAliasedStmts (ir.loadPointers stmt)
  (ir.storePtrs stmt).foldl (ir.addStore afterLowerAccess)
    (loadPtrs.foldl (ir.addLoad afterLowerAccess) sets)

def liveOfNode (stmts : List σ) : GenKill σ :=
  stmts.foldl (ir.visitLive afterLowerAccess) ⟨∅, ∅⟩

def inFinalNodeLiveGen (eliminableSNodes : Option (Finset ℕ)) (stmt : σ) : Bool :=
  match ir.classOf stmt with
  | .alloca | .adStackAlloca => false
  | .matrixPtr origin => !ir.isAlloca origin
  | .globalPtr snode =>
    match eliminableSNodes with
    | some snodes => decide (snode ∉ snodes)
    | none => true
  | _ => true

def finalLiveGen (eliminableSNodes : Option (Finset ℕ)) (stmts : List σ) : Finset σ :=
  if afterLowerAccess then ∅
  else
    ((stmts.flatMap fun stmt => ir.includeAliasedStmts (ir.storeDestination stmt)).filter
      (ir.inFinalNodeLiveGen eliminableSNodes)).toFinset

def liveGenKill (eliminableSNodes : Option (Finset ℕ)) (g : Graph σ) (v : ℕ) : GenKill σ :=
  if v = g.finalNode then
    ⟨ir.finalLiveGen afterLowerAccess eliminableSNodes (g.nodes.flatMap Node.stmts), ∅⟩
  else ir.liveOfNode afterLowerAccess (g.stmts v)

end Live

end Ir

namespace Graph

variable {σ : Type}

def prev (g : Graph σ) (v : ℕ) : List ℕ :=
  g.edges.filterMap fun e => if e.2 = v then some e.1 else none

def Closed (g : Graph σ) : Prop :=
  ∀ e ∈ g.edges, e.1 < g.size ∧ e.2 < g.size

theorem mem_prev_iff {g : Graph σ} {u v : ℕ} : u ∈ g.prev v ↔ (u, v) ∈ g.edges := by
  rw [prev, List.mem_filterMap]
  constructor
  · rintro ⟨⟨a, b⟩, he, heq⟩
    obtain ⟨rfl, rfl⟩ : b = v ∧ a = u := by simpa using heq
    exact he
  · intro he
    exact ⟨(u, v), he, if_pos rfl⟩

variable [DecidableEq σ]

def reachingDefinition (ir : Ir σ) (afterLowerAccess : Bool) (g : Graph σ) (hg : g.Closed) :
    Problem ℕ σ where
  nodes := List.range g.size
  sources := g.prev
  targets := g.next
  gen v := (ir.reachGenKill afterLowerAccess g v).gen
  keep v stmt := !ir.killed (ir.reachGenKill afterLowerAccess g v).kill stmt
  mem_targets u v := mem_next.trans mem_prev_iff.symm
  closed u v hv := by
    rw [List.mem_range, List.mem_range]
    exact hg _ (mem_next.1 hv)

def liveVariable (ir : Ir σ) (afterLowerAccess : Bool) (eliminableSNodes : Option (Finset ℕ))
    (g : Graph σ) (hg : g.Closed) : Problem ℕ σ where
  nodes := (List.range g.size).reverse
  sources := g.next
  targets := g.prev
  gen v := (ir.liveGenKill afterLowerAccess eliminableSNodes g v).gen
  keep v ptr :=
    !ir.containVariable (ir.liveGenKill afterLowerAccess eliminableSNodes g v).kill ptr
  mem_targets u v := mem_prev_iff.trans mem_next.symm
  closed u v hv := by
    rw [List.mem_reverse, List.mem_reverse, List.mem_range, List.mem_range]
    exact (hg _ (mem_prev_iff.1 hv)).symm

end Graph

end Quadrants.Cfg

/-!
The worklist loops of the two analyses end with the least solutions of their equations, which hold
the stores that reach a node and the pointers that are loaded after it.
-/

namespace Quadrants.Cfg

open Quadrants.Library.Dataflow

variable {σ κ : Type} [DecidableEq σ] {ir : Ir σ} {afterLowerAccess : Bool}

namespace Ir

variable {stmt : σ} {ptr : σ} {stmts : List σ} {sets : GenKill σ}

def MustAlias (ir : Ir σ) (var w : σ) : Prop :=
  var = w ∨ ir.definitelySameAddress var w = true

theorem mustAlias_of_contains {varSet : Finset σ} {var : σ}
    (h : ir.containVariable varSet var = true) : ∃ w ∈ varSet, ir.MustAlias var w := by
  rw [containVariable] at h
  split at h
  · exact ⟨var, of_decide_eq_true h, Or.inl rfl⟩
  · rcases Bool.or_eq_true _ _ ▸ h with hmem | halias
    · exact ⟨var, of_decide_eq_true hmem, Or.inl rfl⟩
    · obtain ⟨w, hw, hsame⟩ := of_decide_eq_true halias
      exact ⟨w, hw, Or.inr hsame⟩

def Overwrites (ir : Ir σ) (stmts : List σ) (ptr : σ) : Prop :=
  ∃ stmt ∈ stmts, ∃ w ∈ ir.storeDestination stmt, ir.MustAlias ptr w

variable {earlier later ptrs : List σ} {w : σ}

theorem kill_addDefinition
    (h : w ∈ (ir.addDefinition afterLowerAccess stmt sets ptr).kill) : w ∈ sets.kill ∨ w = ptr := by
  rw [addDefinition] at h
  split at h
  · exact Or.inl h
  · split at h
    · exact Or.inl h
    · exact (Finset.mem_insert.1 h).symm

theorem kill_foldl_addDefinition
    (h : w ∈ (ptrs.foldl (ir.addDefinition afterLowerAccess stmt) sets).kill) :
    w ∈ sets.kill ∨ w ∈ ptrs := by
  induction ptrs generalizing sets with
  | nil => exact Or.inl h
  | cons ptr ptrs ih =>
    rcases ih h with hkill | hmem
    · rcases kill_addDefinition hkill with hkill | rfl
      · exact Or.inl hkill
      · exact Or.inr List.mem_cons_self
    · exact Or.inr (List.mem_cons_of_mem _ hmem)

theorem kill_reachingOfNode (h : w ∈ (ir.reachingOfNode afterLowerAccess stmts).kill) :
    ∃ stmt ∈ stmts, w ∈ ir.storeDestination stmt := by
  induction stmts with
  | nil => exact absurd h (Finset.notMem_empty w)
  | cons stmt later ih =>
    rcases kill_foldl_addDefinition h with hkill | hmem
    · obtain ⟨stmt', hstmt', hdest⟩ := ih hkill
      exact ⟨stmt', List.mem_cons_of_mem _ hstmt', hdest⟩
    · exact ⟨stmt, List.mem_cons_self, hmem⟩

theorem overwrites_of_contains
    (h : ir.containVariable (ir.reachingOfNode afterLowerAccess stmts).kill ptr = true) :
    ir.Overwrites stmts ptr := by
  obtain ⟨w, hw, halias⟩ := mustAlias_of_contains h
  obtain ⟨stmt, hstmt, hdest⟩ := kill_reachingOfNode hw
  exact ⟨stmt, hstmt, w, hdest, halias⟩

theorem gen_addDefinition : sets.gen ⊆ (ir.addDefinition afterLowerAccess stmt sets ptr).gen := by
  rw [addDefinition]
  split
  · exact Finset.Subset.refl _
  · split
    · exact Finset.Subset.refl _
    · exact Finset.subset_insert _ _

theorem gen_foldl_addDefinition (ptrs : List σ) :
    sets.gen ⊆ (ptrs.foldl (ir.addDefinition afterLowerAccess stmt) sets).gen := by
  induction ptrs generalizing sets with
  | nil => exact Finset.Subset.refl _
  | cons ptr ptrs ih => exact gen_addDefinition.trans ih

theorem mem_gen_foldl (hptr : ptr ∈ ptrs) (hsource : ir.isDataSource afterLowerAccess ptr = true)
    (hkill : ir.containVariable sets.kill ptr = false) :
    stmt ∈ (ptrs.foldl (ir.addDefinition afterLowerAccess stmt) sets).gen := by
  induction ptrs generalizing sets with
  | nil => exact absurd hptr List.not_mem_nil
  | cons first ptrs ih =>
    rw [List.foldl_cons]
    by_cases hsame : ir.addDefinition afterLowerAccess stmt sets first = sets
    · rw [hsame]
      refine ih ((List.mem_cons.1 hptr).resolve_left ?_) hkill
      rintro rfl
      rw [addDefinition, hsource, hkill] at hsame
      have hgen := congrArg GenKill.kill hsame
      have hmem : ptr ∈ sets.kill := by
        rw [← hgen]
        exact Finset.mem_insert_self _ _
      rw [containVariable] at hkill
      simp [hmem] at hkill
    · apply gen_foldl_addDefinition
      rw [addDefinition] at hsame ⊢
      split
      · next h => exact absurd (if_pos h) hsame
      · next h =>
          split
          · next h' => exact absurd ((if_neg h).trans (if_pos h')) hsame
          · exact Finset.mem_insert_self _ _

theorem mem_gen_reachingOfNode (hptr : ptr ∈ ir.storeDestination stmt)
    (hsource : ir.isDataSource afterLowerAccess ptr = true) (hlater : ¬ir.Overwrites later ptr) :
    stmt ∈ (ir.reachingOfNode afterLowerAccess (earlier ++ stmt :: later)).gen := by
  induction earlier with
  | nil => exact mem_gen_foldl hptr hsource (Bool.eq_false_iff.2 (mt overwrites_of_contains hlater))
  | cons first earlier ih => exact gen_foldl_addDefinition _ ih

theorem not_killed (hptr : ptr ∈ ir.storeDestination stmt) (h : ¬ir.Overwrites stmts ptr) :
    ir.killed (ir.reachingOfNode afterLowerAccess stmts).kill stmt = false := by
  rw [Bool.eq_false_iff]
  intro hkilled
  apply h
  rw [killed] at hkilled
  split at hkilled
  · next heq => exact absurd (heq ▸ hptr) List.not_mem_nil
  · exact overwrites_of_contains (List.all_eq_true.1 hkilled ptr hptr)

/-- The pointers that a statement loads from, with the ones that they are parts of. -/
def Loads (ir : Ir σ) (stmt ptr : σ) : Prop :=
  ptr ∈ ir.includeAliasedStmts (ir.loadPointers stmt)

def LiveOverwrites (ir : Ir σ) (stmts : List σ) (ptr : σ) : Prop :=
  ∃ stmt ∈ stmts, ∃ w ∈ ir.storePtrs stmt, ir.MustAlias ptr w

theorem kill_foldl_addLoad (ptrs : List σ) (sets : GenKill σ) :
    (ptrs.foldl (ir.addLoad afterLowerAccess) sets).kill = sets.kill := by
  induction ptrs generalizing sets with
  | nil => rfl
  | cons ptr ptrs ih =>
    rw [List.foldl_cons, ih, addLoad]
    split <;> rfl

theorem kill_foldl_addStore
    (h : w ∈ (ptrs.foldl (ir.addStore afterLowerAccess) sets).kill) : w ∈ sets.kill ∨ w ∈ ptrs := by
  induction ptrs generalizing sets with
  | nil => exact Or.inl h
  | cons ptr ptrs ih =>
    rcases ih h with hkill | hmem
    · rw [addStore] at hkill
      split at hkill
      · rcases Finset.mem_insert.1 hkill with rfl | hkill
        · exact Or.inr List.mem_cons_self
        · exact Or.inl hkill
      · exact Or.inl hkill
    · exact Or.inr (List.mem_cons_of_mem _ hmem)

theorem kill_foldl_visitLive (h : w ∈ (stmts.foldl (ir.visitLive afterLowerAccess) sets).kill) :
    w ∈ sets.kill ∨ ∃ stmt ∈ stmts, w ∈ ir.storePtrs stmt := by
  induction stmts generalizing sets with
  | nil => exact Or.inl h
  | cons stmt stmts ih =>
    rcases ih h with hkill | ⟨stmt', hmem, hstore⟩
    · rcases kill_foldl_addStore hkill with hkill | hmem
      · rw [kill_foldl_addLoad] at hkill
        exact Or.inl hkill
      · exact Or.inr ⟨stmt, List.mem_cons_self, hmem⟩
    · exact Or.inr ⟨stmt', List.mem_cons_of_mem _ hmem, hstore⟩

theorem liveOverwrites_of_contains
    (h : ir.containVariable (ir.liveOfNode afterLowerAccess stmts).kill ptr = true) :
    ir.LiveOverwrites stmts ptr := by
  obtain ⟨w, hw, halias⟩ := mustAlias_of_contains h
  rcases kill_foldl_visitLive hw with hnone | ⟨stmt, hstmt, hstore⟩
  · exact absurd hnone (Finset.notMem_empty w)
  · exact ⟨stmt, hstmt, w, hstore, halias⟩

theorem gen_foldl_addLoad (ptrs : List σ) :
    sets.gen ⊆ (ptrs.foldl (ir.addLoad afterLowerAccess) sets).gen := by
  induction ptrs generalizing sets with
  | nil => exact Finset.Subset.refl _
  | cons ptr ptrs ih =>
    refine Finset.Subset.trans ?_ ih
    rw [addLoad]
    split
    · exact Finset.subset_insert _ _
    · exact Finset.Subset.refl _

theorem gen_foldl_addStore (ptrs : List σ) (sets : GenKill σ) :
    (ptrs.foldl (ir.addStore afterLowerAccess) sets).gen = sets.gen := by
  induction ptrs generalizing sets with
  | nil => rfl
  | cons ptr ptrs ih =>
    rw [List.foldl_cons, ih, addStore]
    split <;> rfl

theorem gen_foldl_visitLive (stmts : List σ) :
    sets.gen ⊆ (stmts.foldl (ir.visitLive afterLowerAccess) sets).gen := by
  induction stmts generalizing sets with
  | nil => exact Finset.Subset.refl _
  | cons stmt stmts ih =>
    refine Finset.Subset.trans ?_ ih
    rw [visitLive, gen_foldl_addStore]
    exact gen_foldl_addLoad _

theorem mem_gen_foldl_addLoad (hptr : ptr ∈ ptrs)
    (hsource : ir.isLiveSource afterLowerAccess ptr = true)
    (hkill : ir.containVariable sets.kill ptr = false) :
    ptr ∈ (ptrs.foldl (ir.addLoad afterLowerAccess) sets).gen := by
  induction ptrs generalizing sets with
  | nil => exact absurd hptr List.not_mem_nil
  | cons first ptrs ih =>
    rw [List.foldl_cons]
    rcases List.mem_cons.1 hptr with rfl | hmem
    · apply gen_foldl_addLoad
      rw [addLoad, hsource, hkill]
      exact Finset.mem_insert_self _ _
    · have hsame : (ir.addLoad afterLowerAccess sets first).kill = sets.kill :=
        kill_foldl_addLoad [first] sets
      exact ih hmem (hsame ▸ hkill)

theorem mem_gen_liveOfNode (hload : ir.Loads stmt ptr)
    (hsource : ir.isLiveSource afterLowerAccess ptr = true)
    (hearlier : ¬ir.LiveOverwrites earlier ptr) :
    ptr ∈ (ir.liveOfNode afterLowerAccess (earlier ++ stmt :: later)).gen := by
  rw [liveOfNode, List.foldl_append, List.foldl_cons]
  apply gen_foldl_visitLive
  rw [visitLive, gen_foldl_addStore]
  refine mem_gen_foldl_addLoad hload hsource ?_
  rw [Bool.eq_false_iff]
  exact mt liveOverwrites_of_contains hearlier

end Ir

namespace Graph

variable {g : Graph σ}

inductive PathThrough (g : Graph σ) (inner : ℕ → Prop) (u : ℕ) : ℕ → Prop
  | edge {v : ℕ} : v ∈ g.next u → PathThrough g inner u v
  | step {v w : ℕ} : PathThrough g inner u v → inner v → w ∈ g.next v → PathThrough g inner u w

/-- The store reaches the entry of the node on a path without a store that must alias one of its
destinations. -/
def StoreReaches (ir : Ir σ) (afterLowerAccess : Bool) (g : Graph σ) (stmt : σ) (v : ℕ) : Prop :=
  ∃ u earlier later ptr, g.stmts u = earlier ++ stmt :: later ∧
    ptr ∈ ir.storeDestination stmt ∧ ir.isDataSource afterLowerAccess ptr = true ∧
    ¬ir.Overwrites later ptr ∧ g.PathThrough (fun w => ¬ir.Overwrites (g.stmts w) ptr) u v

/-- The pointer is loaded on a path from the exit of the node, before a store that must alias
it. -/
def LoadedAfter (ir : Ir σ) (afterLowerAccess : Bool) (g : Graph σ) (ptr : σ) (v : ℕ) : Prop :=
  ∃ u earlier stmt later, g.stmts u = earlier ++ stmt :: later ∧
    ir.Loads stmt ptr ∧ ir.isLiveSource afterLowerAccess ptr = true ∧
    ¬ir.LiveOverwrites earlier ptr ∧
    g.PathThrough (fun w => ¬ir.LiveOverwrites (g.stmts w) ptr) v u

variable {v : ℕ}

theorem flows_of_storeReaches (hg : g.Closed) (hstart : g.stmts 0 = []) {stmt : σ}
    (h : g.StoreReaches ir afterLowerAccess stmt v) :
    ∃ w ∈ g.prev v, (g.reachingDefinition ir afterLowerAccess hg).Flows stmt w := by
  obtain ⟨u, earlier, later, ptr, hstmts, hptr, hsource, hlater, hpath⟩ := h
  have hu : (g.reachingDefinition ir afterLowerAccess hg).Flows stmt u := by
    apply Problem.Flows.gen
    have hne : u ≠ 0 := by
      rintro rfl
      rw [hstart] at hstmts
      exact absurd hstmts.symm (List.append_ne_nil_of_right_ne_nil _ (List.cons_ne_nil _ _))
    change stmt ∈ (ir.reachGenKill afterLowerAccess g u).gen
    rw [Ir.reachGenKill, if_neg hne, hstmts]
    exact Ir.mem_gen_reachingOfNode hptr hsource hlater
  induction hpath with
  | edge hedge => exact ⟨u, mem_prev_iff.2 (mem_next.1 hedge), hu⟩
  | @step v w _ hinner hedge ih =>
    obtain ⟨w', hprev, hflows⟩ := ih
    refine ⟨v, mem_prev_iff.2 (mem_next.1 hedge), .keep hflows hprev ?_⟩
    change (!ir.killed (ir.reachGenKill afterLowerAccess g v).kill stmt) = true
    rw [Bool.not_eq_true', Ir.reachGenKill]
    split
    · exact @Ir.not_killed σ _ ir afterLowerAccess stmt ptr [] hptr
        fun ⟨_, hmem, _⟩ => absurd hmem List.not_mem_nil
    · exact Ir.not_killed hptr hinner

theorem flows_of_loadedAfter {eliminableSNodes : Option (Finset ℕ)} (hg : g.Closed)
    (hfinal : g.stmts g.finalNode = []) {ptr : σ}
    (h : g.LoadedAfter ir afterLowerAccess ptr v) : ∃ w ∈ g.next v,
      (g.liveVariable ir afterLowerAccess eliminableSNodes hg).Flows ptr w := by
  obtain ⟨u, earlier, stmt, later, hstmts, hload, hsource, hearlier, hpath⟩ := h
  have hu : (g.liveVariable ir afterLowerAccess eliminableSNodes hg).Flows ptr u := by
    apply Problem.Flows.gen
    have hne : u ≠ g.finalNode := by
      rintro rfl
      rw [hfinal] at hstmts
      exact absurd hstmts.symm (List.append_ne_nil_of_right_ne_nil _ (List.cons_ne_nil _ _))
    change ptr ∈ (ir.liveGenKill afterLowerAccess eliminableSNodes g u).gen
    rw [Ir.liveGenKill, if_neg hne, hstmts]
    exact Ir.mem_gen_liveOfNode hload hsource hearlier
  clear hstmts
  induction hpath with
  | edge hedge => exact ⟨_, hedge, hu⟩
  | @step v' w _ hinner hedge ih =>
    refine ih (.keep hu hedge ?_)
    change (!ir.containVariable
      (ir.liveGenKill afterLowerAccess eliminableSNodes g v').kill ptr) = true
    rw [Bool.not_eq_true', Bool.eq_false_iff, Ir.liveGenKill]
    intro hcontains
    split at hcontains
    · obtain ⟨w, hmem, -⟩ := Ir.mustAlias_of_contains hcontains
      exact absurd hmem (Finset.notMem_empty w)
    · exact hinner (Ir.liveOverwrites_of_contains hcontains)

omit [DecidableEq σ] in
theorem build_closed (root : List (TopStmt σ κ)) : (build root).Closed := by
  obtain ⟨-, loops, hr⟩ := build_region root
  exact fun e he => ⟨(hr.edge e he).1, (hr.edge e he).2.2.1⟩

omit [DecidableEq σ] in
theorem stmts_finalNode (root : List (TopStmt σ κ)) :
    (build root).stmts (build root).finalNode = [] := by
  unfold build
  dsimp only
  split
  · next hempty => exact List.isEmpty_iff.1 hempty
  · simp [stmts, size]

end Graph

end Quadrants.Cfg
