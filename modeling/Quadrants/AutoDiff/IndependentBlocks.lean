import Mathlib.Data.List.Dedup
import Mathlib.Data.List.Sort
import Quadrants.Library.BlockTree

/-!
`identify_independent_blocks`: the blocks for which reverse-mode code is made. A block is referred
to by the way that leads to it from the kernel.
-/

namespace Quadrants.AutoDiff.IndependentBlocks

open Library.BlockTree List

inductive LocalPtr
  | alloca (home : Path)
  | matrixPtr (home : Path) (origin : LocalPtr)
deriving DecidableEq, Repr

def LocalPtr.home : LocalPtr → Path
  | .alloca home => home
  | .matrixPtr home _ => home

def LocalPtr.allocaHome : LocalPtr → Path
  | .alloca home => home
  | .matrixPtr _ origin => origin.allocaHome

inductive GlobalPtr
  | globalPtr (hasAdjoint : Bool)
  | externalPtr (hasGrad : Bool)
  | matrixPtr (origin : GlobalPtr)
deriving DecidableEq, Repr

def GlobalPtr.hasAdjoint : GlobalPtr → Bool
  | .globalPtr hasAdjoint => hasAdjoint
  | .externalPtr hasGrad => hasGrad
  | .matrixPtr (.globalPtr hasAdjoint) => hasAdjoint
  | .matrixPtr (.externalPtr hasGrad) => hasGrad
  | .matrixPtr (.matrixPtr _) => false

inductive Access
  | localLoad (src : LocalPtr)
  | localStore (dest : LocalPtr)
  | globalLoad (src : GlobalPtr)
  | globalStore (dest : GlobalPtr)
  | atomicOp (dest : GlobalPtr)
  | other
deriving DecidableEq, Repr

structure Judger where
  touchedAllocas : List Path := []
  qualifiedGlbOperations : Bool := false
  innerMostLoop : Bool := true
  isInsideLoop : Bool := false

def Judger.visitGlobal (j : Judger) (ptr : GlobalPtr) : Judger :=
  if j.isInsideLoop then j
  else if ptr.hasAdjoint then { j with qualifiedGlbOperations := true }
  else j

def Judger.visit (j : Judger) : Event Access → Judger
  | .leaf _ (.localLoad src) => { j with touchedAllocas := src.home :: j.touchedAllocas }
  | .leaf _ (.localStore dest) => { j with touchedAllocas := dest.home :: j.touchedAllocas }
  | .leaf _ (.atomicOp dest) => j.visitGlobal dest
  | .leaf _ (.globalLoad src) => j.visitGlobal src
  | .leaf _ (.globalStore _) => j
  | .leaf _ .other => j
  | .enterLoop _ => { j with innerMostLoop := false, isInsideLoop := true }
  | .leaveLoop => { j with isInsideLoop := false }

structure IndependentBlockMetaData where
  isIb : Bool
  isSmallestIb : Bool
deriving DecidableEq, Repr

def judge (path : Path) (block : List (Stmt Access)) : IndependentBlockMetaData :=
  let judger := (visitFrom path 0 block).foldl Judger.visit {}
  let isIb := !judger.touchedAllocas.any fun home => decide (home <+: path ∧ home ≠ path)
  ⟨isIb, isIb && (judger.qualifiedGlbOperations || judger.innerMostLoop)⟩

def metaData (path : Path) (block : List (Stmt Access)) : IndependentBlockMetaData :=
  if block.isEmpty then ⟨true, true⟩ else judge path block

mutual

/-- `IdentifyIndependentBlocks`, at the statement `index` of the block at `path`; for a loop this is
`visit_loop_body`. -/
def identifyStmt (depth : ℕ) (path : Path) (index : ℕ) : Stmt Access → List (ℕ × Path)
  | .leaf _ => []
  | .ifStmt trueStatements falseStatements =>
    identifyFrom depth (path ++ [⟨index, .trueStatements⟩]) 0 trueStatements ++
      identifyFrom depth (path ++ [⟨index, .falseStatements⟩]) 0 falseStatements
  | .loop body =>
    let inner := path ++ [⟨index, .body⟩]
    let ibMetaData := metaData inner body
    if ibMetaData.isSmallestIb then [(depth + 1, inner)]
    else if ibMetaData.isIb then identifyFrom (depth + 1) inner 0 body
    else if depth + 1 ≤ 1 then [(depth, inner)]
    else [(depth, path)]

def identifyFrom (depth : ℕ) (path : Path) (index : ℕ) : List (Stmt Access) → List (ℕ × Path)
  | [] => []
  | s :: rest => identifyStmt depth path index s ++ identifyFrom depth path (index + 1) rest

end

def isFor : Stmt Access → Bool
  | .loop _ => true
  | _ => false

def childrenIb (root : List (Stmt Access)) (p : Path) : List Path :=
  match blockAt root p with
  | some block => (visitFrom p 0 block).filterMap fun
      | .enterLoop body => some body
      | _ => none
  | none => []

def cleanIbs (root : List (Stmt Access)) (blocks : List Path) : List Path :=
  if blocks.length > 1 then
    blocks.foldl (fun cleaned p =>
      if p ∈ cleaned then cleaned.filter fun q => q ∉ childrenIb root p else cleaned) blocks
  else blocks

def identifyIndependentBlocks (address : Path → ℕ) (root : List (Stmt Access)) : List Path :=
  let independentBlocks :=
    if root.any isFor then identifyFrom 0 [] 0 root else [(0, [])]
  let sorted := independentBlocks.insertionSort fun a b => a.1 ≤ b.1
  cleanIbs root ((sorted.map Prod.snd).dedup.insertionSort fun p q => address p ≤ address q)

section Kernels

def Access.localPtr : Access → Option LocalPtr
  | .localLoad src => some src
  | .localStore dest => some dest
  | _ => none

def Access.onAdjoint : Access → Bool
  | .globalLoad src => src.hasAdjoint
  | .globalStore dest => dest.hasAdjoint
  | .atomicOp dest => dest.hasAdjoint
  | _ => false

def LocalPtr.Scoped : LocalPtr → Path → Prop
  | .alloca home, loc => home <+: loc
  | .matrixPtr home origin, loc => home <+: loc ∧ origin.Scoped home

structure Kernel where
  root : List (Stmt Access)
  hasFor : root.any isFor = true
  pointers_scoped : ∀ loc a ptr, LeafAt root loc a → a.localPtr = some ptr → ptr.Scoped loc

def TopLevel (p : Path) : Prop :=
  p = [] ∨ IsBody p ∧ loopDepth p = 1

def TouchesOutside (root : List (Stmt Access)) (p : Path) : Prop :=
  ∃ loc a ptr, p <+: loc ∧ LeafAt root loc a ∧ a.localPtr = some ptr ∧ ¬ p <+: ptr.allocaHome

structure CoversOnce (root : List (Stmt Access)) (ibs : List Path) : Prop where
  nonempty : ibs ≠ []
  notNested : ∀ p ∈ ibs, ∀ q ∈ ibs, p <+: q → p = q
  independent : ∀ p ∈ ibs, ¬ TopLevel p → ¬ TouchesOutside root p
  once : ∀ loc a, LeafAt root loc a → a.onAdjoint = true → 0 < loopDepth loc →
    ∃! p, p ∈ ibs ∧ p <+: loc

variable (root : List (Stmt Access))

def Smallest (p : Path) : Prop :=
  ∃ block, blockAt root p = some block ∧ (metaData p block).isSmallestIb = true

def NotIb (p : Path) : Prop :=
  ∃ block, blockAt root p = some block ∧ (metaData p block).isIb = false

/-- The block is judged to be independent, and its loops are looked at in turn. -/
def Open (p : Path) : Prop :=
  ∃ block, blockAt root p = some block ∧ (metaData p block).isSmallestIb = false ∧
    (metaData p block).isIb = true

structure Reached (p : Path) : Prop where
  isBody : IsBody p
  exists_block : ∃ block, blockAt root p = some block
  around : ∀ q, q <+: p → q ≠ p → IsBody q → Open root q

/-- The block has a loop that is reached, not at the top level, and whose body is not
independent. -/
def Widened (p : Path) : Prop :=
  ∃ index, Reached root (p ++ [⟨index, .body⟩]) ∧ NotIb root (p ++ [⟨index, .body⟩]) ∧
    0 < loopDepth p

/-- What the walk and the judge leave to chance: branches of ifs that are taken for blocks, matrix
pointers into the outside, and stores that are at the level of an open body. -/
structure WellShaped : Prop where
  nested : ∀ p q, Widened root p → Widened root q → p <+: q → p ≠ q → IsBody q
  bodies : ∀ p, IsBody p → 1 < loopDepth p → Reached root p ∧ Smallest root p ∨ Widened root p →
    (∀ q, Widened root q → q <+: p → q = p) →
      ∀ loc a home origin, p <+: loc → LeafAt root loc a →
        a.localPtr = some (.matrixPtr home origin) → p <+: home → p <+: origin.allocaHome
  branches : ∀ p, Widened root p → ¬ IsBody p → ¬ TouchesOutside root p
  stores : ∀ loc dest, LeafAt root loc (.globalStore dest) → dest.hasAdjoint = true →
    0 < loopDepth loc → (∀ q, q <+: loc → IsBody q → Open root q) →
      ∃ p, Widened root p ∧ p <+: loc

end Kernels

section Judging

variable {path : Path} {block : List (Stmt Access)}

@[simp] theorem Judger.visitGlobal_touchedAllocas (j : Judger) (ptr : GlobalPtr) :
    (j.visitGlobal ptr).touchedAllocas = j.touchedAllocas := by
  rw [Judger.visitGlobal]
  split_ifs <;> rfl

@[simp] theorem Judger.visitGlobal_innerMostLoop (j : Judger) (ptr : GlobalPtr) :
    (j.visitGlobal ptr).innerMostLoop = j.innerMostLoop := by
  rw [Judger.visitGlobal]
  split_ifs <;> rfl

@[simp] theorem Judger.visitGlobal_isInsideLoop (j : Judger) (ptr : GlobalPtr) :
    (j.visitGlobal ptr).isInsideLoop = j.isInsideLoop := by
  rw [Judger.visitGlobal]
  split_ifs <;> rfl

variable {es : List (Event Access)} {j : Judger}

theorem Judger.visitGlobal_qualified (h : j.qualifiedGlbOperations = true)
    (ptr : GlobalPtr) : (j.visitGlobal ptr).qualifiedGlbOperations = true := by
  rw [Judger.visitGlobal]
  split_ifs <;> first | exact h | rfl

theorem mem_touchedAllocas {home : Path} : home ∈ (es.foldl Judger.visit j).touchedAllocas ↔
      home ∈ j.touchedAllocas ∨
        ∃ loc a ptr, .leaf loc a ∈ es ∧ a.localPtr = some ptr ∧ ptr.home = home := by
  induction es generalizing j with
  | nil => simp
  | cons e es ih =>
    have hvisit : home ∈ (j.visit e).touchedAllocas ↔ home ∈ j.touchedAllocas ∨
        ∃ loc a ptr, .leaf loc a = e ∧ a.localPtr = some ptr ∧ ptr.home = home := by
      rcases e with ⟨loc, a⟩ | body | _
      · cases a <;> simp [Judger.visit, Access.localPtr, or_comm, @eq_comm _ home]
      · simp [Judger.visit]
      · simp [Judger.visit]
    rw [foldl_cons, ih, hvisit, or_assoc]
    simp [or_and_right, exists_or]

theorem judge_isIb : (judge path block).isIb = true ↔
    ∀ rest a ptr, LeafAt block rest a → a.localPtr = some ptr →
      ptr.home <+: path → ptr.home = path := by
  simp only [judge, Bool.not_eq_true', any_eq_false, decide_eq_true_eq, not_and, not_not,
    mem_touchedAllocas, not_mem_nil, false_or, leaf_mem_visit]
  constructor
  · intro h rest a ptr hat hptr
    exact h ptr.home ⟨path ++ rest, a, ptr, ⟨rest, rfl, hat⟩, hptr, rfl⟩
  · rintro h home ⟨loc, a, ptr, ⟨rest, rfl, hat⟩, hptr, rfl⟩
    exact h rest a ptr hat hptr

theorem innerMostLoop_eq_false (h : (es.foldl Judger.visit j).innerMostLoop = false) :
    j.innerMostLoop = false ∨ ∃ body, .enterLoop body ∈ es := by
  induction es generalizing j with
  | nil => exact Or.inl h
  | cons e es ih =>
    rcases ih h with h | ⟨body, hbody⟩
    · rcases e with ⟨loc, a⟩ | body | _
      · refine Or.inl ?_
        cases a <;> simpa [Judger.visit] using h
      · exact Or.inr ⟨body, mem_cons_self⟩
      · exact Or.inl h
    · exact Or.inr ⟨body, mem_cons_of_mem _ hbody⟩

theorem qualified_mono (es : List (Event Access)) (h : j.qualifiedGlbOperations = true) :
    (es.foldl Judger.visit j).qualifiedGlbOperations = true := by
  induction es generalizing j with
  | nil => exact h
  | cons e es ih =>
    refine ih ?_
    rcases e with ⟨loc, a⟩ | body | _
    · cases a <;> first | exact h | exact Judger.visitGlobal_qualified h _
    · exact h
    · exact h

mutual

theorem visit_outsideLoop {j : Judger} (path : Path) (index : ℕ) (h : j.isInsideLoop = false) :
    (s : Stmt Access) → ((s.visit path index).foldl Judger.visit j).isInsideLoop = false
  | .leaf a => by
    cases a <;> simpa [Stmt.visit, Judger.visit] using h
  | .ifStmt trueStatements falseStatements => by
    rw [Stmt.visit, foldl_append]
    exact visitFrom_outsideLoop _ _ (visitFrom_outsideLoop _ _ h trueStatements) falseStatements
  | .loop body => by
    rw [Stmt.visit, foldl_cons, foldl_append]
    rfl

theorem visitFrom_outsideLoop {j : Judger} (path : Path) (index : ℕ)
    (h : j.isInsideLoop = false) : (block : List (Stmt Access)) →
    ((visitFrom path index block).foldl Judger.visit j).isInsideLoop = false
  | [] => h
  | s :: rest => by
    rw [visitFrom, foldl_append]
    exact visitFrom_outsideLoop _ _ (visit_outsideLoop _ _ h s) rest

end

theorem qualified_of_level (path : Path) {rest : Path} {a : Access} {ptr : GlobalPtr}
    (ha : a = .globalLoad ptr ∨ a = .atomicOp ptr) (hptr : ptr.hasAdjoint = true)
    (hat : LeafAt block rest a) (hrest : loopDepth rest = 0) (index : ℕ)
    (hj : j.isInsideLoop = false) :
    ((visitFrom path index block).foldl Judger.visit j).qualifiedGlbOperations = true := by
  induction rest generalizing block path index j with
  | nil =>
    obtain ⟨before, after, rfl⟩ := append_of_mem (leafAt_nil.1 hat)
    rw [visitFrom_append, visitFrom, Stmt.visit, foldl_append, foldl_append]
    refine qualified_mono _ ?_
    have houtside := visitFrom_outsideLoop path index hj before
    rcases ha with rfl | rfl <;>
      simp [Judger.visit, Judger.visitGlobal, houtside, hptr]
  | cons step rest ih =>
    obtain ⟨inner, hchild, hat⟩ := leafAt_cons.1 hat
    obtain ⟨s, hs, hpart⟩ := Option.bind_eq_some_iff.1 hchild
    have hdepth : loopDepth ([step] ++ rest) = 0 := hrest
    rw [loopDepth_append, loopDepth_singleton] at hdepth
    obtain ⟨before, after, rfl⟩ := append_of_mem (mem_of_getElem? hs)
    rw [visitFrom_append, visitFrom, foldl_append, foldl_append]
    refine qualified_mono _ ?_
    have houtside := visitFrom_outsideLoop path index hj before
    obtain ⟨i, branch⟩ := step
    cases s with
    | leaf b => cases branch <;> exact absurd hpart nofun
    | ifStmt trueStatements falseStatements =>
      rw [Stmt.visit, foldl_append]
      cases branch with
      | trueStatements =>
        obtain rfl := Option.some.inj hpart
        exact qualified_mono _ (ih _ hat (by omega) 0 houtside)
      | falseStatements =>
        obtain rfl := Option.some.inj hpart
        exact ih _ hat (by omega) 0 (visitFrom_outsideLoop _ _ houtside trueStatements)
      | body => exact absurd hpart nofun
    | loop body =>
      cases branch with
      | body => exact absurd hdepth (by simp)
      | trueStatements => exact absurd hpart nofun
      | falseStatements => exact absurd hpart nofun

end Judging

end Quadrants.AutoDiff.IndependentBlocks
