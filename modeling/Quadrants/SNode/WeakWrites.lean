import Quadrants.SNode.FlagAccess
import Mathlib.Data.List.TakeWhile

/-!
Which writes `flag_access` keeps: those through pointers to the element of the loop, and those that
it has flagged.
-/

namespace Quadrants.WeakAccess

open Library.SsaBlocks Library.TracedLoops Addressing List

section Addresses

theorem totalShape_eq_prod (snodes : List SNode) (a : Axis) :
    totalShape snodes a = (snodes.map fun s => (s.extractors a).shape).prod := by
  rw [prod_eq_foldl, foldl_map]
  rfl

theorem runLevels_take (indices : List (Axis × ℕ)) (above : Option SNodeType) (n : ℕ)
    (levels : List SNode) (state : Extraction) :
    (runLevels false indices above levels state).take n =
      runLevels false indices above (levels.take n) state := by
  induction levels generalizing n above state with
  | nil => simp [runLevels]
  | cons snode rest ih =>
    cases n with
    | zero => simp [runLevels]
    | succ n => simp [runLevels, ih]

theorem length_runLevels (indices : List (Axis × ℕ)) (above : Option SNodeType)
    (levels : List SNode) (state : Extraction) :
    (runLevels false indices above levels state).length = levels.length := by
  induction levels generalizing above state with
  | nil => simp [runLevels]
  | cons snode rest ih => simp [runLevels, ih]

variable (forest : Forest) {active : List (ℕ × ℕ) → Prop}

def start (snode : Chain) : Extraction :=
  ⟨totalShape (snode.map forest).reverse, fun _ => true⟩

def levelCells (axes : List Axis) (state : Extraction) (levels : Chain) (indices : List ℕ) :
    List (ℕ × ℕ) :=
  levels.zip ((runLevels false (axes.zip indices) none (levels.map forest) state).map Prod.snd)

theorem run_cell (snode : Chain) (indices : List ℕ) :
    Addressing.run (snode.map forest) indices true false =
      runLevels false ((axesOf forest snode).zip indices) none (snode.reverse.map forest)
        (start forest snode) := by
  cases snode with
  | nil => rfl
  | cons s rest =>
    have hlevels : ((List.map forest rest).reverse ++ [forest s]).take (rest.length + 1) =
        (List.map forest rest).reverse ++ [forest s] := take_of_length_le (by simp)
    simp [Addressing.run, axesOf, start, map_reverse, hlevels]

theorem run_pointer (snode : Chain) (indices : List ℕ) :
    Addressing.run (snode.map forest) indices false false =
      runLevels false ((axesOf forest snode.tail).zip indices) none (snode.tail.reverse.map forest)
        (start forest snode) := by
  cases snode with
  | nil => rfl
  | cons s rest =>
    cases rest with
    | nil => rfl
    | cons t rest =>
      have hlevels : ((List.map forest rest).reverse ++ [forest t, forest s]).take
          (rest.length + 1) = (List.map forest rest).reverse ++ [forest t] := by
        rw [append_cons, take_left' (by simp)]
      simp [Addressing.run, axesOf, start, map_reverse, hlevels]

variable {loop : Loop} {n : ℕ}

theorem take_cells (axes : List Axis) (state : Extraction) {chain levels : Chain}
    (h : levels.take n = chain.take n) (indices : List ℕ) :
    (chain.zip ((runLevels false (axes.zip indices) none (levels.map forest) state).map
      Prod.snd)).take n = levelCells forest axes state (chain.take n) indices := by
  rw [List.zip, take_zipWith, ← map_take, runLevels_take, ← map_take, h]
  rfl

variable {snode : Chain}

theorem start_eq
    (hsparsity : leastSparseAncestor forest snode = leastSparseAncestor forest loop.snode)
    (hshape : ∀ a, shapeBelow forest snode a = shapeBelow forest loop.snode a) :
    start forest snode = start forest loop.snode := by
  have hsplit (chain : Chain) (a : Axis) : totalShape (chain.map forest).reverse a =
      shapeBelow forest chain a * totalShape ((leastSparseAncestor forest chain).map forest) a := by
    simp only [shapeBelow, totalShape_eq_prod, leastSparseAncestor, map_reverse, prod_reverse]
    rw [← prod_append, ← map_append, ← map_append, takeWhile_append_dropWhile]
  rw [start, start, Extraction.mk.injEq]
  refine ⟨funext fun a => ?_, rfl⟩
  rw [hsplit, hsplit, hsparsity, hshape]

theorem not_needActivation {type : SNodeType} (h : isDenseLike type = true) :
    type.needActivation = false := by
  cases type <;> simp_all [isDenseLike, SNodeType.needActivation]

theorem take_reverse (snode : Chain) (hn : n ≤ (leastSparseAncestor forest snode).length) :
    snode.reverse.take n = (leastSparseAncestor forest snode).reverse.take n := by
  have hsplit : snode.reverse = (leastSparseAncestor forest snode).reverse ++
      (snode.takeWhile fun s => isDenseLike (forest s).type).reverse := by
    rw [← reverse_append, leastSparseAncestor, takeWhile_append_dropWhile]
  rw [hsplit, take_append_of_le_length (by rwa [length_reverse])]

theorem lt_of_needActivation {numbers : List ℕ} {above : List (ℕ × ℕ)}
    {cell : ℕ × ℕ} (h : above ++ [cell] <+: snode.reverse.zip numbers)
    (hneed : (forest cell.1).type.needActivation = true) :
    above.length < (leastSparseAncestor forest snode).length := by
  by_contra hle
  have hcell : (snode.reverse.zip numbers)[above.length]? = some cell := by
    obtain ⟨rest, hrest⟩ := h
    rw [← hrest]
    simp
  have hnode : snode.reverse[above.length]? = some cell.1 :=
    (List.getElem?_zip_eq_some.1 hcell).1
  have hsplit : snode.reverse = (leastSparseAncestor forest snode).reverse ++
      (snode.takeWhile fun s => isDenseLike (forest s).type).reverse := by
    rw [← reverse_append, leastSparseAncestor, takeWhile_append_dropWhile]
  rw [hsplit, List.getElem?_append_right (by rw [length_reverse]; omega)] at hnode
  have hmem := mem_reverse.1 (mem_of_getElem? hnode)
  have hdense := @mem_takeWhile_imp _ (fun s => isDenseLike (forest s).type) _ _ hmem
  rw [not_needActivation hdense] at hneed
  contradiction

theorem addressActive_of_element {task : Task}
    {indices : List ℕ} (h : OwnElement forest task loop snode indices) {values : List ℤ}
    (helement : ElementActive forest active loop.snode values) :
    AddressActive forest active snode values := by
  obtain ⟨coordinates, rfl, -, hactive⟩ := helement
  intro above cell hprefix hneed
  have hvalues : (coordinates.map Int.ofNat).map Int.toNat = coordinates := by
    rw [map_map]
    exact map_id'' (fun _ => rfl) coordinates
  rw [hvalues, cells, run_pointer] at hprefix
  have hlt := lt_of_needActivation forest hprefix hneed
  have hlength := hprefix.length_le
  rw [length_append, length_zip, length_map, length_runLevels, length_map,
    length_reverse] at hlength
  -- the levels of both begin with those of the least sparse ancestor
  have hlevels : snode.tail.reverse.take (above.length + 1) =
      snode.reverse.take (above.length + 1) := by
    cases snode with
    | nil => rfl
    | cons s rest =>
      rw [reverse_cons, tail_cons, take_append_of_le_length]
      simpa using hlength.trans (min_le_right _ _)
  have hshared : loop.snode.reverse.take (above.length + 1) =
      snode.reverse.take (above.length + 1) := by
    rw [take_reverse forest snode hlt, h.sparsity,
      take_reverse forest loop.snode (h.sparsity ▸ hlt)]
  rw [prefix_iff_eq_take, length_append, length_singleton,
    take_cells forest _ _ hlevels, h.axes, start_eq forest h.sparsity h.shape] at hprefix
  refine hactive above cell ?_ hneed
  rw [prefix_iff_eq_take, length_append, length_singleton, cells, run_cell,
    take_cells forest _ _ rfl, hshared]
  exact hprefix

end Addresses

section Flags

variable {task : Task}

theorem Task.WellFormed.nodup_leaves (h : task.WellFormed) :
    (task.leaves.flatMap Stmt.value).Nodup :=
  (nodup_cons.1 h.nodup).2.sublist (blockLeaves_sublist task.body)

variable {activate : Activate} {forest : Forest} {leaf : Statement} {ptr : ℕ}

theorem Task.WellFormed.unique (h : task.WellFormed) {leaf' : Statement} {name : ℕ}
    (hleaf : leaf ∈ task.leaves) (hleaf' : leaf' ∈ task.leaves) (hname : name ∈ leaf.value)
    (hname' : name ∈ leaf'.value) : leaf = leaf' :=
  leaf_unique h.nodup_leaves hleaf hleaf' hname hname'

theorem Task.WellFormed.ordered (h : task.WellFormed) : LeavesOrdered [] task.leaves :=
  blockLeavesOrdered h.inScope

variable {indices : List ℕ} {snode : Chain} {x : ℕ}

theorem mem_of_definition (h : task.definition x = some leaf) :
    leaf ∈ task.leaves ∧ x ∈ leaf.value := by
  rw [Task.definition, List.find?_eq_some_iff_append] at h
  obtain ⟨hname, as, bs, hsplit, -⟩ := h
  exact ⟨hsplit ▸ mem_append_right _ mem_cons_self, of_decide_eq_true hname⟩

theorem exists_of_unloweredOrigin (h : unloweredOrigin task x = some ptr) :
    ∃ rest, .plain x .matrixPtr (ptr :: rest) ∈ task.leaves := by
  unfold unloweredOrigin at h
  split at h
  · next name origin rest hdef =>
      obtain ⟨hmem, hx⟩ := mem_of_definition hdef
      rw [Stmt.value, mem_singleton] at hx
      split at h
      · exact ⟨rest, Option.some.inj h ▸ hx ▸ hmem⟩
      · contradiction
  · contradiction

theorem target_cases (h : target task leaf = some ptr) : ∃ dest ∈ leaf.operands,
      dest = ptr ∨ ∃ rest, .plain dest .matrixPtr (ptr :: rest) ∈ task.leaves := by
  unfold target at h
  split at h
  · next name dest rest =>
      refine ⟨dest, mem_cons_self, ?_⟩
      split at h
      · exact .inl (Option.some.inj h)
      · exact .inr (exists_of_unloweredOrigin h)
  · next name dest rest =>
      refine ⟨dest, mem_cons_self, ?_⟩
      split at h
      · exact .inl (Option.some.inj h)
      · contradiction
  · contradiction

theorem target_mem_before (h : task.WellFormed) {before after : List Statement}
    (hsplit : task.leaves = before ++ leaf :: after)
    (htarget : target task leaf = some ptr) : ptr ∈ before.flatMap Stmt.value := by
  have hordered := h.ordered
  rw [hsplit] at hordered
  have hoperands := hordered.operands_subset
  rw [append_nil] at hoperands
  obtain ⟨dest, hdest, rfl | ⟨rest, hmatrix⟩⟩ := target_cases htarget
  · exact hoperands hdest
  · obtain ⟨leaf', hleaf', hname⟩ := mem_flatMap.1 (hoperands hdest)
    have hmem : leaf' ∈ task.leaves := hsplit ▸ mem_append_left _ hleaf'
    obtain rfl := h.unique hmem hmatrix hname (mem_singleton_self dest)
    obtain ⟨first, second, rfl⟩ := append_of_mem hleaf'
    rw [append_assoc] at hordered
    have hfirst := hordered.operands_subset (mem_cons_self)
    rw [append_nil] at hfirst
    rw [flatMap_append]
    exact mem_append_left _ hfirst

theorem flagVisit_eq (hname : ptr ∉ leaf.value) : FlagAccess.visit task activate leaf ptr = true ↔
      activate ptr = true ∨ target task leaf = some ptr := by
  unfold FlagAccess.visit
  split
  · next name snode indices =>
      have hne : ptr ≠ name := fun heq => hname (heq ▸ mem_singleton_self name)
      rw [Function.update_of_ne hne]
      simp [target]
  · cases target task leaf with
    | some other =>
      by_cases heq : ptr = other
      · subst heq
        simp
      · simp [Function.update_of_ne heq, Ne.symm heq]
    | none => simp

theorem flagVisits_eq {leaves : List Statement} (hname : ptr ∉ leaves.flatMap Stmt.value) :
    leaves.foldl (FlagAccess.visit task) activate ptr = true ↔
      activate ptr = true ∨ ∃ leaf ∈ leaves, target task leaf = some ptr := by
  induction leaves generalizing activate with
  | nil => simp
  | cons leaf rest ih =>
    rw [flatMap_cons, mem_append, not_or] at hname
    rw [foldl_cons, ih hname.2, flagVisit_eq hname.1, or_assoc, exists_mem_cons_iff]

theorem flagged_iff (h : task.WellFormed)
    (hptr : .plain ptr (.globalPtr snode) indices ∈ task.leaves) :
    FlagAccess.run task activate ptr = true ↔ ¬Unflagged task ptr := by
  obtain ⟨before, after, hsplit⟩ := append_of_mem hptr
  have hnodup := h.nodup_leaves
  rw [hsplit, flatMap_append] at hnodup
  have hbefore : ptr ∉ before.flatMap Stmt.value := fun hmem =>
    disjoint_of_nodup_append hnodup hmem
      (mem_append_left _ (mem_singleton_self ptr))
  have hafter : ptr ∉ after.flatMap Stmt.value := fun hmem =>
    disjoint_of_nodup_append hnodup.of_append_right (mem_singleton_self ptr) hmem
  have hnone : ∀ leaf ∈ before, target task leaf ≠ some ptr := by
    intro leaf hleaf htarget
    obtain ⟨first, second, rfl⟩ := append_of_mem hleaf
    rw [append_assoc] at hsplit
    refine hbefore ?_
    rw [flatMap_append]
    exact mem_append_left _ (target_mem_before h hsplit htarget)
  rw [FlagAccess.run, hsplit, foldl_append, foldl_cons, flagVisits_eq hafter]
  have hvisit : FlagAccess.visit task (before.foldl (FlagAccess.visit task) activate)
      (.plain ptr (.globalPtr snode) indices) ptr = false := Function.update_self _ _ _
  rw [hvisit]
  simp only [Bool.false_eq_true, false_or]
  rw [Unflagged, hsplit]
  push Not
  simp only [mem_append, mem_cons]
  constructor
  · rintro ⟨leaf, hleaf, htarget⟩
    exact ⟨leaf, .inr (.inr hleaf), htarget⟩
  · rintro ⟨leaf, hleaf | rfl | hleaf, htarget⟩
    · exact absurd htarget (hnone leaf hleaf)
    · exact absurd htarget (by simp [target])
    · exact ⟨leaf, hleaf, htarget⟩

def WeakensAt (forest : Forest) (task : Task) (ptr : ℕ) (visit : Statement × Option Loop) : Prop :=
  ∃ snode indices loop, visit = (.plain ptr (.globalPtr snode) indices, some loop) ∧
    sameAsLoopSNode forest task loop snode indices = true

theorem weakenVisit_eq
    {visit : Statement × Option Loop} : WeakenAccess.visit forest task activate visit ptr = true ↔
      activate ptr = true ∧ ¬WeakensAt forest task ptr visit := by
  unfold WeakenAccess.visit
  split
  · next name snode indices loop =>
      have hiff : WeakensAt forest task ptr (.plain name (.globalPtr snode) indices, some loop) ↔
          ptr = name ∧ sameAsLoopSNode forest task loop snode indices = true := by
        constructor
        · rintro ⟨_, _, _, heq, hsame⟩
          cases heq
          exact ⟨rfl, hsame⟩
        · rintro ⟨rfl, hsame⟩
          exact ⟨snode, indices, loop, rfl, hsame⟩
      rw [hiff]
      by_cases heq : ptr = name
      · split
        · next hboth => simp_all
        · next hboth => simp_all
      · split
        · simp [heq]
        · simp [heq]
  · next hne =>
      have hnot : ¬WeakensAt forest task ptr visit := by
        rintro ⟨snode, indices, loop, rfl, -⟩
        exact hne _ _ _ _ rfl
      simp [hnot]

theorem weakenVisits_eq {visits : List (Statement × Option Loop)} :
    visits.foldl (WeakenAccess.visit forest task) activate ptr = true ↔
      activate ptr = true ∧ ∀ visit ∈ visits, ¬WeakensAt forest task ptr visit := by
  induction visits generalizing activate with
  | nil => simp
  | cons visit rest ih => rw [foldl_cons, ih, weakenVisit_eq, and_assoc, forall_mem_cons]

theorem flagAccess_iff (h : task.WellFormed)
    (hptr : .plain ptr (.globalPtr snode) indices ∈ task.leaves) :
    flagAccess forest task activate ptr = true ↔
      ¬Unflagged task ptr ∧ ¬Weakened forest task ptr := by
  rw [flagAccess, WeakenAccess.run, weakenVisits_eq, flagged_iff h hptr]
  refine and_congr Iff.rfl ?_
  constructor
  · rintro hnone ⟨snode, indices, loop, hmem, hsame⟩
    exact hnone _ hmem ⟨snode, indices, loop, rfl, hsame⟩
  · rintro hnot visit hmem ⟨snode, indices, loop, rfl, hsame⟩
    exact hnot ⟨snode, indices, loop, hmem, hsame⟩

end Flags

end Quadrants.WeakAccess
