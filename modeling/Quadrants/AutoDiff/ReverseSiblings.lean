import Quadrants.Library.PairSwaps
import Quadrants.Library.TraceOrder
import Quadrants.Library.Worklist

/-!
`ReverseOuterLoops::reverse_for_loop_order_in_place`: the loops of a block change places, and what
they need is moved before the first of them.
-/

namespace Quadrants.AutoDiff.ReverseSiblings

open Library.PairSwaps Library.TraceOrder Library.Worklist List

section Code

/-- What a statement without a body is; `value` are the statements that access no memory. -/
inductive Kind
  | alloca
  | load (src : ℕ)
  | store (dest val : ℕ)
  | atomicOp (dest val : ℕ)
  | value (operands : List ℕ)
deriving DecidableEq, Repr

def Kind.operands : Kind → List ℕ
  | .alloca => []
  | .load src => [src]
  | .store dest val => [dest, val]
  | .atomicOp dest val => [dest, val]
  | .value operands => operands

inductive Stmt
  | plain (id : ℕ) (kind : Kind)
  | ifStmt (id cond : ℕ) (trueStatements falseStatements : List Stmt)
  | rangeFor (id begin' end' : ℕ) (body : List Stmt)
  | structFor (id : ℕ) (body : List Stmt)

def Stmt.id : Stmt → ℕ
  | .plain id _ => id
  | .ifStmt id _ _ _ => id
  | .rangeFor id _ _ _ => id
  | .structFor id _ => id

def Stmt.operands : Stmt → List ℕ
  | .plain _ kind => kind.operands
  | .ifStmt _ cond _ _ => [cond]
  | .rangeFor _ begin' end' _ => [begin', end']
  | .structFor _ _ => []

def Stmt.isFor : Stmt → Bool
  | .rangeFor .. => true
  | .structFor .. => true
  | _ => false

def Stmt.isPlain : Stmt → Bool
  | .plain .. => true
  | _ => false

mutual

def Stmt.gathered : Stmt → List ℕ
  | .plain _ kind => kind.operands
  | .ifStmt _ cond trueStatements falseStatements =>
    cond :: (blockGathered trueStatements ++ blockGathered falseStatements)
  | .rangeFor _ begin' end' body => begin' :: end' :: blockGathered body
  | .structFor _ body => blockGathered body

def blockGathered : List Stmt → List ℕ
  | [] => []
  | s :: rest => s.gathered ++ blockGathered rest

end

variable (block : List Stmt)

def forIndices : List ℕ :=
  positions Stmt.isFor block

/-- Whether `push_if_internal` takes an operand: it is in the block, not before the first loop. -/
def internal (firstFor op : ℕ) : Bool :=
  match block.findIdx? fun s => s.id == op with
  | some pos => firstFor ≤ pos
  | none => false

def operandsOf (id : ℕ) : List ℕ :=
  match block.find? fun s => s.id == id with
  | some s => s.operands
  | none => []

def seeds : List ℕ :=
  (block.filter Stmt.isFor).flatMap fun s => s.operands ++ s.gathered

def mustHoist (firstFor : ℕ) : List ℕ :=
  (search (internal block firstFor) (operandsOf block) block.length (seeds block)).filter
    fun id => !(block.filter Stmt.isFor).any fun s => s.id == id

def reverseForLoopOrderInPlace : List Stmt :=
  match forIndices block with
  | firstFor :: _ :: _ =>
    let hoisted (s : Stmt) : Bool := decide (s.id ∈ mustHoist block firstFor)
    let rest := block.drop firstFor
    block.take firstFor ++ (rest.filter hoisted ++
      swapPairs Stmt.isFor (rest.filter fun s => !hoisted s))
  | _ => block

end Code

section Runs

mutual

def Stmt.ids : Stmt → List ℕ
  | .plain id _ => [id]
  | .ifStmt id _ trueStatements falseStatements =>
    id :: (blockIds trueStatements ++ blockIds falseStatements)
  | .rangeFor id _ _ body => id :: blockIds body
  | .structFor id body => id :: blockIds body

def blockIds : List Stmt → List ℕ
  | [] => []
  | s :: rest => s.ids ++ blockIds rest

end

variable {P : Type} (place : ℕ → P) (taken : ℕ → Bool)

mutual

/-- The loads and stores outside of loops, where `place` is what a pointer points to and `taken` are
the conditions that hold; an atomic operation loads before it stores. -/
def Stmt.accesses (home : ℕ) : Stmt → List (Access P)
  | .plain id kind =>
    match kind with
    | .load src => [⟨home, id, false, place src⟩]
    | .store dest _ => [⟨home, id, true, place dest⟩]
    | .atomicOp dest _ => [⟨home, id, false, place dest⟩, ⟨home, id, true, place dest⟩]
    | .alloca => []
    | .value _ => []
  | .ifStmt id _ trueStatements falseStatements =>
    if taken id then accessesIn home trueStatements else accessesIn home falseStatements
  | .rangeFor .. => []
  | .structFor .. => []

def accessesIn (home : ℕ) : List Stmt → List (Access P)
  | [] => []
  | s :: rest => s.accesses home ++ accessesIn home rest

end

def blockAccesses (block : List Stmt) : List (Access P) :=
  block.flatMap fun s => s.accesses place taken s.id

structure Container where
  statements : List Stmt
  nodup : (blockIds statements).Nodup

/-- An operand from the block is a statement without a body that comes before; only what is in a
body refers to the loop itself. -/
structure DefinedBeforeUse (block : List Stmt) : Prop where
  operands : ∀ s ∈ block, ∀ op ∈ s.operands, ∀ t ∈ block, t.id = op →
    t.isPlain = true ∧ [t, s].Sublist block
  gathered : ∀ s ∈ block, ∀ op ∈ s.gathered, ∀ t ∈ block, t.id = op →
    t = s ∨ t.isPlain = true ∧ [t, s].Sublist block

/-- A loop needs the statement, and it is not before the first loop. -/
def Needed (block : List Stmt) (firstFor id : ℕ) : Prop :=
  Reaches (internal block firstFor) (operandsOf block) (seeds block) id

def Hoisted (block : List Stmt) (firstFor id : ℕ) : Prop :=
  Needed block firstFor id ∧ ∀ s ∈ block, s.isFor = true → s.id ≠ id

def LoadsKept (block : List Stmt) : Prop :=
  ∀ firstFor second others, forIndices block = firstFor :: second :: others →
    OrderKept (fun a => Hoisted block firstFor a.home)
      (blockAccesses place taken (block.drop firstFor))

end Runs

section Names

variable {P : Type} (place : ℕ → P) (taken : ℕ → Bool)

mutual

theorem Stmt.accesses_sublist (isStore : Bool) (home : ℕ) : (s : Stmt) →
    (((s.accesses place taken home).filter fun a => a.isStore == isStore).map
      Access.stmt).Sublist s.ids
  | .plain id kind => by
    cases kind <;> cases isStore <;> simp [Stmt.accesses, Stmt.ids]
  | .ifStmt id cond trueStatements falseStatements => by
    rw [Stmt.accesses, Stmt.ids]
    refine List.Sublist.cons _ ?_
    split
    · exact (accessesIn_sublist isStore home trueStatements).trans
        (sublist_append_left _ _)
    · exact (accessesIn_sublist isStore home falseStatements).trans
        (sublist_append_right _ _)
  | .rangeFor .. => nil_sublist _
  | .structFor .. => nil_sublist _

theorem accessesIn_sublist (isStore : Bool) (home : ℕ) : (block : List Stmt) →
    (((accessesIn place taken home block).filter fun a => a.isStore == isStore).map
      Access.stmt).Sublist (blockIds block)
  | [] => nil_sublist _
  | s :: rest => by
    rw [accessesIn, blockIds, filter_append, map_append]
    exact (s.accesses_sublist isStore home).append (accessesIn_sublist isStore home rest)

end

theorem blockAccesses_sublist (isStore : Bool) (block : List Stmt) :
    (((blockAccesses place taken block).filter fun a => a.isStore == isStore).map
      Access.stmt).Sublist (blockIds block) := by
  induction block with
  | nil => exact nil_sublist _
  | cons s rest ih =>
    rw [blockAccesses, flatMap_cons, filter_append, map_append]
    exact (s.accesses_sublist place taken isStore s.id).append ih

theorem Stmt.id_mem_ids (s : Stmt) : [s.id].Sublist s.ids := by
  cases s <;> simp [Stmt.id, Stmt.ids]

theorem map_id_sublist (block : List Stmt) : (block.map Stmt.id).Sublist (blockIds block) := by
  induction block with
  | nil => exact nil_sublist _
  | cons s rest ih =>
    exact s.id_mem_ids.append ih

theorem Container.once (b : Container) : Once (blockAccesses place taken b.statements) where
  loads := by
    have h := b.nodup.sublist (blockAccesses_sublist place taken false _)
    simpa using h
  stores := by
    have h := b.nodup.sublist (blockAccesses_sublist place taken true _)
    simpa using h

theorem Container.nodup_ids (b : Container) : (b.statements.map Stmt.id).Nodup :=
  b.nodup.sublist (map_id_sublist b.statements)

end Names

section Hoisting

variable {block : List Stmt} {firstFor : ℕ}

variable {id : ℕ} {s : Stmt}

theorem eq_of_id (hnodup : (block.map Stmt.id).Nodup) {t : Stmt} (hs : s ∈ block)
    (ht : t ∈ block) (heq : s.id = t.id) : s = t :=
  inj_on_of_nodup_map hnodup hs ht heq

theorem operandsOf_eq (hnodup : (block.map Stmt.id).Nodup) (hs : s ∈ block) :
    operandsOf block s.id = s.operands := by
  rw [operandsOf]
  cases hfind : block.find? fun t => t.id == s.id with
  | none => exact absurd (beq_self_eq_true s.id) (List.find?_eq_none.1 hfind s hs)
  | some t =>
    have hid := List.find?_some hfind
    have heq := eq_of_id hnodup (List.mem_of_find?_eq_some hfind) hs (eq_of_beq hid)
    subst heq
    rfl

theorem mem_of_operandsOf {op : ℕ} (h : op ∈ operandsOf block id) :
    ∃ s ∈ block, s.id = id ∧ op ∈ s.operands := by
  rw [operandsOf] at h
  cases hfind : block.find? fun t => t.id == id with
  | none =>
    rw [hfind] at h
    exact absurd h not_mem_nil
  | some t =>
    rw [hfind] at h
    have hid := List.find?_some hfind
    exact ⟨t, List.mem_of_find?_eq_some hfind, eq_of_beq hid, h⟩

theorem internal_of_mem (hnodup : (block.map Stmt.id).Nodup)
    (hs : s ∈ block.drop firstFor) : internal block firstFor s.id = true := by
  rw [internal]
  cases hfind : block.findIdx? fun t => t.id == s.id with
  | none =>
    have hnot := List.findIdx?_eq_none_iff.1 hfind s (mem_of_mem_drop hs)
    rw [beq_self_eq_true] at hnot
    exact absurd hnot (by decide)
  | some pos =>
    obtain ⟨hpos, heq, -⟩ := List.findIdx?_eq_some_iff_getElem.1 hfind
    obtain ⟨k, hk, rfl⟩ := getElem_of_mem hs
    rw [length_drop] at hk
    rw [getElem_drop] at heq
    have hpos' : pos < (block.map Stmt.id).length := by rwa [length_map]
    have hk' : firstFor + k < (block.map Stmt.id).length := by
      rw [length_map]
      omega
    have hget : (block.map Stmt.id)[pos] = (block.map Stmt.id)[firstFor + k] := by
      rw [getElem_map, getElem_map]
      exact eq_of_beq heq
    have hidx := (List.Nodup.getElem_inj_iff hnodup).1 hget
    simp only [decide_eq_true_eq]
    omega

theorem exists_of_internal (h : internal block firstFor id = true) : ∃ s ∈ block, s.id = id := by
  rw [internal] at h
  cases hfind : block.findIdx? fun t => t.id == id with
  | none =>
    rw [hfind] at h
    exact absurd h Bool.false_ne_true
  | some pos =>
    obtain ⟨hpos, heq, -⟩ := List.findIdx?_eq_some_iff_getElem.1 hfind
    exact ⟨block[pos], getElem_mem hpos, eq_of_beq heq⟩

theorem mem_seeds {op : ℕ} :
    op ∈ seeds block ↔ ∃ s ∈ block, s.isFor = true ∧ (op ∈ s.operands ∨ op ∈ s.gathered) := by
  simp [seeds, and_assoc]

theorem mem_mustHoist_iff : id ∈ mustHoist block firstFor ↔ Hoisted block firstFor id := by
  have hall : ∀ id, internal block firstFor id = true → id ∈ block.map Stmt.id := by
    intro id hid
    obtain ⟨t, ht, rfl⟩ := exists_of_internal hid
    exact mem_map_of_mem ht
  have hsearch : id ∈ search (internal block firstFor) (operandsOf block)
      (block.map Stmt.id).length (seeds block) ↔ Needed block firstFor id := mem_search hall
  rw [length_map] at hsearch
  rw [mustHoist, mem_filter, hsearch, Hoisted]
  simp

theorem mem_mustHoist (hnodup : (block.map Stmt.id).Nodup) (hs : s ∈ block) :
    s.id ∈ mustHoist block firstFor ↔ Needed block firstFor s.id ∧ s.isFor = false := by
  rw [mem_mustHoist_iff]
  refine and_congr Iff.rfl ⟨fun h => ?_, fun h t ht hfor heq => ?_⟩
  · exact Bool.eq_false_iff.2 fun hfor => h s hs hfor rfl
  · obtain rfl := eq_of_id hnodup ht hs heq
    rw [h] at hfor
    exact absurd hfor (by decide)

end Hoisting

section Result

variable {block : List Stmt} {firstFor second : ℕ} {others : List ℕ}

theorem reverse_eq (hfor : forIndices block = firstFor :: second :: others) :
    reverseForLoopOrderInPlace block = block.take firstFor ++
      ((block.drop firstFor).filter (fun s => decide (s.id ∈ mustHoist block firstFor)) ++
        swapPairs Stmt.isFor ((block.drop firstFor).filter
          fun s => !decide (s.id ∈ mustHoist block firstFor))) := by
  rw [reverseForLoopOrderInPlace, hfor]

theorem reverse_eq_self (h : ∀ firstFor second others,
    forIndices block ≠ firstFor :: second :: others) :
    reverseForLoopOrderInPlace block = block := by
  rw [reverseForLoopOrderInPlace]
  split
  · next firstFor second others hfor => exact absurd hfor (h firstFor second others)
  · rfl

theorem take_isFor (hfor : forIndices block = firstFor :: others) :
    ∀ s ∈ block.take firstFor, s.isFor = false := by
  intro s hs
  obtain ⟨k, hk, rfl⟩ := getElem_of_mem hs
  rw [length_take] at hk
  by_contra hisFor
  have hmem : k ∈ forIndices block :=
    mem_positions.2 ⟨block[k], List.getElem?_eq_getElem (by omega), by simpa using hisFor⟩
  have hsorted : (forIndices block).Pairwise (· < ·) := pairwise_lt_range.filter _
  rw [hfor, pairwise_cons] at hsorted
  rw [hfor, mem_cons] at hmem
  rcases hmem with rfl | hmem
  · omega
  · have := hsorted.1 k hmem
    omega

theorem filter_stay_isFor (hnodup : (block.map Stmt.id).Nodup) :
    ((block.drop firstFor).filter fun s => !decide (s.id ∈ mustHoist block firstFor)).filter
      Stmt.isFor = (block.drop firstFor).filter Stmt.isFor := by
  rw [filter_filter]
  refine filter_congr fun s hs => ?_
  cases hisFor : s.isFor with
  | false => rfl
  | true =>
    have hnot : s.id ∉ mustHoist block firstFor := by
      rw [mem_mustHoist hnodup (mem_of_mem_drop hs), hisFor]
      exact fun h => absurd h.2 (by decide)
    rw [decide_eq_false hnot]
    rfl

theorem filter_hoisted_isFor (hnodup : (block.map Stmt.id).Nodup) :
    ((block.drop firstFor).filter fun s => decide (s.id ∈ mustHoist block firstFor)).filter
      Stmt.isFor = [] := by
  refine filter_eq_nil_iff.2 fun s hs => ?_
  obtain ⟨hs, hhoist⟩ := mem_filter.1 hs
  rw [((mem_mustHoist hnodup (mem_of_mem_drop hs)).1 (of_decide_eq_true hhoist)).2]
  decide

theorem reverse_perm (block : List Stmt) : (reverseForLoopOrderInPlace block).Perm block := by
  rw [reverseForLoopOrderInPlace]
  split
  · next firstFor second others hfor =>
      refine List.Perm.trans ?_ (List.Perm.of_eq (take_append_drop firstFor block))
      refine List.Perm.append_left _ ?_
      exact ((swapPairs_perm _).append_left _).trans (filter_append_perm _ _)
  · rfl

theorem reverse_filter_isFor (hnodup : (block.map Stmt.id).Nodup) :
    (reverseForLoopOrderInPlace block).filter Stmt.isFor =
      (block.filter Stmt.isFor).reverse := by
  by_cases hfor : ∃ firstFor second others, forIndices block = firstFor :: second :: others
  · obtain ⟨firstFor, second, others, hfor⟩ := hfor
    have htake : (block.take firstFor).filter Stmt.isFor = [] :=
      filter_eq_nil_iff.2 fun s hs => by
        rw [take_isFor hfor s hs]
        decide
    have hsplit : block.filter Stmt.isFor = (block.drop firstFor).filter Stmt.isFor := by
      conv_lhs => rw [← take_append_drop firstFor block]
      rw [filter_append, htake, nil_append]
    rw [reverse_eq hfor, filter_append, filter_append, htake,
      filter_hoisted_isFor hnodup, filter_swapPairs, filter_stay_isFor hnodup, hsplit]
    rfl
  · -- one loop at most
    have hone : reverseForLoopOrderInPlace block = block :=
      reverse_eq_self fun firstFor second others h => hfor ⟨firstFor, second, others, h⟩
    have hpositions := filter_eq_positions Stmt.isFor block
    rw [hone]
    cases hindices : forIndices block with
    | nil =>
      rw [forIndices] at hindices
      rw [hpositions, hindices]
      rfl
    | cons firstFor tail =>
      cases tail with
      | nil =>
        rw [forIndices] at hindices
        rw [hpositions, hindices, filterMap_cons]
        split <;> rfl
      | cons second others => exact absurd ⟨firstFor, second, others, hindices⟩ hfor

variable {s t : Stmt}

theorem hoisted_of_seed (hnodup : (block.map Stmt.id).Nodup) (hs : s ∈ block)
    (hfor : s.isFor = true) (ht : t ∈ block.drop firstFor)
    (hop : t.id ∈ s.operands ∨ t.id ∈ s.gathered) : Needed block firstFor t.id :=
  .seed (mem_seeds.2 ⟨s, hs, hfor, hop⟩) (internal_of_mem hnodup ht)

theorem hoisted_of_operand (hnodup : (block.map Stmt.id).Nodup) (hs : s ∈ block)
    (hhoist : Needed block firstFor s.id) (ht : t ∈ block.drop firstFor)
    (hop : t.id ∈ s.operands) : Needed block firstFor t.id :=
  .step hhoist (operandsOf_eq hnodup hs ▸ hop) (internal_of_mem hnodup ht)

theorem plain_of_hoisted (hdefined : DefinedBeforeUse block) (hs : s ∈ block)
    (hhoist : Needed block firstFor s.id) (hfor : s.isFor = false) : s.isPlain = true := by
  generalize hid : s.id = id at hhoist
  cases hhoist with
  | seed hseed _ =>
    obtain ⟨u, hu, hufor, hop | hop⟩ := mem_seeds.1 hseed
    · exact (hdefined.operands u hu id hop s hs hid).1
    · rcases hdefined.gathered u hu id hop s hs hid with rfl | ⟨hplain, -⟩
      · rw [hfor] at hufor
        exact absurd hufor (by decide)
      · exact hplain
  | step _ hop _ =>
    obtain ⟨u, hu, -, hop⟩ := mem_of_operandsOf hop
    exact (hdefined.operands u hu id hop s hs hid).1

theorem Stmt.gathered_of_isPlain (h : s.isPlain = true) : s.gathered = s.operands := by
  cases s <;> first | rfl | exact (Bool.false_ne_true h).elim

theorem Stmt.not_isFor_of_isPlain (h : s.isPlain = true) : s.isFor = false := by
  cases s <;> first | rfl | exact (Bool.false_ne_true h).elim

theorem sublist_filter_pair {q : Stmt → Bool} (h : [t, s].Sublist block)
    (ht : q t = true) (hs : q s = true) : [t, s].Sublist (block.filter q) := by
  have hfiltered := h.filter q
  rwa [filter_cons_of_pos ht, filter_cons_of_pos hs] at hfiltered

theorem reverse_sublist (hnodup : (block.map Stmt.id).Nodup)
    (hfor : forIndices block = firstFor :: second :: others)
    (hplain : t.isPlain = true) (hts : [t, s].Sublist block)
    (hneeded : s.isFor = true ∨ s.id ∈ mustHoist block firstFor →
      t ∈ block.drop firstFor → Needed block firstFor t.id) :
    [t, s].Sublist (reverseForLoopOrderInPlace block) := by
  have htfor := Stmt.not_isFor_of_isPlain hplain
  have hstays : ∀ u ∈ block.drop firstFor, u.id ∉ mustHoist block firstFor →
      u ∈ swapPairs Stmt.isFor ((block.drop firstFor).filter
        fun s => !decide (s.id ∈ mustHoist block firstFor)) := by
    intro u hu hnot
    exact (swapPairs_perm _).mem_iff.2 (mem_filter.2 ⟨hu, by simpa using hnot⟩)
  have hmoves : ∀ u ∈ block.drop firstFor, u.id ∈ mustHoist block firstFor →
      u ∈ (block.drop firstFor).filter fun s => decide (s.id ∈ mustHoist block firstFor) :=
    fun u hu hmem => mem_filter.2 ⟨hu, decide_eq_true hmem⟩
  have hhoisted : ∀ u ∈ block.drop firstFor, u.isFor = false → Needed block firstFor u.id →
      u.id ∈ mustHoist block firstFor :=
    fun u hu hnot hh => (mem_mustHoist hnodup (mem_of_mem_drop hu)).2 ⟨hh, hnot⟩
  rw [← take_append_drop firstFor block] at hts
  rw [reverse_eq hfor]
  obtain ⟨us, vs, hsplit, hus, hvs⟩ := sublist_append_iff.1 hts
  match us, vs, hsplit with
  | [], _, rfl =>
    refine (List.Sublist.trans ?_ (sublist_append_right _ _))
    have ht : t ∈ block.drop firstFor := hvs.subset (by simp)
    have hs : s ∈ block.drop firstFor := hvs.subset (by simp)
    by_cases hsmoved : s.id ∈ mustHoist block firstFor
    · have htmoved := hhoisted t ht htfor (hneeded (Or.inr hsmoved) ht)
      exact (sublist_filter_pair hvs (decide_eq_true htmoved) (decide_eq_true hsmoved)).trans
        (sublist_append_left _ _)
    · by_cases htmoved : t.id ∈ mustHoist block firstFor
      · have happ := (singleton_sublist.2 (hmoves t ht htmoved)).append
          (singleton_sublist.2 (hstays s hs hsmoved))
        exact happ
      · cases hsfor : s.isFor with
        | true => exact absurd (hhoisted t ht htfor (hneeded (Or.inl hsfor) ht)) htmoved
        | false =>
          -- neither moves, and the swaps leave them in their order
          refine List.Sublist.trans ?_ (sublist_append_right _ _)
          refine List.Sublist.trans ?_
            (filter_sublist (p := fun s : Stmt => !s.isFor))
          rw [filter_not_swapPairs]
          refine sublist_filter_pair (sublist_filter_pair hvs ?_ ?_) ?_ ?_
          · simpa using htmoved
          · simpa using hsmoved
          · rw [htfor]
            rfl
          · rw [hsfor]
            rfl
  | [u], [v], hsplit =>
    obtain ⟨rfl, rfl⟩ : t = u ∧ s = v := by simpa using hsplit
    have hs : s ∈ block.drop firstFor := hvs.subset (by simp)
    refine hus.append (singleton_sublist.2 ?_)
    by_cases hsmoved : s.id ∈ mustHoist block firstFor
    · exact mem_append_left _ (hmoves s hs hsmoved)
    · exact mem_append_right _ (hstays s hs hsmoved)
  | u :: v :: us, vs, hsplit =>
    have hboth : [t, s] = u :: v :: us := by
      simp only [cons_append, List.cons.injEq] at hsplit
      obtain ⟨rfl, rfl, hnil⟩ := hsplit
      rw [(append_eq_nil_iff.1 hnil.symm).1]
    rw [hboth]
    exact hus.trans (sublist_append_left _ _)

theorem reverse_definedBeforeUse (hnodup : (block.map Stmt.id).Nodup)
    (hdefined : DefinedBeforeUse block) : DefinedBeforeUse (reverseForLoopOrderInPlace block) := by
  by_cases hfor : ∃ firstFor second others, forIndices block = firstFor :: second :: others
  · obtain ⟨firstFor, second, others, hfor⟩ := hfor
    have hmem : ∀ s, s ∈ reverseForLoopOrderInPlace block ↔ s ∈ block :=
      fun s => (reverse_perm block).mem_iff
    constructor
    · intro s hs op hop t ht hid
      subst hid
      rw [hmem] at hs ht
      obtain ⟨hplain, hts⟩ := hdefined.operands s hs t.id hop t ht rfl
      refine ⟨hplain, reverse_sublist hnodup hfor hplain hts ?_⟩
      rintro (hsfor | hsmoved) htrest
      · exact hoisted_of_seed hnodup hs hsfor htrest (Or.inl hop)
      · exact hoisted_of_operand hnodup hs ((mem_mustHoist hnodup hs).1 hsmoved).1 htrest hop
    · intro s hs op hop t ht hid
      subst hid
      rw [hmem] at hs ht
      refine (hdefined.gathered s hs t.id hop t ht rfl).imp id ?_
      rintro ⟨hplain, hts⟩
      refine ⟨hplain, reverse_sublist hnodup hfor hplain hts ?_⟩
      rintro (hsfor | hsmoved) htrest
      · exact hoisted_of_seed hnodup hs hsfor htrest (Or.inr hop)
      · obtain ⟨hhoist, hnot⟩ := (mem_mustHoist hnodup hs).1 hsmoved
        rw [Stmt.gathered_of_isPlain (plain_of_hoisted hdefined hs hhoist hnot)] at hop
        exact hoisted_of_operand hnodup hs hhoist htrest hop
  · rw [reverse_eq_self fun firstFor second others h => hfor ⟨firstFor, second, others, h⟩]
    exact hdefined

section Accesses

variable {P : Type} (place : ℕ → P) (taken : ℕ → Bool)

mutual

theorem Stmt.home_of_mem (home : ℕ) : (s : Stmt) →
    ∀ a ∈ s.accesses place taken home, a.home = home
  | .plain id kind => by
    cases kind <;> simp [Stmt.accesses]
  | .ifStmt id cond trueStatements falseStatements => by
    rw [Stmt.accesses]
    split
    · exact home_of_mem_in home trueStatements
    · exact home_of_mem_in home falseStatements
  | .rangeFor .. => nofun
  | .structFor .. => nofun

theorem home_of_mem_in (home : ℕ) : (block : List Stmt) →
    ∀ a ∈ accessesIn place taken home block, a.home = home
  | [] => nofun
  | s :: rest => by
    rw [accessesIn, forall_mem_append]
    exact ⟨s.home_of_mem home, home_of_mem_in home rest⟩

end

variable {place taken}

theorem Stmt.accesses_of_isFor {s : Stmt} (h : s.isFor = true) (home : ℕ) :
    s.accesses place taken home = [] := by
  cases s <;> first | rfl | exact (Bool.false_ne_true h).elim

theorem blockAccesses_append (block block' : List Stmt) :
    blockAccesses place taken (block ++ block') =
      blockAccesses place taken block ++ blockAccesses place taken block' :=
  flatMap_append

theorem blockAccesses_cons (s : Stmt) (rest : List Stmt) : blockAccesses place taken (s :: rest) =
      s.accesses place taken s.id ++ blockAccesses place taken rest :=
  flatMap_cons

theorem blockAccesses_filter_not_isFor (block : List Stmt) :
    blockAccesses place taken (block.filter fun s => !s.isFor) =
      blockAccesses place taken block := by
  induction block with
  | nil => rfl
  | cons s rest ih =>
    rw [filter_cons, blockAccesses_cons]
    split
    · rw [blockAccesses_cons, ih]
    · next h => rw [ih, Stmt.accesses_of_isFor (by simpa using h), nil_append]

theorem blockAccesses_filter (q : ℕ → Bool) (block : List Stmt) :
    blockAccesses place taken (block.filter fun s => q s.id) =
      (blockAccesses place taken block).filter fun a => q a.home := by
  induction block with
  | nil => rfl
  | cons s rest ih =>
    have hhome := s.home_of_mem place taken s.id
    rw [filter_cons, blockAccesses_cons, filter_append, ← ih]
    split
    · next h =>
        have hall : (s.accesses place taken s.id).filter (fun a => q a.home) =
            s.accesses place taken s.id :=
          filter_eq_self.2 fun a ha => by rw [hhome a ha, h]
        rw [hall, blockAccesses_cons]
    · next h =>
        have hnone : (s.accesses place taken s.id).filter (fun a => q a.home) = [] :=
          filter_eq_nil_iff.2 fun a ha => by rwa [hhome a ha]
        rw [hnone, nil_append]

theorem blockAccesses_reverse (hfor : forIndices block = firstFor :: second :: others) :
    blockAccesses place taken (reverseForLoopOrderInPlace block) =
      blockAccesses place taken (block.take firstFor) ++
        markedFirst (fun a => a.home ∈ mustHoist block firstFor)
          (blockAccesses place taken (block.drop firstFor)) := by
  rw [reverse_eq hfor, blockAccesses_append, blockAccesses_append,
    ← blockAccesses_filter_not_isFor (swapPairs _ _), filter_not_swapPairs,
    blockAccesses_filter_not_isFor, blockAccesses_filter (fun id => decide (id ∈ _)),
    blockAccesses_filter (fun id => !decide (id ∈ _)), markedFirst]
  simp

end Accesses

/-- The statements stay, the loops are reversed and operands stay defined; loads keep their stores
if and only if no store of a load is left behind or moved past it. -/
theorem reverseForLoopOrder_keeps_iff {P : Type} [DecidableEq P] (b : Container) (place : ℕ → P)
    (taken : ℕ → Bool) : ((reverseForLoopOrderInPlace b.statements).Perm b.statements ∧
      (reverseForLoopOrderInPlace b.statements).filter Stmt.isFor =
        (b.statements.filter Stmt.isFor).reverse ∧
      (DefinedBeforeUse b.statements → DefinedBeforeUse (reverseForLoopOrderInPlace b.statements)) ∧
      SameReads (blockAccesses place taken b.statements)
        (blockAccesses place taken (reverseForLoopOrderInPlace b.statements))) ↔
      LoadsKept place taken b.statements := by
  have hnodup := b.nodup_ids
  have hreads : SameReads (blockAccesses place taken b.statements)
      (blockAccesses place taken (reverseForLoopOrderInPlace b.statements)) ↔
        LoadsKept place taken b.statements := by
    by_cases hfor : ∃ firstFor second others,
        forIndices b.statements = firstFor :: second :: others
    · obtain ⟨firstFor, second, others, hfor⟩ := hfor
      have honce := b.once place taken
      have hsplit : blockAccesses place taken b.statements =
          blockAccesses place taken (b.statements.take firstFor) ++
            blockAccesses place taken (b.statements.drop firstFor) := by
        rw [← blockAccesses_append, take_append_drop]
      rw [hsplit] at honce
      rw [blockAccesses_reverse hfor, hsplit, sameReads_markedFirst_iff honce]
      simp only [mem_mustHoist_iff]
      constructor
      · intro h firstFor' second' others' hfor'
        obtain ⟨rfl, rfl, rfl⟩ : firstFor = firstFor' ∧ second = second' ∧ others = others' := by
          rw [hfor] at hfor'
          simpa using hfor'
        exact h
      · exact fun h => h firstFor second others hfor
    · have hnone : ∀ firstFor second others,
          forIndices b.statements ≠ firstFor :: second :: others :=
        fun firstFor second others h => hfor ⟨firstFor, second, others, h⟩
      rw [reverse_eq_self hnone]
      exact iff_of_true (fun _ _ => Iff.rfl)
        fun firstFor second others h => absurd h (hnone firstFor second others)
  rw [hreads]
  exact ⟨fun h => h.2.2.2, fun h => ⟨reverse_perm b.statements, reverse_filter_isFor hnodup,
    reverse_definedBeforeUse hnodup, h⟩⟩

def lateStore : Container where
  statements := [.plain 0 .alloca, .plain 1 (.value []), .rangeFor 2 1 1 [], .plain 3 (.store 0 1),
    .plain 4 (.load 0), .rangeFor 5 1 4 []]
  nodup := by decide

theorem reverse_loses_store : DefinedBeforeUse lateStore.statements ∧
      ¬ SameReads (blockAccesses id (fun _ => true) lateStore.statements)
        (blockAccesses id (fun _ => true) (reverseForLoopOrderInPlace lateStore.statements)) := by
  constructor
  · constructor <;> simp [lateStore, Stmt.operands, Stmt.gathered, Stmt.id, Stmt.isPlain,
      Kind.operands, blockGathered, sublist_cons_iff]
  · intro h
    have hbefore : ReadsFrom (blockAccesses id (fun _ => true) lateStore.statements) 4 (some 3) :=
      ⟨[⟨3, 3, true, 0⟩], ⟨4, 4, false, 0⟩, [], rfl, rfl, rfl, rfl⟩
    have honce : Once (blockAccesses id (fun _ => true)
        (reverseForLoopOrderInPlace lateStore.statements)) :=
      ⟨by decide, by decide⟩
    have hafter : blockAccesses id (fun _ => true)
        (reverseForLoopOrderInPlace lateStore.statements) =
          [] ++ ⟨4, 4, false, 0⟩ :: [⟨3, 3, true, 0⟩] := by
      decide
    have hread := (honce.readsFrom_iff hafter rfl).1 ((h 4 (some 3)).1 hbefore)
    exact absurd hread (by decide)

end Result

end Quadrants.AutoDiff.ReverseSiblings
