import Quadrants.AdStack.LongestWalk
import Quadrants.Cfg.Coverage

/-!
The sizes that `determine_ad_stack_size` gives are exact on the graphs of structured
programs: over all walks whose count is not negative between two nodes.
-/

namespace Quadrants.AdStack.Capacity

open Quadrants.Cfg List
open Quadrants.Library
open Quadrants.Library.FlowGraph
open Quadrants.Library.Tarjan (tarjan tarjan_correct Reach)

section Counts

def delta (stack : Nat) : StackStmt → Int
  | .push s => if s = stack then 1 else 0
  | .pop s => if s = stack then -1 else 0
  | _ => 0

def net (stack : Nat) (stmts : List StackStmt) : Int := (stmts.map (delta stack)).sum

theorem net_cons (stack : Nat) (stmt : StackStmt) (stmts : List StackStmt) :
    net stack (stmt :: stmts) = delta stack stmt + net stack stmts := by
  simp [net]

theorem count_eq (stack : Nat) {sizes : Int × Int} (h : sizes.1 ≤ sizes.2) (stmt : StackStmt) :
    count stack sizes stmt =
      (sizes.1 + delta stack stmt, max sizes.2 (sizes.1 + delta stack stmt)) := by
  cases stmt with
  | push s =>
    simp only [count, delta]
    split_ifs <;> ext <;> dsimp only <;> omega
  | pop s =>
    simp only [count, delta]
    split_ifs <;> ext <;> dsimp only <;> omega
  | alloca s =>
    ext <;> simp only [count, delta] <;> omega
  | other =>
    ext <;> simp only [count, delta] <;> omega

theorem foldl_count (stack : Nat) (stmts : List StackStmt) (sizes : Int × Int)
    (h : sizes.1 ≤ sizes.2) : let r := stmts.foldl (count stack) sizes
    r.1 = sizes.1 + net stack stmts ∧ sizes.2 ≤ r.2 ∧
      (∀ pre, pre <+: stmts → sizes.1 + net stack pre ≤ r.2) ∧
      (r.2 = sizes.2 ∨ ∃ pre, pre <+: stmts ∧ sizes.1 + net stack pre = r.2) := by
  induction stmts generalizing sizes with
  | nil =>
    refine ⟨by simp [net], le_refl _, fun pre hpre => ?_, Or.inl rfl⟩
    rw [prefix_nil.mp hpre]
    simpa [net] using h
  | cons stmt stmts ih =>
    have heq := count_eq stack h stmt
    obtain ⟨h1, h2, h3, h4⟩ := ih (count stack sizes stmt) (by rw [heq]; exact le_max_right _ _)
    dsimp only at h1 h2 h3 h4 ⊢
    rw [foldl_cons]
    generalize stmts.foldl (count stack) (count stack sizes stmt) = r at h1 h2 h3 h4 ⊢
    rw [heq] at h1 h2 h3 h4
    dsimp only at h1 h2 h3 h4
    refine ⟨by rw [h1, net_cons]; omega, by omega, ?_, ?_⟩
    · intro pre hpre
      cases pre with
      | nil =>
        simp only [net, map_nil, sum_nil]
        omega
      | cons stmt' pre =>
        obtain ⟨rfl, htail⟩ := cons_prefix_cons.mp hpre
        have := h3 pre htail
        rw [net_cons]
        omega
    · rcases h4 with h4 | ⟨pre, hpre, h4⟩
      · rcases le_total sizes.2 (sizes.1 + delta stack stmt) with hle | hle
        · refine Or.inr ⟨[stmt], ?_, ?_⟩
          · exact cons_prefix_cons.mpr ⟨rfl, nil_prefix⟩
          · rw [h4, max_eq_right hle]
            simp [net]
        · exact Or.inl (by rw [h4, max_eq_left hle])
      · refine Or.inr ⟨stmt :: pre, cons_prefix_cons.mpr ⟨rfl, hpre⟩, ?_⟩
        rw [net_cons]
        omega

variable (g : Graph StackStmt) (stack : Nat)

theorem increasedSize_eq (u : Nat) : increasedSize g stack u = net stack (g.stmts u) := by
  have := (foldl_count stack (g.stmts u) (0, 0) (le_refl _)).1
  simpa [increasedSize] using this

theorem net_le_maxIncreasedSize {u : Nat} {pre : List StackStmt} (hpre : pre <+: g.stmts u) :
    net stack pre ≤ maxIncreasedSize g stack u := by
  have := (foldl_count stack (g.stmts u) (0, 0) (le_refl _)).2.2.1 pre hpre
  simpa [maxIncreasedSize] using this

theorem exists_net_eq_maxIncreasedSize (u : Nat) :
    ∃ pre, pre <+: g.stmts u ∧ net stack pre = maxIncreasedSize g stack u := by
  rcases (foldl_count stack (g.stmts u) (0, 0) (le_refl _)).2.2.2 with h | ⟨pre, hpre, h⟩
  · exact ⟨[], nil_prefix, by simp [net, maxIncreasedSize, h]⟩
  · exact ⟨pre, hpre, by simpa [maxIncreasedSize] using h⟩

end Counts

section Dedup

variable {g : Graph StackStmt}

variable {f : Fingerprint} {s stack t u : Nat}

theorem mem_fingerprint {is mis : Int} :
    (u, is, mis) ∈ fingerprint g stack ↔ u < g.size ∧ (is ≠ 0 ∨ mis ≠ 0) ∧
      is = increasedSize g stack u ∧ mis = maxIncreasedSize g stack u := by
  unfold fingerprint
  rw [mem_filterMap]
  constructor
  · rintro ⟨w, hw, heq⟩
    split at heq
    · rename_i hne
      obtain ⟨rfl, rfl, rfl⟩ : w = u ∧ increasedSize g stack w = is ∧
          maxIncreasedSize g stack w = mis := by simpa using heq
      exact ⟨mem_range.mp hw, hne, rfl, rfl⟩
    · exact absurd heq (by simp)
  · rintro ⟨hu, hne, rfl, rfl⟩
    exact ⟨u, mem_range.mpr hu, if_pos hne⟩

theorem stmts_of_size_le (hu : g.size ≤ u) : g.stmts u = [] := by
  have : g.nodes[u]? = none := List.getElem?_eq_none hu
  rw [Graph.stmts, this]

theorem rows_eq_of_fingerprint (h : fingerprint g s = fingerprint g t) :
    increasedSize g s = increasedSize g t ∧ maxIncreasedSize g s = maxIncreasedSize g t := by
  have hrow : ∀ u, increasedSize g s u = increasedSize g t u ∧
      maxIncreasedSize g s u = maxIncreasedSize g t u := by
    intro u
    by_cases hu : u < g.size
    · by_cases hs : increasedSize g s u ≠ 0 ∨ maxIncreasedSize g s u ≠ 0
      · have hmem := (mem_fingerprint (g := g)).mpr ⟨hu, hs, rfl, rfl⟩
        rw [h] at hmem
        exact (mem_fingerprint.mp hmem).2.2
      · by_cases ht : increasedSize g t u ≠ 0 ∨ maxIncreasedSize g t u ≠ 0
        · have hmem := (mem_fingerprint (g := g)).mpr ⟨hu, ht, rfl, rfl⟩
          rw [← h] at hmem
          have := (mem_fingerprint.mp hmem).2.2
          exact ⟨this.1.symm, this.2.symm⟩
        · omega
    · have hnil := stmts_of_size_le (not_lt.mp hu)
      simp [increasedSize, maxIncreasedSize, hnil]
  exact ⟨funext fun u => (hrow u).1, funext fun u => (hrow u).2⟩

theorem dpResult_eq_of_fingerprint (h : fingerprint g s = fingerprint g t) :
    dpResult g s = dpResult g t := by
  obtain ⟨h1, h2⟩ := rows_eq_of_fingerprint h
  unfold dpResult
  rw [h1, h2]

theorem lookup_append_of_some {r : Nat} {reps more : List (Fingerprint × Nat)}
    (h : reps.lookup f = some r) : (reps ++ more).lookup f = some r := by
  rw [lookup_append, h]
  rfl

theorem representatives_spec (found : List Nat) (hs : stack ∈ found)
    (hactive : stackActive g stack = true) : ∃ r,
      (representatives g found).lookup (fingerprint g stack) = some r ∧
        fingerprint g r = fingerprint g stack := by
  have hfold : ∀ (found : List Nat) (reps : List (Fingerprint × Nat)),
      (∀ f r, reps.lookup f = some r → fingerprint g r = f) →
      let all := found.foldl (fun reps s =>
        if stackActive g s = true ∧ (reps.lookup (fingerprint g s)).isNone = true then
          reps ++ [(fingerprint g s, s)]
        else reps) reps
      (∀ f r, reps.lookup f = some r → all.lookup f = some r) ∧
        (∀ f r, all.lookup f = some r → fingerprint g r = f) ∧
        ∀ s ∈ found, stackActive g s = true → (all.lookup (fingerprint g s)).isSome = true := by
    intro found
    induction found with
    | nil => exact fun reps hreps => ⟨fun _ _ h => h, hreps, by simp⟩
    | cons s rest ih =>
      intro reps hreps
      dsimp only
      rw [foldl_cons]
      split
      · rename_i hnew
        have hreps' : ∀ f r, (reps ++ [(fingerprint g s, s)]).lookup f = some r →
            fingerprint g r = f := by
          intro f r hr
          rw [lookup_append] at hr
          cases hf : reps.lookup f with
          | some r' =>
            rw [hf] at hr
            exact hreps f r (by rw [hf]; exact hr)
          | none =>
            rw [hf] at hr
            simp only [Option.none_or, lookup_cons, lookup_nil] at hr
            split at hr
            · rename_i hbeq
              rw [← Option.some.inj hr]
              exact (beq_iff_eq.mp hbeq).symm
            · exact absurd hr (by simp)
        obtain ⟨h1, h2, h3⟩ := ih _ hreps'
        refine ⟨fun f r hr => h1 f r (lookup_append_of_some hr), h2, fun t ht hact => ?_⟩
        rcases mem_cons.mp ht with rfl | ht
        · have hself : (reps ++ [(fingerprint g t, t)]).lookup (fingerprint g t) = some t := by
            rw [lookup_append, Option.isNone_iff_eq_none.mp hnew.2]
            simp
          rw [h1 _ _ hself]
          rfl
        · exact h3 t ht hact
      · rename_i hold
        obtain ⟨h1, h2, h3⟩ := ih _ hreps
        refine ⟨h1, h2, fun t ht hact => ?_⟩
        rcases mem_cons.mp ht with rfl | ht
        · have hsome : (reps.lookup (fingerprint g t)).isSome = true := by
            by_contra hnone
            have heq := Option.not_isSome_iff_eq_none.mp hnone
            exact hold ⟨hact, Option.isNone_iff_eq_none.mpr heq⟩
          obtain ⟨r, hr⟩ := Option.isSome_iff_exists.mp hsome
          rw [h1 _ r hr]
          rfl
        · exact h3 t ht hact
  obtain ⟨-, h2, h3⟩ := hfold found [] (by simp)
  obtain ⟨r, hr⟩ := Option.isSome_iff_exists.mp (h3 stack hs hactive)
  exact ⟨r, hr, h2 _ r hr⟩

theorem lookup_map_snd (reps : List (Fingerprint × Nat)) (d : Nat → Option Int) :
    (reps.map fun r => (r.1, d r.2)).lookup f = (reps.lookup f).map d := by
  induction reps with
  | nil => rfl
  | cons r reps ih =>
    rw [map_cons, lookup_cons, lookup_cons, ih]
    split <;> rfl

theorem outcome_eq (found : List Nat) (hs : stack ∈ found) (hactive : stackActive g stack = true) :
    outcome g ((representatives g found).map fun r => (r.1, dpResult g r.2)) stack =
      match dpResult g stack with
      | some m => .sized m
      | none => .positiveLoop := by
  obtain ⟨r, hr, hfp⟩ := representatives_spec found hs hactive
  rw [outcome, if_pos hactive, lookup_map_snd, hr, Option.map_some, dpResult_eq_of_fingerprint hfp]
  cases dpResult g stack <;> rfl

end Dedup

section Stacks

variable {g : Graph StackStmt}

variable (maxSize : Nat → Nat)

theorem adaptiveStacks_nodup : (adaptiveStacks g maxSize).Nodup := by
  unfold adaptiveStacks
  refine foldlRecOn (motive := Nodup) _ _ nodup_nil fun found h stmt _ => ?_
  cases stmt with
  | alloca s =>
    dsimp only
    split
    · exact h
    · split
      · exact h
      · rename_i hnew
        rw [nodup_append]
        refine ⟨h, nodup_singleton s, fun a ha b hb => ?_⟩
        rw [mem_singleton.mp hb]
        rintro rfl
        exact hnew ha
  | _ => exact h

variable {stack : Nat}

theorem assignSizes_of_not_mem
    (outcomes : List (Nat × Outcome)) (hs : stack ∉ outcomes.map Prod.fst) :
    assignSizes maxSize outcomes stack = maxSize stack := by
  unfold assignSizes
  induction outcomes generalizing maxSize with
  | nil => rfl
  | cons o rest ih =>
    rw [map_cons, mem_cons, not_or] at hs
    rw [foldl_cons, ih _ hs.2]
    obtain ⟨s, o⟩ := o
    cases o with
    | sized m => exact Function.update_of_ne hs.1 _ _
    | unused => rfl
    | positiveLoop => rfl

theorem assignSizes_of_mem {m : Int}
    (outcomes : List (Nat × Outcome)) (hnd : (outcomes.map Prod.fst).Nodup)
    (hs : (stack, Outcome.sized m) ∈ outcomes) : assignSizes maxSize outcomes stack = m.toNat := by
  induction outcomes generalizing maxSize with
  | nil => exact absurd hs not_mem_nil
  | cons o rest ih =>
    rw [map_cons, nodup_cons] at hnd
    rcases mem_cons.mp hs with rfl | hs
    · have hrest := assignSizes_of_not_mem (Function.update maxSize stack m.toNat) rest hnd.1
      rw [Function.update_self] at hrest
      exact hrest
    · exact ih _ hnd.2 hs

theorem net_eq_zero_of_not_active (h : stackActive g stack = false) (u : Nat) :
    net stack (g.stmts u) = 0 := by
  have hmem : ∀ stmt ∈ g.stmts u, stmt ≠ .push stack ∧ stmt ≠ .pop stack := by
    intro stmt hstmt
    unfold stackActive at h
    rw [any_eq_false] at h
    have hin : stmt ∈ statements g := by
      unfold Graph.stmts at hstmt
      split at hstmt
      · rename_i node hnode
        exact mem_flatMap.mpr ⟨node, mem_of_getElem? hnode, hstmt⟩
      · exact absurd hstmt not_mem_nil
    simpa using h stmt hin
  unfold net
  apply sum_eq_zero
  intro d hd
  obtain ⟨stmt, hstmt, rfl⟩ := mem_map.mp hd
  have := hmem stmt hstmt
  cases stmt with
  | push s =>
    have hne : s ≠ stack := by rintro rfl; exact this.1 rfl
    simp [delta, hne]
  | pop s =>
    have hne : s ≠ stack := by rintro rfl; exact this.2 rfl
    simp [delta, hne]
  | _ => rfl

end Stacks

/-- A stack is left for having a positive loop exactly when a gaining cycle can be
walked, or when some cycle's component gains and never loses; otherwise its size is the
largest count of all walks. -/
theorem determineAdStackSize_exact {κ : Type} (root : List (TopStmt StackStmt κ))
    (maxSize : Nat → Nat) (outcomes : List (Nat × Outcome))
    (h : determineAdStackSize (Graph.build root) maxSize = some outcomes) (stack : Nat)
    (o : Outcome) (hs : (stack, o) ∈ outcomes) : let g := Graph.build root
    let inc := fun u => net stack (g.stmts u)
    (o = .positiveLoop ↔ PositiveCycle g.next inc ∨ Gaining g.next inc) ∧
      ∀ m, o = .sized m →
        (∀ u c, Reaches g.next inc u c → ∀ pre, pre <+: g.stmts u → c + net stack pre ≤ m) ∧
        (∃ u c pre, Reaches g.next inc u c ∧ pre <+: g.stmts u ∧ c + net stack pre = m) ∧
        assignSizes maxSize outcomes stack = m.toNat := by
  dsimp only
  unfold determineAdStackSize at h
  split at h
  swap
  · exact absurd h (by simp)
  have houtcomes := Option.some.inj h
  have hmem := hs
  rw [← houtcomes] at hmem
  obtain ⟨stack', hfound, heq⟩ := mem_map.mp hmem
  obtain ⟨rfl, ho⟩ := Prod.mk.inj heq
  have hnd : (outcomes.map Prod.fst).Nodup := by
    rw [← houtcomes, map_map]
    simpa [Function.comp_def] using adaptiveStacks_nodup (g := Graph.build root) maxSize
  generalize hg : Graph.build root = g at *
  have hinc : (fun u => net stack' (g.stmts u)) = increasedSize g stack' :=
    funext fun u => (increasedSize_eq g stack' u).symm
  cases hactive : stackActive g stack' with
  | false =>
    rw [outcome, if_neg (by rw [hactive]; simp)] at ho
    have hzero := net_eq_zero_of_not_active hactive
    subst ho
    refine ⟨⟨fun hc => absurd hc (by simp), ?_⟩, fun m hm => absurd hm (by simp)⟩
    rintro (hcyc | ⟨u, hpos, -⟩)
    · refine absurd hcyc (not_positiveCycle_of_closed (b := fun _ => 0) (le_refl _) ?_)
      intro u v _ _
      rw [hzero u]
      omega
    · change 0 < net stack' (g.stmts u) at hpos
      rw [hzero u] at hpos
      omega
  | true =>
    rw [outcome_eq _ hfound hactive] at ho
    have hclosed : ∀ u, ∀ v ∈ g.next u, v < g.size := by
      rw [← hg]
      exact Graph.next_lt root
    have hred : Reducible g.next := by
      rw [← hg]
      exact Graph.build_reducible root
    have hpos : 0 < g.size := by
      rw [← hg]
      exact Graph.size_pos root
    have hexact := @longestWalk_exact g.next (increasedSize g stack')
      (maxIncreasedSize g stack') g.size (tarjan g.next g.size) hclosed (tarjan_correct hclosed)
      hred hpos
    rw [hinc]
    unfold dpResult at ho
    dsimp only at ho
    cases hp : longestWalk (increasedSize g stack') g.next (tarjan g.next g.size)
        (maxIncreasedSize g stack') (tarjan g.next g.size).components with
    | none =>
      rw [hp] at hexact ho
      rw [← ho]
      exact ⟨⟨fun _ => hexact.symm, fun _ => rfl⟩, fun m hm => absurd hm (by simp)⟩
    | some p =>
      rw [hp] at hexact ho
      obtain ⟨hgain, hcyc, hnn, hbound, hattain⟩ := hexact
      subst ho
      refine ⟨⟨fun hc => absurd hc (by simp), ?_⟩, ?_⟩
      · rintro (hc | hc)
        · exact absurd hc hcyc
        · exact absurd hc hgain
      · intro m hm
        obtain rfl : p.maxSize = m := by simpa using hm
        refine ⟨fun u c hr pre hpre => ?_, ?_, assignSizes_of_mem maxSize outcomes hnd hs⟩
        · have h1 := hbound u c hr
          have h2 := net_le_maxIncreasedSize g stack' hpre
          omega
        · rcases hattain with hzero | ⟨u, c, hr, heq⟩
          · exact ⟨0, 0, [], Relation.ReflTransGen.refl, nil_prefix, by simp [net, hzero]⟩
          · obtain ⟨pre, hpre, hpeak⟩ := exists_net_eq_maxIncreasedSize g stack' u
            exact ⟨u, c, pre, hr, hpre, by rw [hpeak, heq]⟩

def loopKernel : List (TopStmt StackStmt Unit) :=
  [.stmt (.simple (.alloca 0)), .stmt (.simple (.push 0)),
    .stmt (.forStmt () (.cons (.simple (.push 0)) (.cons (.simple (.pop 0)) .nil)))]

theorem determineAdStackSize_exact_loop :
    determineAdStackSize (Graph.build loopKernel) (fun _ => 0) = some [(0, .sized 2)] ∧
      ∃ u c pre, Reaches (Graph.build loopKernel).next
          (fun u => net 0 ((Graph.build loopKernel).stmts u)) u c ∧
        pre <+: (Graph.build loopKernel).stmts u ∧ c + net 0 pre = 2 :=
  have hrun : determineAdStackSize (Graph.build loopKernel) (fun _ => 0) = some [(0, .sized 2)] := by
    decide +kernel
  ⟨hrun, ((determineAdStackSize_exact loopKernel _ _ hrun 0 (.sized 2) (by simp)).2 2 rfl).2.1⟩

section Runs

variable {κ : Type} {root : List (TopStmt StackStmt κ)} {maxSize : Nat → Nat}
  {outcomes : List (Nat × Outcome)} {stack u : Nat} {m : Int} {t : List StackStmt}

/-- The count of a stack along a run; an alloca initialises it again. -/
def depth (stack : Nat) (t : List StackStmt) : Int :=
  t.foldl (fun d stmt => if stmt = .alloca stack then 0 else d + delta stack stmt) 0

theorem net_append (t t' : List StackStmt) :
    net stack (t ++ t') = net stack t + net stack t' := by
  simp [net]

theorem depth_le_net (hnn : ∀ pre, pre <+: t → 0 ≤ depth stack pre) :
    0 ≤ depth stack t ∧ depth stack t ≤ net stack t := by
  refine ⟨hnn t (prefix_refl t), ?_⟩
  induction t using reverseRecOn with
  | nil => simp [depth, net]
  | append_singleton t stmt ih =>
    have hpre := prefix_append t [stmt]
    have hle := ih fun pre h => hnn pre (h.trans hpre)
    have h0 := hnn t hpre
    have hnil : net stack [] = 0 := rfl
    rw [net_append, net_cons, depth, foldl_append, foldl_cons, foldl_nil, ← depth]
    split
    · rename_i halloca
      have : delta stack stmt = 0 := by rw [halloca]; rfl
      omega
    · omega

theorem net_le_of_sized (h : determineAdStackSize (Graph.build root) maxSize = some outcomes)
    (hs : (stack, .sized m) ∈ outcomes) : let g := Graph.build root
    (∀ u c, Reaches g.next (increasedSize g stack) u c → ∀ pre, pre <+: g.stmts u →
      c + net stack pre ≤ m) ∧ assignSizes maxSize outcomes stack = m.toNat := by
  intro g
  unfold determineAdStackSize at h
  split at h
  swap
  · exact absurd h (by simp)
  have houtcomes := Option.some.inj h
  have hnd : (outcomes.map Prod.fst).Nodup := by
    rw [← houtcomes, map_map]
    simpa [Function.comp_def] using adaptiveStacks_nodup (g := g) maxSize
  refine ⟨fun u c hr pre hpre => ?_, assignSizes_of_mem maxSize outcomes hnd hs⟩
  rw [← houtcomes] at hs
  obtain ⟨s, hfound, heq⟩ := mem_map.mp hs
  obtain ⟨rfl, ho⟩ := Prod.mk.inj heq
  cases hactive : stackActive g s with
  | false =>
    rw [outcome, if_neg (by rw [hactive]; simp)] at ho
    exact absurd ho (by simp)
  | true =>
    rw [outcome_eq _ hfound hactive] at ho
    have hexact := @longestWalk_exact g.next (increasedSize g s) (maxIncreasedSize g s) g.size
      (tarjan g.next g.size) (Graph.next_lt root) (tarjan_correct (Graph.next_lt root))
      (Graph.build_reducible root) (Graph.size_pos root)
    unfold dpResult at ho
    dsimp only at ho
    cases hp : longestWalk (increasedSize g s) g.next (tarjan g.next g.size)
        (maxIncreasedSize g s) (tarjan g.next g.size).components with
    | none =>
      rw [hp] at ho
      exact absurd ho (by simp)
    | some p =>
      rw [hp] at hexact ho
      obtain rfl : p.maxSize = m := by simpa using ho
      have h1 := hexact.2.2.2.1 u c hr
      have h2 := net_le_maxIncreasedSize g s hpre
      omega

theorem walk_of_runs (hr : rootRuns root t) :
    (Graph.build root).Walk (Graph.build root).finalNode t := by
  have hat : Builder.At (Graph.build root) Builder.start [] := by
    refine Builder.At.of_walk ?_ (Or.inl (mem_singleton_self 0)) rfl
    rw [← Graph.stmts_startNode root]
    exact Graph.Walk.start
  have hend := Builder.foldl_visitTop_covers root Builder.start_good (Graph.inside_start root).1
    hat hr
  exact Graph.walk_finalNode (Builder.newNode_walk (Graph.build_inside root) hend)

theorem reaches_of_walk {g : Graph StackStmt} (hw : g.Walk u t)
    (hbound : ∀ u c, Reaches g.next (increasedSize g stack) u c → ∀ pre, pre <+: g.stmts u →
      c + net stack pre ≤ m) (hnn : ∀ pre, pre <+: t → 0 ≤ net stack pre) :
    ∃ t0, t = t0 ++ g.stmts u ∧ Reaches g.next (increasedSize g stack) u (net stack t0) ∧
      ∀ pre, pre <+: t → net stack pre ≤ m := by
  induction hw with
  | start =>
    refine ⟨[], rfl, Relation.ReflTransGen.refl, fun pre hpre => ?_⟩
    have := hbound 0 0 Relation.ReflTransGen.refl pre hpre
    omega
  | @step u v t _ hv ih =>
    have hprefix := prefix_append t (g.stmts v)
    obtain ⟨t0, rfl, hr, hle⟩ := ih fun pre hpre => hnn pre (hpre.trans hprefix)
    have hreach : Reaches g.next (increasedSize g stack) v (net stack (t0 ++ g.stmts u)) := by
      refine hr.tail ⟨hv, ?_, hnn _ hprefix⟩
      rw [net_append, increasedSize_eq]
    refine ⟨_, rfl, hreach, fun pre hpre => ?_⟩
    rcases prefix_or_prefix_of_prefix hpre hprefix with hin | ⟨s, rfl⟩
    · exact hle pre hin
    · rw [net_append]
      exact hbound v _ hreach s ((prefix_append_right_inj _).mp hpre)

end Runs

section Statements

variable (g : Graph StackStmt) (stack : Nat)

def NeverNegative (c : Int) (stmts : List StackStmt) : Prop :=
  ∀ pre, pre <+: stmts → 0 ≤ c + net stack pre

def StrictMove (x y : Nat × Int) : Prop :=
  y.1 ∈ g.next x.1 ∧ y.2 = x.2 + net stack (g.stmts x.1) ∧ NeverNegative stack x.2 (g.stmts x.1)

def StrictWalks : Nat × Int → Nat × Int → Prop := Relation.ReflTransGen (StrictMove g stack)

/-- Exactness over the walks whose count is not negative after any statement. -/
def StrictlyExact (o : Outcome) : Prop :=
  (o = .positiveLoop ↔ ∃ v c d, StrictWalks g stack (0, 0) (v, c) ∧
    StrictWalks g stack (v, c) (v, d) ∧ c < d) ∧
  ∀ m, o = .sized m →
    (∀ u c pre, StrictWalks g stack (0, 0) (u, c) → pre <+: g.stmts u →
      NeverNegative stack c pre → c + net stack pre ≤ m) ∧
    (m ≤ 1 ∨ ∃ u c pre, StrictWalks g stack (0, 0) (u, c) ∧ pre <+: g.stmts u ∧
      NeverNegative stack c pre ∧ c + net stack pre = m)

end Statements

def popFirst : List (TopStmt StackStmt Unit) :=
  [.stmt (.simple (.alloca 0)), .stmt (.simple (.pop 0)), .stmt (.simple (.push 0)),
    .stmt (.simple (.push 0)), .stmt (.simple (.push 0))]

def deadPush : List (TopStmt StackStmt Unit) :=
  [.stmt (.simple (.alloca 0)), .stmt (.forStmt () (.cons .continueStmt
      (.cons (.forStmt () (.cons (.simple (.push 0)) .nil)) .nil)))]

variable {x : Nat × Int}

theorem popFirst_walks
    (h : StrictWalks (Graph.build popFirst) 0 (0, 0) x) : x = (0, 0) ∨ x = (1, 0) := by
  induction h with
  | refl => exact Or.inl rfl
  | @tail y z _ hyz ih =>
    obtain ⟨hmem, hcount, hnn⟩ := hyz
    rcases ih with rfl | rfl
    · have hnext : (Graph.build popFirst).next 0 = [1] := by decide +kernel
      have hnet : net 0 ((Graph.build popFirst).stmts 0) = 0 := by decide +kernel
      dsimp only at hmem hcount
      rw [hnext, mem_singleton] at hmem
      rw [hnet] at hcount
      exact Or.inr (Prod.ext hmem hcount)
    · have hpre : [StackStmt.alloca 0, .pop 0] <+: (Graph.build popFirst).stmts 1 := by
        decide +kernel
      have := hnn _ hpre
      exact absurd this (by decide)

theorem deadPush_walks
    (h : StrictWalks (Graph.build deadPush) 0 (0, 0) x) : x.1 ∈ [0, 1, 2, 6] ∧ x.2 = 0 := by
  have hstep : ∀ u ∈ [0, 1, 2, 6], net 0 ((Graph.build deadPush).stmts u) = 0 ∧
      ∀ v ∈ (Graph.build deadPush).next u, v ∈ [0, 1, 2, 6] := by
    decide +kernel
  induction h with
  | refl => exact ⟨by simp, rfl⟩
  | @tail y z _ hyz ih =>
    obtain ⟨hmem, hcount, -⟩ := hyz
    obtain ⟨hnet, hnext⟩ := hstep y.1 ih.1
    refine ⟨hnext z.1 hmem, ?_⟩
    rw [hcount, hnet, ih.2]
    rfl

/-- Counting within a node happens without regard to the sign, and the first fast path
without regard to reachability. -/
theorem determineAdStackSize_not_strictlyExact :
    (determineAdStackSize (Graph.build popFirst) (fun _ => 0) = some [(0, .sized 2)] ∧
      ¬ StrictlyExact (Graph.build popFirst) 0 (.sized 2)) ∧
    determineAdStackSize (Graph.build deadPush) (fun _ => 0) = some [(0, .positiveLoop)] ∧
      ¬ StrictlyExact (Graph.build deadPush) 0 .positiveLoop := by
  refine ⟨⟨by decide +kernel, fun h => ?_⟩, by decide +kernel, fun h => ?_⟩
  · obtain ⟨-, hle | ⟨u, c, pre, hwalk, hpre, hnn, hnet⟩⟩ := h.2 2 rfl
    · omega
    · have hnode : ∀ u ∈ [0, 1], ∀ pre ∈ ((Graph.build popFirst).stmts u).inits,
          net 0 pre = 2 → ∃ pre' ∈ pre.inits, net 0 pre' < 0 := by
        decide +kernel
      have huc : u ∈ [0, 1] ∧ c = 0 := by
        rcases popFirst_walks hwalk with heq | heq
        · obtain ⟨rfl, rfl⟩ := Prod.mk.inj heq
          exact ⟨by simp, rfl⟩
        · obtain ⟨rfl, rfl⟩ := Prod.mk.inj heq
          exact ⟨by simp, rfl⟩
      obtain ⟨hu, rfl⟩ := huc
      obtain ⟨pre', hpre', hneg⟩ := hnode u hu pre ((mem_inits _ _).mpr hpre) (by omega)
      have := hnn pre' ((mem_inits _ _).mp hpre')
      omega
  · obtain ⟨v, c, d, hwalk, hcycle, hlt⟩ := h.1.mp rfl
    have hc := (deadPush_walks hwalk).2
    have hd := (deadPush_walks (hwalk.trans hcycle)).2
    dsimp only at hc hd
    omega

end Quadrants.AdStack.Capacity
