import Quadrants.Graph.DoWhileDriver
import Mathlib.Data.List.Perm.Subperm

namespace Quadrants.Graph

open Library.CallTrace List

section Paths

variable {levels : List GraphDoWhileLevel} {env : Environment Call} {calls : List Call}

/-- The loops around a position whose innermost level is `c`, from the inside out. -/
def PathTo (levels : List GraphDoWhileLevel) : ℤ → List ℕ → Prop
  | c, [] => c = -1
  | c, level :: path =>
    c = level ∧ ∃ parentId, levels[level]? = some ⟨parentId⟩ ∧ PathTo levels parentId path

variable {c : ℤ} {child : ℕ} {inner outer path : List ℕ}

theorem PathTo.unique {c' : ℤ} (h : PathTo levels c path)
    (h' : PathTo levels c' path) : c = c' := by
  cases path with
  | nil => exact h.trans h'.symm
  | cons level path => exact h.1.trans h'.1.symm

theorem PathTo.lt_length (h : PathTo levels c path) : ∀ level ∈ path, level < levels.length := by
  induction path generalizing c with
  | nil => exact fun _ hmem => absurd hmem not_mem_nil
  | cons level path ih =>
    obtain ⟨-, parentId, hlevel, hpath⟩ := h
    intro level' hmem
    rcases mem_cons.mp hmem with rfl | hmem
    · exact (List.getElem?_eq_some_iff.mp hlevel).1
    · exact ih hpath level' hmem

theorem PathTo.length_le (h : PathTo levels c path) (hnodup : path.Nodup) :
    path.length ≤ levels.length := by
  have hsubset : path ⊆ List.range levels.length :=
    fun level hmem => mem_range.mpr (h.lt_length level hmem)
  calc path.length ≤ (List.range levels.length).length :=
        (subperm_of_subset hnodup hsubset).length_le
    _ = levels.length := length_range

theorem levelAt_eq {level : ℕ} {entry : GraphDoWhileLevel} (h : levels[level]? = some entry) :
    levelAt levels level env calls = .done entry calls := by
  unfold levelAt
  rw [Int.toNat_natCast, h]
  rfl

theorem isDescendantOrSelf_eq {ancestor : ℕ} (h : PathTo levels c path)
    {steps : ℕ} (hsteps : path.length ≤ steps) :
    isDescendantOrSelf levels ancestor steps c env calls =
      .done (decide (ancestor ∈ path)) calls := by
  induction path generalizing c steps with
  | nil =>
    unfold isDescendantOrSelf
    rw [if_pos (show c = -1 from h)]
    rfl
  | cons level path ih =>
    obtain ⟨rfl, parentId, hlevel, hpath⟩ := h
    unfold isDescendantOrSelf
    rw [if_neg (by omega)]
    rcases eq_or_ne level ancestor with rfl | hne
    · simp
    · obtain ⟨steps, rfl⟩ := Nat.exists_eq_succ_of_ne_zero
        (Nat.ne_of_gt (Nat.lt_of_lt_of_le (Nat.succ_pos _) hsteps))
      rw [if_neg (by omega)]
      simp only [Calls.bind_apply, levelAt_eq hlevel]
      rw [ih hpath (Nat.le_of_succ_le_succ hsteps)]
      simp [hne.symm]

theorem PathTo.exists_mem
    (h : PathTo levels c (inner ++ child :: outer)) : ∃ level ∈ inner ++ [child], c = level := by
  cases inner with
  | nil => exact ⟨child, mem_singleton_self child, h.1⟩
  | cons level inner => exact ⟨level, mem_cons_self, h.1⟩

theorem PathTo.ne_of_inside {parentId : ℤ}
    (h : PathTo levels c (inner ++ child :: outer)) (hparent : PathTo levels parentId outer)
    (hnodup : (inner ++ child :: outer).Nodup) : c ≠ parentId := by
  obtain ⟨level, hmem, rfl⟩ := h.exists_mem
  cases outer with
  | nil =>
    obtain rfl : parentId = -1 := hparent
    omega
  | cons level' outer =>
    obtain rfl : parentId = level' := hparent.1
    intro heq
    obtain rfl := Int.ofNat.inj heq
    rw [append_cons] at hnodup
    exact (nodup_append.mp hnodup).2.2 level hmem level mem_cons_self rfl

theorem childOf_eq {parentId : ℤ}
    (h : PathTo levels c (inner ++ child :: outer)) (hparent : PathTo levels parentId outer)
    (hnodup : (inner ++ child :: outer).Nodup) {steps : ℕ} (hsteps : inner.length ≤ steps) :
    childOf levels parentId steps c env calls = .done (child : ℤ) calls := by
  induction inner generalizing c steps with
  | nil =>
    obtain ⟨rfl, parentId', hlevel, hpath⟩ := h
    rw [childOf]
    simp only [Calls.bind_apply, levelAt_eq hlevel]
    rw [if_pos (hpath.unique hparent)]
    rfl
  | cons level inner ih =>
    obtain ⟨rfl, next, hlevel, hpath⟩ := h
    obtain ⟨steps, rfl⟩ := Nat.exists_eq_succ_of_ne_zero
      (Nat.ne_of_gt (Nat.lt_of_lt_of_le (Nat.succ_pos _) hsteps))
    have hnodup' := (nodup_cons.mp hnodup).2
    rw [childOf]
    simp only [Calls.bind_apply, levelAt_eq hlevel]
    rw [if_neg (hpath.ne_of_inside hparent hnodup')]
    exact ih hpath hnodup' (Nat.le_of_succ_le_succ hsteps)

end Paths

namespace Program

variable {levels : List GraphDoWhileLevel}

variable (p : Program)

@[simp] theorem length_taskLevelIds (parentId : ℤ) :
    (p.taskLevelIds parentId).length = p.numTasks := by
  induction p generalizing parentId with
  | done => rfl
  | task rest ih => simp [taskLevelIds, numTasks, ih]
  | loop level body rest ihbody ihrest => simp [taskLevelIds, numTasks, ihbody, ihrest]

variable {p : Program}

theorem exists_path {parentId : ℤ} {outer : List ℕ} (hnests : p.Nests levels parentId)
    (hpath : PathTo levels parentId outer) {c : ℤ} (hmem : c ∈ p.taskLevelIds parentId) :
    ∃ inner : List ℕ, inner.reverse.Sublist p.loops ∧ PathTo levels c (inner ++ outer) := by
  induction p generalizing parentId outer with
  | done => exact absurd hmem not_mem_nil
  | task rest ih =>
    rcases mem_cons.mp hmem with rfl | hmem
    · exact ⟨[], nil_sublist _, hpath⟩
    · exact ih hnests hpath hmem
  | loop level body rest ihbody ihrest =>
    obtain ⟨hlevel, hbody, hrest⟩ := hnests
    rcases mem_append.mp hmem with hmem | hmem
    · have hinside : PathTo levels level (level :: outer) := ⟨rfl, parentId, hlevel, hpath⟩
      obtain ⟨inner, hsub, hinner⟩ := ihbody hbody hinside hmem
      refine ⟨inner ++ [level], ?_, by rwa [append_assoc]⟩
      rw [reverse_append]
      exact (hsub.cons_cons level).trans (sublist_append_left _ _)
    · obtain ⟨inner, hsub, hinner⟩ := ihrest hrest hpath hmem
      exact ⟨inner, hsub.trans (sublist_append_right _ _), hinner⟩

theorem nodup_of_sublist {loops inner outer : List ℕ} (hnodup : (loops ++ outer).Nodup)
    (hsub : inner.reverse.Sublist loops) : (inner ++ outer).Nodup := by
  have hnodup' : (inner.reverse ++ outer).Nodup :=
    hnodup.sublist (hsub.append (List.Sublist.refl outer))
  exact (inner.reverse_perm.append_right outer).nodup_iff.mp hnodup'

@[simp] theorem prune_numTasks : p.prune.numTasks = p.numTasks := by
  induction p with
  | done => rfl
  | task rest ih => simp [prune, numTasks, ih]
  | loop level body rest ihbody ihrest =>
    rw [prune]
    split
    · rename_i hempty
      rw [ihrest, numTasks, hempty, Nat.zero_add]
    · rw [numTasks, numTasks, ihbody, ihrest]

theorem taskLevelIds_eq_nil (h : p.numTasks = 0) (parentId : ℤ) : p.taskLevelIds parentId = [] := by
  rw [← length_eq_zero_iff, length_taskLevelIds, h]

@[simp] theorem prune_taskLevelIds (parentId : ℤ) :
    p.prune.taskLevelIds parentId = p.taskLevelIds parentId := by
  induction p generalizing parentId with
  | done => rfl
  | task rest ih => simp [prune, taskLevelIds, ih]
  | loop level body rest ihbody ihrest =>
    rw [prune]
    split
    · rename_i hempty
      rw [ihrest, taskLevelIds, taskLevelIds_eq_nil hempty, nil_append]
    · rw [taskLevelIds, taskLevelIds, ihbody, ihrest]

theorem prune_loops_sublist : p.prune.loops.Sublist p.loops := by
  induction p with
  | done => exact List.Sublist.refl _
  | task rest ih => exact ih
  | loop level body rest ihbody ihrest =>
    rw [prune]
    split
    · exact ihrest.trans (sublist_append_right _ _)
    · exact (ihbody.cons_cons level).append ihrest

theorem prune_nests {parentId : ℤ} (h : p.Nests levels parentId) :
    p.prune.Nests levels parentId := by
  induction p generalizing parentId with
  | done => trivial
  | task rest ih => exact ih h
  | loop level body rest ihbody ihrest =>
    rw [prune]
    split
    · exact ihrest h.2.2
    · exact ⟨h.1, ihbody h.2.1, ihrest h.2.2⟩

theorem prune_depth_le : p.prune.depth ≤ p.depth := by
  induction p with
  | done => exact Nat.le_refl 0
  | task rest ih => exact ih
  | loop level body rest ihbody ihrest =>
    rw [prune]
    split
    · rw [depth]
      omega
    · rw [depth, depth]
      omega

theorem prune_everyLoopHasTask : p.prune.EveryLoopHasTask := by
  induction p with
  | done => trivial
  | task rest ih => exact ih
  | loop level body rest ihbody ihrest =>
    rw [prune]
    split
    · exact ihrest
    · exact ⟨by rw [prune_numTasks]; omega, ihbody, ihrest⟩

theorem prune_eq_self (h : p.EveryLoopHasTask) : p.prune = p := by
  induction p with
  | done => rfl
  | task rest ih => rw [prune, ih h]
  | loop level body rest ihbody ihrest =>
    rw [prune, if_neg (Nat.ne_of_gt h.1), ihbody h.2.1, ihrest h.2.2]

section Exec

variable {env : Environment Call} {I F C : List Call → Prop}

theorem exec_ensures (hlaunch : ∀ calls task, I calls →
      if env.answer (calls ++ [.launchTask task]) then I (calls ++ [.launchTask task])
      else F (calls ++ [.launchTask task]))
    (hcontinue : ∀ calls level, I calls → I (calls ++ [.continueLevel level]))
    (hcut : ∀ calls, I calls → env.budget ≤ calls.length → C calls) (p : Program) (first : ℕ) :
    Ensures env I (p.exec first) (fun finished => if finished then I else F) C := by
  induction p generalizing first with
  | done => exact Ensures.pure fun calls hcalls => hcalls
  | task rest ih =>
    refine Ensures.bind (Q := fun launched => if launched then I else F) ?_ fun launched => ?_
    · apply Ensures.perform
      · intro calls hcalls
        have h := hlaunch calls first hcalls
        cases hanswer : env.answer (calls ++ [.launchTask first]) with
        | true => rwa [hanswer] at h
        | false => rwa [hanswer] at h
      · exact hcut
    · cases launched with
      | true => exact ih (first + 1)
      | false => exact Ensures.pure fun calls hcalls => hcalls
  | loop level body rest ihbody ihrest =>
    refine Ensures.bind (Q := fun finished => if finished then I else F) ?_ fun finished => ?_
    · intro calls hcalls
      exact Ensures.doWhile (ihbody first) (fun calls => hcontinue calls level) hcut
        (env.budget + 1) calls ⟨hcalls, by omega⟩
    · cases finished with
      | true => exact ihrest _
      | false => exact Ensures.pure fun calls hcalls => hcalls

end Exec

end Program

section Simulation

variable {ids : List ℤ} {levels : List GraphDoWhileLevel} {env : Environment Call}

theorem taskLevelAt_eq {cursor : ℕ} {c : ℤ} {rest : List ℤ} {calls : List Call}
    (h : (c :: rest) <+: ids.drop cursor) : taskLevelAt ids cursor env calls = .done c calls := by
  have hget : ids[cursor]? = some c := by
    have hzero := prefix_iff_getElem?.mp h 0 (Nat.succ_pos _)
    rwa [List.getElem?_drop] at hzero
  unfold taskLevelAt
  rw [hget]
  rfl

theorem prefix_drop_of_append {front back : List ℤ} {cursor : ℕ}
    (h : (front ++ back) <+: ids.drop cursor) :
    front <+: ids.drop cursor ∧ back <+: ids.drop (cursor + front.length) := by
  refine ⟨(prefix_append front back).trans h, ?_⟩
  obtain ⟨tail, htail⟩ := h
  refine ⟨tail, ?_⟩
  rw [← drop_drop, ← htail, append_assoc, drop_left]

theorem findRunEnd_eq {child : ℕ} {inside outside : List ℤ} {last cursor : ℕ} {calls : List Call}
    (hids : (inside ++ outside) <+: ids.drop cursor)
    (hlast : cursor + inside.length + outside.length = last)
    (hinside : ∀ c ∈ inside, ∃ path : List ℕ, PathTo levels c path ∧ path.Nodup ∧ child ∈ path)
    (houtside : ∀ c ∈ outside, ∃ path : List ℕ, PathTo levels c path ∧ path.Nodup ∧ child ∉ path)
    {steps : ℕ} (hsteps : last - cursor ≤ steps) :
    findRunEnd ids levels child last steps cursor env calls =
      .done (cursor + inside.length) calls := by
  induction inside generalizing cursor steps with
  | nil =>
    cases steps with
    | zero => rfl
    | succ steps =>
      rw [findRunEnd]
      cases outside with
      | nil =>
        rw [if_neg (by simp at hlast; omega)]
        rfl
      | cons c outside =>
        obtain ⟨path, hpath, hnodup, hchild⟩ := houtside c mem_cons_self
        rw [if_pos (by simp at hlast; omega)]
        simp only [Calls.bind_apply, taskLevelAt_eq hids,
          isDescendantOrSelf_eq hpath (hpath.length_le hnodup), hchild, decide_false,
          Bool.false_eq_true, if_false]
        rfl
  | cons c inside ih =>
    obtain ⟨path, hpath, hnodup, hchild⟩ := hinside c mem_cons_self
    have hlt : cursor < last := by
      rw [length_cons] at hlast
      omega
    obtain ⟨steps, rfl⟩ := Nat.exists_eq_succ_of_ne_zero (show steps ≠ 0 by omega)
    rw [findRunEnd, if_pos hlt]
    simp only [Calls.bind_apply, taskLevelAt_eq hids,
      isDescendantOrSelf_eq hpath (hpath.length_le hnodup), hchild, decide_true, if_true]
    have hrest : (inside ++ outside) <+: ids.drop (cursor + 1) :=
      (@prefix_drop_of_append ids [c] _ cursor hids).2
    have htail := @ih (cursor + 1) hrest (by rw [length_cons] at hlast; omega)
      (fun c hmem => hinside c (mem_cons_of_mem _ hmem)) steps (by omega)
    rw [show cursor + (c :: inside).length = cursor + 1 + inside.length by
      rw [length_cons]; omega]
    exact htail

/-- The tasks from `first` to `last` are those of a program that stands inside the loops
`outer`. -/
structure Placed (ids : List ℤ) (levels : List GraphDoWhileLevel) (p : Program) (parentId : ℤ)
    (outer : List ℕ) (first last : ℕ) : Prop where
  nests : p.Nests levels parentId
  path : PathTo levels parentId outer
  nodup : (p.loops ++ outer).Nodup
  hasTask : p.EveryLoopHasTask
  ids : p.taskLevelIds parentId <+: ids.drop first
  last_eq : first + p.numTasks = last

namespace Placed

variable {parentId : ℤ} {outer : List ℕ} {first last : ℕ}

theorem afterTask {rest : Program} (h : Placed ids levels (.task rest) parentId outer first last) :
    Placed ids levels rest parentId outer (first + 1) last where
  nests := h.nests
  path := h.path
  nodup := h.nodup
  hasTask := h.hasTask
  ids := (@prefix_drop_of_append ids [parentId] _ first h.ids).2
  last_eq := by
    rw [← h.last_eq, Program.numTasks]
    omega

variable {level : ℕ} {body rest : Program}

theorem inLoop (h : Placed ids levels (.loop level body rest) parentId outer first last) :
    Placed ids levels body level (level :: outer) first (first + body.numTasks) where
  nests := h.nests.2.1
  path := ⟨rfl, parentId, h.nests.1, h.path⟩
  nodup := by
    have hnodup : (level :: body.loops ++ outer).Nodup :=
      h.nodup.sublist ((sublist_append_left _ rest.loops).append_right outer)
    exact (perm_middle.nodup_iff).mpr hnodup
  hasTask := h.hasTask.2.1
  ids := (prefix_drop_of_append h.ids).1
  last_eq := rfl

theorem afterLoop (h : Placed ids levels (.loop level body rest) parentId outer first last) :
    Placed ids levels rest parentId outer (first + body.numTasks) last where
  nests := h.nests.2.2
  path := h.path
  nodup := h.nodup.sublist ((sublist_append_right _ _).append_right outer)
  hasTask := h.hasTask.2.2
  ids := by
    have hids := (prefix_drop_of_append h.ids).2
    rwa [Program.length_taskLevelIds] at hids
  last_eq := by
    rw [← h.last_eq, Program.numTasks]
    omega

theorem exists_path {p : Program} (h : Placed ids levels p parentId outer first last) {c : ℤ}
    (hmem : c ∈ p.taskLevelIds parentId) :
    ∃ inner : List ℕ, inner.reverse.Sublist p.loops ∧ PathTo levels c (inner ++ outer) ∧
      (inner ++ outer).Nodup := by
  obtain ⟨inner, hsub, hpath⟩ := Program.exists_path h.nests h.path hmem
  exact ⟨inner, hsub, hpath, Program.nodup_of_sublist h.nodup hsub⟩

theorem findRunEnd_loop (h : Placed ids levels (.loop level body rest) parentId outer first last)
    {calls : List Call} : findRunEnd ids levels level last (last - first) first env calls =
      .done (first + body.numTasks) calls := by
  have hend := @findRunEnd_eq ids levels env level (body.taskLevelIds level)
    (rest.taskLevelIds parentId) last first calls h.ids
  rw [Program.length_taskLevelIds, Program.length_taskLevelIds] at hend
  refine hend (by rw [← h.last_eq, Program.numTasks]; omega) ?_ ?_ (Nat.le_refl _)
  · intro c hmem
    obtain ⟨inner, -, hpath, hnodup⟩ := h.inLoop.exists_path hmem
    exact ⟨_, hpath, hnodup, mem_append_right _ mem_cons_self⟩
  · intro c hmem
    obtain ⟨inner, hsub, hpath, hnodup⟩ := h.afterLoop.exists_path hmem
    refine ⟨_, hpath, hnodup, fun hlevel => ?_⟩
    have hloops : (level :: (body.loops ++ rest.loops ++ outer)).Nodup := h.nodup
    apply (nodup_cons.mp hloops).1
    rcases mem_append.mp hlevel with hlevel | hlevel
    · have hrest := hsub.subset (mem_reverse.mpr hlevel)
      exact mem_append_left _ (mem_append_right _ hrest)
    · exact mem_append_right _ hlevel

end Placed

theorem exec_length_le {p : Program} {first : ℕ} {calls calls' : List Call} {result : Bool}
    (h : p.exec first env calls = .done result calls') : calls.length ≤ calls'.length := by
  have hensures := @Program.exec_ensures env (fun _ => True) (fun _ => True) (fun _ => True)
    (fun _ _ _ => by split <;> trivial) (fun _ _ _ => trivial) (fun _ _ _ => trivial) p first
  exact hensures.le_length trivial h

theorem doWhile_length_le {body : Program} {first : ℕ} {again : Call} {calls calls' : List Call}
    {result : Bool} {gas : ℕ} (hgas : env.budget - calls.length < gas)
    (h : Calls.doWhile .endless (body.exec first) again gas env calls = .done result calls') :
    calls.length ≤ calls'.length := by
  have hbody := @Program.exec_ensures env (fun _ => True) (fun _ => True) (fun _ => True)
    (fun _ _ _ => by split <;> trivial) (fun _ _ _ => trivial) (fun _ _ _ => trivial) body first
  have hensures : Ensures env (fun calls => True ∧ env.budget - calls.length < gas)
      (Calls.doWhile Fault.endless (body.exec first) again gas) _ fun _ => True :=
    hbody.doWhile (fun _ _ => trivial) (fun _ _ _ => trivial) gas
  exact hensures.le_length ⟨trivial, hgas⟩ h

/-- What the driver does with a level is the do-while loop over its body. -/
def DrivesLoops (ids : List ℤ) (levels : List GraphDoWhileLevel) (env : Environment Call)
    (gas : ℕ) : Prop :=
  ∀ {body : Program} {level : ℕ} {outer : List ℕ} {first last gas' : ℕ} {calls : List Call},
    Placed ids levels body level (level :: outer) first last →
    env.budget - calls.length + body.depth < gas → env.budget - calls.length < gas' →
    processLevel ids levels gas level first last env calls =
      Calls.doWhile .endless (body.exec first) (.continueLevel level) gas' env calls

theorem processTasks_eq {gas : ℕ} (hdrives : DrivesLoops ids levels env gas) {p : Program}
    {parentId : ℤ} {outer : List ℕ} {first last steps : ℕ} {calls : List Call}
    (h : Placed ids levels p parentId outer first last) (hsteps : p.numTasks ≤ steps)
    (hgas : env.budget - calls.length + p.depth ≤ gas) :
    processTasks ids levels (processLevel ids levels gas) parentId last steps first env calls =
      p.exec first env calls := by
  induction p generalizing first steps calls with
  | done =>
    unfold processTasks
    rw [if_neg (by rw [← h.last_eq, Program.numTasks]; omega)]
    rfl
  | task rest ih =>
    have hlt : first < last := by
      rw [← h.last_eq, Program.numTasks]
      omega
    rw [Program.numTasks] at hsteps
    obtain ⟨steps, rfl⟩ := Nat.exists_eq_succ_of_ne_zero (show steps ≠ 0 by omega)
    unfold processTasks
    rw [if_pos hlt]
    simp only [Calls.bind_apply, taskLevelAt_eq h.ids, if_true]
    refine Calls.bind_congr rfl fun launched calls' hdone => ?_
    obtain ⟨-, rfl⟩ := Calls.perform_eq_done hdone
    cases launched with
    | false => rfl
    | true =>
      refine ih h.afterTask (by omega) ?_
      rw [length_append]
      rw [Program.depth] at hgas
      omega
  | loop level body rest ihbody ihrest =>
    have htasks : 0 < body.numTasks := h.hasTask.1
    have hlt : first < last := by
      rw [← h.last_eq, Program.numTasks]
      omega
    rw [Program.numTasks] at hsteps
    rw [Program.depth] at hgas
    obtain ⟨steps, rfl⟩ := Nat.exists_eq_succ_of_ne_zero (show steps ≠ 0 by omega)
    obtain ⟨c, more, hbody⟩ := exists_cons_of_length_pos
      (show 0 < (body.taskLevelIds level).length by rwa [Program.length_taskLevelIds])
    obtain ⟨inner, -, hpath, hnodup⟩ := h.inLoop.exists_path
      (show c ∈ body.taskLevelIds level by rw [hbody]; exact mem_cons_self)
    have hinner : inner.length ≤ levels.length := by
      have := hpath.length_le hnodup
      rw [length_append] at this
      omega
    have hids : (c :: more) <+: ids.drop first := hbody ▸ h.inLoop.ids
    unfold processTasks
    rw [if_pos hlt]
    simp only [Calls.bind_apply, taskLevelAt_eq hids,
      if_neg (hpath.ne_of_inside h.path hnodup), childOf_eq hpath h.path hnodup hinner,
      h.findRunEnd_loop]
    refine Calls.bind_congr (hdrives h.inLoop (by omega) (by omega)) fun finished calls' hdone => ?_
    cases finished with
    | false => rfl
    | true =>
      have hlength := doWhile_length_le (by omega) hdone
      exact ihrest h.afterLoop (by omega) (by omega)

theorem drivesLoops (gas : ℕ) : DrivesLoops ids levels env gas := by
  induction gas with
  | zero =>
    intro body level outer first last gas' calls _ hgas
    exact absurd hgas (Nat.not_lt_zero _)
  | succ gas ih =>
    intro body level outer first last gas' calls h hgas hgas'
    obtain ⟨gas', rfl⟩ := Nat.exists_eq_succ_of_ne_zero (Nat.ne_of_gt (Nat.zero_lt_of_lt hgas'))
    refine Calls.bind_congr (processTasks_eq ih h ?_ (by omega)) fun finished calls1 hdone => ?_
    · rw [← h.last_eq]
      omega
    · have hlength := exec_length_le hdone
      cases finished with
      | false => rfl
      | true =>
        refine Calls.bind_congr rfl fun again calls2 hperformed => ?_
        obtain ⟨hlt, rfl⟩ := Calls.perform_eq_done hperformed
        cases again with
        | false => rfl
        | true =>
          have hlength' : (calls1 ++ [Call.continueLevel level]).length =
            calls1.length + 1 := length_append
          exact ih h (by omega) (by omega)

end Simulation

def AllLaunched (env : Environment Call) (calls : List Call) : Prop :=
  ∀ before task after, calls = before ++ .launchTask task :: after →
    env.answer (before ++ [.launchTask task]) = true

def StopsAtOnce (env : Environment Call) (calls : List Call) : Prop :=
  ∀ before task after, calls = before ++ .launchTask task :: after →
    env.answer (before ++ [.launchTask task]) = false → after = []

theorem AllLaunched.stopsAtOnce {env : Environment Call} {calls : List Call}
    (h : AllLaunched env calls) : StopsAtOnce env calls := by
  intro before task after heq hanswer
  rw [h before task after heq] at hanswer
  cases hanswer

theorem eq_or_exists_of_append_singleton {calls before after : List Call} {call call' : Call}
    (h : calls ++ [call] = before ++ call' :: after) :
    (calls = before ∧ call = call' ∧ after = []) ∨
      ∃ rest, after = rest ++ [call] ∧ calls = before ++ call' :: rest := by
  rcases eq_nil_or_concat' after with rfl | ⟨rest, last, rfl⟩
  · obtain ⟨rfl, heq⟩ := append_inj' h rfl
    exact Or.inl ⟨rfl, (List.cons.inj heq).1, rfl⟩
  · rw [← cons_append, ← append_assoc] at h
    obtain ⟨rfl, heq⟩ := append_inj' h rfl
    exact Or.inr ⟨rest, by rw [(List.cons.inj heq).1], rfl⟩

theorem exec_stopsAtOnce (p : Program) (env : Environment Call) (first : ℕ) :
    Ensures env (AllLaunched env) (p.exec first) (fun _ => StopsAtOnce env)
      fun calls => StopsAtOnce env calls ∧ env.budget ≤ calls.length := by
  have hensures := @Program.exec_ensures env (AllLaunched env) (StopsAtOnce env)
    (fun calls => StopsAtOnce env calls ∧ env.budget ≤ calls.length) ?_ ?_
    (fun calls hcalls hcut => ⟨hcalls.stopsAtOnce, hcut⟩) p first
  · apply hensures.weaken
    · intro finished calls h
      cases finished with
      | true => exact AllLaunched.stopsAtOnce h
      | false => exact h
    · exact fun calls h => h
  · intro calls task hcalls
    split
    · intro before task' after heq
      rcases eq_or_exists_of_append_singleton heq with ⟨rfl, htask, -⟩ | ⟨rest, -, hrest⟩
      · rwa [← htask]
      · exact hcalls before task' rest hrest
    · intro before task' after heq hfalse
      rcases eq_or_exists_of_append_singleton heq with ⟨-, -, hafter⟩ | ⟨rest, -, hrest⟩
      · exact hafter
      · rw [hcalls before task' rest hrest] at hfalse
        cases hfalse
  · intro calls level hcalls before task after heq
    rcases eq_or_exists_of_append_singleton heq with ⟨-, hcall, -⟩ | ⟨rest, -, hrest⟩
    · cases hcall
    · exact hcalls before task rest hrest

theorem runGraphDoWhile_eq_exec {levels : List GraphDoWhileLevel} {p : Program}
    (hnests : p.Nests levels (-1)) (hnodup : p.loops.Nodup) {env : Environment Call} {gas : ℕ}
    (hgas : env.budget + p.depth < gas) :
    runGraphDoWhile gas p.numTasks (p.taskLevelIds (-1)) levels env [] = p.prune.exec 0 env [] := by
  have hplaced : Placed (p.taskLevelIds (-1)) levels p.prune (-1) [] 0 p.numTasks := {
    nests := Program.prune_nests hnests
    path := rfl
    nodup := by
      rw [append_nil]
      exact hnodup.sublist p.prune_loops_sublist
    hasTask := p.prune_everyLoopHasTask
    ids := by
      rw [Program.prune_taskLevelIds]
      exact prefix_rfl
    last_eq := by rw [Program.prune_numTasks, Nat.zero_add] }
  obtain ⟨gas, rfl⟩ := Nat.exists_eq_succ_of_ne_zero (Nat.ne_of_gt (Nat.zero_lt_of_lt hgas))
  have hdepth := p.prune_depth_le
  have htasks := @processTasks_eq _ _ env gas (drivesLoops gas) _ _ _ _ _ (p.numTasks - 0) []
    hplaced (by rw [Program.prune_numTasks]; omega) (by rw [length_nil]; omega)
  rw [runGraphDoWhile, processLevel, Calls.bind_apply, htasks]
  cases hout : p.prune.exec 0 env [] with
  | done finished calls => cases finished <;> rfl
  | cutOff calls => rfl
  | fault error => rfl

/-- Driving a flattened program is running it: the calls are those of the nested program, in
which each level is a do-while loop over what stands in it and levels without a task are left
out, whether or not the run ends. No index is out of range, no walk is endless, and nothing is
called after a launch that returned false. -/
theorem runGraphDoWhile_correct (levels : List GraphDoWhileLevel) (p : Program)
    (hnests : p.Nests levels (-1)) (hnodup : p.loops.Nodup) (env : Environment Call) (gas : ℕ)
    (hgas : env.budget + p.depth < gas) : (p.EveryLoopHasTask → p.prune = p) ∧
    ∃ calls, StopsAtOnce env calls ∧
      ((env.budget ≤ calls.length ∧
        runGraphDoWhile gas p.numTasks (p.taskLevelIds (-1)) levels env [] = .cutOff calls ∧
        p.prune.exec 0 env [] = .cutOff calls) ∨
      ∃ finished,
        runGraphDoWhile gas p.numTasks (p.taskLevelIds (-1)) levels env [] =
          .done finished calls ∧
        p.prune.exec 0 env [] = .done finished calls) := by
  refine ⟨Program.prune_eq_self, ?_⟩
  rw [runGraphDoWhile_eq_exec hnests hnodup hgas]
  have hempty : AllLaunched env [] := by
    intro before task after heq
    cases before <;> cases heq
  have hstops := exec_stopsAtOnce p.prune env 0 [] hempty
  cases hout : p.prune.exec 0 env [] with
  | done finished calls =>
    rw [hout] at hstops
    exact ⟨calls, hstops.2, Or.inr ⟨finished, rfl, rfl⟩⟩
  | cutOff calls =>
    rw [hout] at hstops
    exact ⟨calls, hstops.2.1, Or.inl ⟨hstops.2.2, rfl, rfl⟩⟩
  | fault error =>
    rw [hout] at hstops
    exact hstops.elim

def sampleProgram : Program :=
  .loop 0 (.loop 1 (.task .done) (.task (.loop 2 (.task .done) .done))) (.task .done)

def sampleLevels : List GraphDoWhileLevel := [⟨-1⟩, ⟨0⟩, ⟨0⟩]

def sampleEnvironment : Environment Call where
  answer calls :=
    match calls.getLast? with
    | some (.continueLevel level) => level = 0 ∧ calls.length < 8
    | _ => true
  budget := 20

theorem sampleProgram_driven : sampleProgram.prune = sampleProgram ∧
      runGraphDoWhile 30 4 [1, 0, 2, -1] sampleLevels sampleEnvironment [] =
        sampleProgram.exec 0 sampleEnvironment [] ∧
      ∃ calls, StopsAtOnce sampleEnvironment calls ∧ calls.length = 13 ∧
        runGraphDoWhile 30 4 [1, 0, 2, -1] sampleLevels sampleEnvironment [] =
          .done true calls := by
  obtain ⟨hprune, calls, hstops, hrun⟩ := runGraphDoWhile_correct sampleLevels sampleProgram
    ⟨rfl, ⟨rfl, trivial, ⟨rfl, trivial, trivial⟩⟩, trivial⟩ (by decide) sampleEnvironment 30
    (by decide)
  have hsample := hprune
    ⟨by decide, ⟨by decide, trivial, ⟨by decide, trivial, trivial⟩⟩, trivial⟩
  rw [hsample] at hrun
  have hcalls : sampleProgram.exec 0 sampleEnvironment [] = .done true
      [.launchTask 0, .continueLevel 1, .launchTask 1, .launchTask 2, .continueLevel 2,
        .continueLevel 0, .launchTask 0, .continueLevel 1, .launchTask 1, .launchTask 2,
        .continueLevel 2, .continueLevel 0, .launchTask 3] := by decide
  rcases hrun with ⟨-, -, hcut⟩ | ⟨finished, hdriver, hexec⟩
  · cases hcut
  · obtain ⟨rfl, rfl⟩ := Outcome.done.inj (hcalls.symm.trans hexec)
    exact ⟨hsample, hdriver.trans hexec.symm, _, hstops, rfl, hdriver⟩

/-- The driver does not see a loop without tasks, so it does not ask whether to go on with it. -/
theorem emptyLoop_not_driven :
    ¬∀ (levels : List GraphDoWhileLevel) (p : Program), p.Nests levels (-1) → p.loops.Nodup →
      ∀ (env : Environment Call) (gas : ℕ), env.budget + p.depth < gas →
        runGraphDoWhile gas p.numTasks (p.taskLevelIds (-1)) levels env [] = p.exec 0 env [] := by
  intro h
  have hloop := h [⟨-1⟩] (.task (.loop 0 .done .done)) ⟨rfl, trivial, trivial⟩ (by decide)
    ⟨fun calls => calls.length < 2, 5⟩ 8 (by decide)
  revert hloop
  decide

end Quadrants.Graph
