import Quadrants.Offload.LevelsDriven
import Mathlib.Data.List.Dedup

namespace Quadrants.Offload

open Library.NestedLoops Library.CallTrace Quadrants.Graph List

section Levels

variable {stmt : Stmt} {parent : ℤ} {bucket : Bucket} {p : Nested Stmt} {upcoming : List Stmt}

theorem level_preForTag (stmt : Stmt) : stmt.preForTag.graphDoWhileLevelId = stmt.level := by
  unfold Stmt.preForTag Stmt.level Stmt.regionTag
  cases stmt.kind <;> rfl

variable {tag : GraphRegionTag} {task : Task}

theorem level_forTasks (htask : task ∈ forTasks stmt) : task.graphDoWhileLevelId = stmt.level := by
  unfold forTasks at htask
  split at htask
  · rename_i hkind
    rw [mem_singleton.mp htask, Stmt.level, Stmt.regionTag, hkind]
    rfl
  · rename_i hkind
    rw [Stmt.level, Stmt.regionTag, hkind]
    rcases mem_append.mp htask with htask | htask
    · exact (listTasks_spec htask).2
    · rw [mem_singleton.mp htask]
      rfl
  · rename_i hkind
    rw [mem_singleton.mp htask, Stmt.level, Stmt.regionTag, hkind]
    rfl
  · cases htask

theorem level_serialTasks {statements : List Stmt} (htask : task ∈ serialTasks statements tag) :
    task.graphDoWhileLevelId = tag.graphDoWhileLevelId := by
  unfold serialTasks at htask
  split at htask
  · cases htask
  · rw [mem_singleton.mp htask]
    rfl

theorem level_feed (hbucket : bucket.AtParent parent)
    (hstmt : stmt.rides = false → stmt.level = parent)
    (htask : task ∈ (bucket.feed stmt).1) : task.graphDoWhileLevelId = parent := by
  have hfor : stmt.isFor = true → stmt.level = parent := fun hfor =>
    hstmt (by simp [Stmt.rides, hfor])
  cases bucket with
  | waiting statements =>
    simp only [Bucket.feed] at htask
    split at htask
    · rename_i h
      rcases mem_append.mp htask with htask | htask
      · rw [level_serialTasks htask, level_preForTag, hfor h]
      · rw [level_forTasks htask, hfor h]
    · split at htask <;> cases htask
  | opened statements tag =>
    simp only [Bucket.feed] at htask
    split at htask
    · rename_i h
      rcases mem_cons.mp htask with rfl | htask
      · exact hbucket _ _ rfl
      · rw [level_forTasks htask, hfor h]
    · split at htask
      · rw [mem_singleton.mp htask]
        exact hbucket _ _ rfl
      · cases htask
  | placed =>
    simp only [Bucket.feed] at htask
    split at htask
    · rename_i h
      rw [level_forTasks htask, hfor h]
    · split at htask <;> cases htask

theorem level_settle (hbucket : bucket.AtParent parent)
    (htask : task ∈ (bucket.settle upcoming).1) : task.graphDoWhileLevelId = parent := by
  cases bucket with
  | waiting statements => cases htask
  | placed => cases htask
  | opened statements tag =>
    rw [mem_singleton.mp htask]
    exact hbucket _ _ rfl

theorem atLevel_regroup (hstmts : StmtsAt p parent) (hbucket : bucket.AtParent parent)
    (upcoming : List Stmt) : (regroup p bucket upcoming).1.AtLevel Task.graphDoWhileLevelId parent := by
  induction p generalizing bucket upcoming parent with
  | done => exact Nested.atLevel_emit.mpr ⟨fun task htask => level_settle hbucket htask, trivial⟩
  | item stmt rest ih =>
    exact Nested.atLevel_emit.mpr ⟨fun task htask => level_feed hbucket hstmts.1 htask,
      ih hstmts.2 (hbucket.feed hstmts.1) upcoming⟩
  | loop level body rest ihbody ihrest =>
    refine Nested.atLevel_emit.mpr ⟨fun task htask => level_settle hbucket htask, ?_, ?_⟩
    · exact ihbody hstmts.1 (fun _ _ h => absurd h (bucket.settle_ne_opened _ _ _)) _
    · exact ihrest hstmts.2 (fun _ _ h => absurd h (regroup_ne_opened _ _ _ _ _)) upcoming

theorem nests_regroup {levels : List GraphDoWhileLevel} (h : (shape p).Nests levels parent) :
    (shape (regroup p bucket upcoming).1).Nests levels parent := by
  induction p generalizing bucket upcoming parent with
  | done => exact nests_emit.mpr trivial
  | item stmt rest ih => exact nests_emit.mpr (ih h)
  | loop level body rest ihbody ihrest =>
    exact nests_emit.mpr ⟨h.1, ihbody h.2.1, ihrest h.2.2⟩

theorem loops_regroup : (regroup p bucket upcoming).1.loops = p.loops := by
  induction p generalizing bucket upcoming with
  | done => exact Nested.loops_emit _ _
  | item stmt rest ih =>
    rw [regroup, Nested.loops_emit]
    exact ih
  | loop level body rest ihbody ihrest =>
    rw [regroup]
    simp [Nested.loops, ihbody, ihrest]

theorem forTasks_ne_nil (hfor : stmt.isFor = true) : forTasks stmt ≠ [] := by
  unfold Stmt.isFor at hfor
  unfold forTasks
  split at hfor
  · exact cons_ne_nil _ _
  · exact append_ne_nil_of_right_ne_nil _ (cons_ne_nil _ _)
  · exact cons_ne_nil _ _
  · cases hfor

theorem regroup_opened_ne_nil (p : Nested Stmt) (statements : List Stmt) (tag : GraphRegionTag)
    (upcoming : List Stmt) : (regroup p (.opened statements tag) upcoming).1.flatten ≠ [] := by
  induction p generalizing statements tag with
  | done => exact cons_ne_nil _ _
  | item stmt rest ih =>
    rw [regroup]
    simp only [Bucket.feed]
    split
    · exact cons_ne_nil _ _
    · split
      · exact cons_ne_nil _ _
      · exact ih _ _
  | loop level body rest _ _ => exact cons_ne_nil _ _

theorem regroup_ne_nil (hactive : LevelsActive p) (h : ∃ stmt ∈ p.flatten, stmt.rides = false) :
    (regroup p bucket upcoming).1.flatten ≠ [] := by
  induction p generalizing bucket upcoming with
  | done =>
    obtain ⟨stmt, hstmt, -⟩ := h
    cases hstmt
  | item stmt rest ih =>
    rw [regroup, Nested.flatten_emit]
    cases hrides : stmt.rides with
    | true =>
      obtain ⟨other, hother, hfalse⟩ := h
      rcases mem_cons.mp hother with rfl | hother
      · rw [hrides] at hfalse
        cases hfalse
      · exact append_ne_nil_of_right_ne_nil _ (ih hactive ⟨other, hother, hfalse⟩)
    | false =>
      cases hfor : stmt.isFor with
      | true =>
        apply append_ne_nil_of_left_ne_nil
        cases bucket with
        | waiting statements =>
          simp only [Bucket.feed, hfor, if_true]
          exact append_ne_nil_of_right_ne_nil _ (forTasks_ne_nil hfor)
        | opened statements tag =>
          simp only [Bucket.feed, hfor, if_true]
          exact cons_ne_nil _ _
        | placed =>
          simp only [Bucket.feed, hfor, if_true]
          exact forTasks_ne_nil hfor
      | false =>
        have hsets : stmt.setsRegion = true := by
          simpa [Stmt.rides, hfor] using hrides
        apply append_ne_nil_of_right_ne_nil
        have hopened : ∃ statements tag, (bucket.feed stmt).2 = .opened statements tag := by
          cases bucket with
          | waiting statements => simp [Bucket.feed, hfor, hsets]
          | placed => simp [Bucket.feed, hfor, hsets]
          | opened statements tag =>
            simp only [Bucket.feed, hfor, hsets, Bool.false_eq_true, if_false, Bool.true_and]
            split
            · exact ⟨_, _, rfl⟩
            · exact ⟨_, _, rfl⟩
        obtain ⟨statements, tag, hfeed⟩ := hopened
        rw [hfeed]
        exact regroup_opened_ne_nil _ _ _ _
  | loop level body rest ihbody _ =>
    rw [regroup]
    simp only [Nested.flatten_emit, Nested.flatten]
    exact append_ne_nil_of_right_ne_nil _ (append_ne_nil_of_left_ne_nil
      (ihbody hactive.2.1 hactive.1) _)

theorem everyLoopHasTask_regroup (hactive : LevelsActive p) :
    (shape (regroup p bucket upcoming).1).EveryLoopHasTask := by
  induction p generalizing bucket upcoming with
  | done => exact everyLoopHasTask_emit.mpr trivial
  | item stmt rest ih => exact everyLoopHasTask_emit.mpr (ih hactive)
  | loop level body rest ihbody ihrest =>
    refine everyLoopHasTask_emit.mpr ⟨?_, ihbody hactive.2.1, ihrest hactive.2.2⟩
    rw [numTasks_shape]
    exact length_pos_iff.mpr (regroup_ne_nil hactive.2.1 hactive.1)

def Bucket.Uniform (bucket : Bucket) : Prop :=
  match bucket with
  | waiting statements => ∀ stmt ∈ statements, stmt.rides = true
  | opened statements tag =>
    ∀ stmt ∈ statements, stmt.rides = false → stmt.level = tag.graphDoWhileLevelId
  | placed => False

/-- Whether a task has only statements of its own level and such as ride along. -/
def Task.Uniform (task : Task) : Prop :=
  ∀ stmt ∈ task.statements, stmt.rides = false → stmt.level = task.graphDoWhileLevelId

theorem uniform_serialTasks {statements : List Stmt}
    (h : ∀ stmt ∈ statements, stmt.rides = true) (htask : task ∈ serialTasks statements tag) :
    task.Uniform := by
  intro stmt hstmt hrides
  rw [Bucket.statements_serialTasks htask] at hstmt
  rw [h stmt hstmt] at hrides
  cases hrides

theorem uniform_forTasks (htask : task ∈ forTasks stmt) : task.Uniform := by
  intro p hp _
  rw [Bucket.statements_forTasks htask p hp, level_forTasks htask]

theorem level_eq_of_same {other : GraphRegionTag} (h : tag.same other = true) :
    tag.graphDoWhileLevelId = other.graphDoWhileLevelId := by
  simp only [GraphRegionTag.same, Bool.and_eq_true, decide_eq_true_eq] at h
  exact h.1.1

theorem Bucket.Uniform.feed (h : bucket.Uniform) (stmt : Stmt) :
    (bucket.feed stmt).2.Uniform ∧ ∀ task ∈ (bucket.feed stmt).1, task.Uniform := by
  cases bucket with
  | placed => exact h.elim
  | waiting statements =>
    simp only [Bucket.feed]
    split
    · refine ⟨fun _ hmem => (by cases hmem), fun task htask => ?_⟩
      rcases mem_append.mp htask with htask | htask
      · exact uniform_serialTasks h htask
      · exact uniform_forTasks htask
    · rename_i hfor
      split
      · refine ⟨fun p hp hrides => ?_, fun _ hmem => by cases hmem⟩
        rcases mem_append.mp hp with hp | hp
        · rw [h p hp] at hrides
          cases hrides
        · rw [mem_singleton.mp hp]
          rfl
      · rename_i hsets
        refine ⟨fun p hp => ?_, fun _ hmem => by cases hmem⟩
        rcases mem_append.mp hp with hp | hp
        · exact h p hp
        · rw [mem_singleton.mp hp]
          simp [Stmt.rides, hfor, hsets]
  | opened statements tag =>
    simp only [Bucket.feed]
    split
    · refine ⟨fun _ hmem => (by cases hmem), fun task htask => ?_⟩
      rcases mem_cons.mp htask with rfl | htask
      · exact h
      · exact uniform_forTasks htask
    · rename_i hfor
      split
      · refine ⟨fun p hp _ => ?_, fun task htask => ?_⟩
        · rw [mem_singleton.mp hp]
          rfl
        · rw [mem_singleton.mp htask]
          exact h
      · rename_i hnew
        refine ⟨fun p hp hrides => ?_, fun _ hmem => by cases hmem⟩
        rcases mem_append.mp hp with hp | hp
        · exact h p hp hrides
        · obtain rfl := mem_singleton.mp hp
          have hsets : p.setsRegion = true := by
            simpa [Stmt.rides, hfor] using hrides
          have hsame : p.regionTag.same tag = true := by
            simpa [hsets] using hnew
          exact level_eq_of_same hsame

theorem uniform_tasksFrom {rest : List Stmt} (h : bucket.Uniform) :
    ∀ task ∈ tasksFrom bucket rest, task.Uniform := by
  induction rest generalizing bucket with
  | nil =>
    intro task htask
    cases bucket with
    | placed => exact h.elim
    | waiting statements => exact uniform_serialTasks h htask
    | opened statements tag =>
      rw [mem_singleton.mp htask]
      exact h
  | cons stmt rest ih =>
    intro task htask
    rcases mem_append.mp htask with htask | htask
    · exact (h.feed stmt).2 task htask
    · exact ih (h.feed stmt).1 task htask

end Levels

section Gc

theorem statements_gcTasks {task gcTask : Task} (h : gcTask ∈ gcTasks task) :
    gcTask.statements = [] ∧ gcTask.graphDoWhileLevelId = -1 := by
  obtain ⟨snode, -, rfl⟩ := mem_map.mp (mem_reverse.mp h)
  exact ⟨rfl, rfl⟩

theorem deactivations_of_pure {stmt : Stmt} (h : stmt.isPure = true) : stmt.deactivations = [] := by
  unfold Stmt.isPure at h
  unfold Stmt.deactivations
  split at h
  · rename_i hkind
    rw [hkind]
  · cases h

theorem gcTasks_eq_nil {task : Task}
    (h : ∀ stmt ∈ task.statements, ∀ snode ∈ stmt.deactivations, isGcAble snode.type = false) :
    gcTasks task = [] := by
  rw [gcTasks, reverse_eq_nil_iff, map_eq_nil_iff, filter_eq_nil_iff]
  intro snode hsnode hgc
  obtain ⟨stmt, hstmt, hmem⟩ := mem_flatMap.mp (mem_dedup.mp hsnode)
  rw [h stmt hstmt snode hmem] at hgc
  cases hgc

variable {parent : ℤ}

theorem atLevel_expand {α : Type} {level : α → ℤ} {f : α → List α} {p : Nested α}
    (h : p.AtLevel level parent) (hinside : ∀ a ∈ p.flatten, level a ≠ -1 → f a = [a])
    (htop : ∀ a ∈ p.flatten, level a = -1 → ∀ b ∈ f a, level b = -1) :
    (p.expand f).AtLevel level parent := by
  induction p generalizing parent with
  | done => trivial
  | item a rest ih =>
    refine Nested.atLevel_emit.mpr ⟨fun b hb => ?_,
      ih h.2 (fun b hb => hinside b (mem_cons_of_mem _ hb))
        fun b hb => htop b (mem_cons_of_mem _ hb)⟩
    by_cases hlevel : level a = -1
    · rw [htop a mem_cons_self hlevel b hb, ← h.1, hlevel]
    · rw [hinside a mem_cons_self hlevel] at hb
      rw [mem_singleton.mp hb]
      exact h.1
  | loop l body rest ihbody ihrest =>
    exact ⟨ihbody h.1 (fun b hb => hinside b (mem_append_left _ hb))
        (fun b hb => htop b (mem_append_left _ hb)),
      ihrest h.2 (fun b hb => hinside b (mem_append_right _ hb))
        fun b hb => htop b (mem_append_right _ hb)⟩

theorem atLevel_append {α : Type} {level : α → ℤ} {p : Nested α} {as : List α}
    (h : p.AtLevel level parent) (has : ∀ a ∈ as, level a = parent) :
    (p.append (.emit as .done)).AtLevel level parent := by
  induction p with
  | done => exact Nested.atLevel_emit.mpr ⟨has, trivial⟩
  | item a rest ih => exact ⟨h.1, ih h.2⟩
  | loop l body rest _ ih => exact ⟨h.1, ih h.2⟩

theorem level_of_atLevel {α : Type} {level : α → ℤ} {p : Nested α}
    (h : p.AtLevel level parent) {a : α} (ha : a ∈ p.flatten) : level a = parent ∨ 0 ≤ level a := by
  induction p generalizing parent with
  | done => cases ha
  | item b rest ih =>
    rcases mem_cons.mp ha with rfl | ha
    · exact Or.inl h.1
    · exact ih h.2 ha
  | loop l body rest ihbody ihrest =>
    rcases mem_append.mp ha with ha | ha
    · rcases ihbody h.1 ha with hlevel | hlevel
      · exact Or.inr (by omega)
      · exact Or.inr hlevel
    · exact ihrest h.2 ha

end Gc

section Correct

variable {Mem Val : Type} {m : Meaning Mem Val} {levels : List GraphDoWhileLevel} {p : Nested Stmt}

/-- A nested program as it is flattened into a root block: the levels are those of the table,
side effects and loops carry the level they are written at, side effects are tagged, and a
statement reads earlier ones only. -/
structure WellFormed (levels : List GraphDoWhileLevel) (p : Nested Stmt) : Prop where
  nests : (shape p).Nests levels (-1)
  nodup : p.loops.Nodup
  stmtsAt : StmtsAt p (-1)
  tagged : ∀ stmt ∈ p.flatten, stmt.rides = true → stmt.isPure = true
  ordered : Ordered p.flatten

/-- What the offloader relies on: every level has a side effect or a loop, no level changes what a
pure statement moved over its beginning reads, and nothing inside a level is to be collected. -/
structure LevelsHeld (m : Meaning Mem Val) (p : Nested Stmt) : Prop where
  active : LevelsActive p
  steady : Steady m p (some [])
  noGc : ∀ stmt ∈ p.flatten, 0 ≤ stmt.level → ∀ snode ∈ stmt.deactivations,
    isGcAble snode.type = false

def programTasks (p : Nested Stmt) : List Task :=
  insertGc (Offloader.run p.flatten)

/-- Driving the tasks from this state is running the program: the tasks of a level stand next to
one another, the driver executes the same side effects and loops in the same order and with the
same values read, as far as it comes, and it comes to the end if the program does. -/
structure LevelsRun (levels : List GraphDoWhileLevel) (m : Meaning Mem Val) (p : Nested Stmt)
    (s : State Mem Val) : Prop where
  contiguous : Contiguous levels ((programTasks p).map Task.graphDoWhileLevelId)
  drives : ∀ budget, ∃ gas₀, ∀ gas, gas₀ < gas →
    match runGraphDoWhile gas (programTasks p).length
      ((programTasks p).map Task.graphDoWhileLevelId) levels
      (backend m (programTasks p) s budget) [] with
    | .done finished calls => finished = true ∧ (runNested m (budget + 1) p s).2 = true ∧
        (replay m (programTasks p) s calls).log = (runNested m (budget + 1) p s).1.log ∧
        (replay m (programTasks p) s calls).mem = (runNested m (budget + 1) p s).1.mem
    | .cutOff calls =>
      (replay m (programTasks p) s calls).log <+: (runNested m (budget + 1) p s).1.log
    | .fault _ => False
  ends : ∀ n, (runNested m n p s).2 = true → ∃ budget₀, ∀ budget, budget₀ ≤ budget →
    ∃ gas₀, ∀ gas, gas₀ < gas → ∃ calls,
      runGraphDoWhile gas (programTasks p).length
        ((programTasks p).map Task.graphDoWhileLevelId) levels
        (backend m (programTasks p) s budget) [] = .done true calls

def taskProgram (p : Nested Stmt) : Nested Task :=
  ((regroup p (.waiting []) []).1.append
    (.emit (regroup p (.waiting []) []).2.finish .done)).expand fun task => task :: gcTasks task

theorem atParent_waiting (parent : ℤ) (statements : List Stmt) :
    (Bucket.waiting statements).AtParent parent :=
  fun _ _ h => nomatch h

theorem regrouped_flatten (hwell : WellFormed levels p) (hheld : LevelsHeld m p) :
    ((regroup p (.waiting []) []).1.append
      (.emit (regroup p (.waiting []) []).2.finish .done)).flatten = Offloader.run p.flatten := by
  have hflat := @regroup_flatten (-1) p (.waiting []) [] hwell.stmtsAt hheld.active hwell.nodup
    (fun level _ h => by omega) (fun _ h => (nomatch h)) (atParent_waiting (-1) [])
  rw [append_nil] at hflat
  rw [Nested.flatten_append, Nested.flatten_emit, Nested.flatten, append_nil,
    offloader_run_eq, ← hflat]
  rfl

theorem taskProgram_flatten (hwell : WellFormed levels p) (hheld : LevelsHeld m p) :
    (taskProgram p).flatten = programTasks p := by
  rw [taskProgram, Nested.flatten_expand, regrouped_flatten hwell hheld]
  rfl

theorem statements_offloaderRun (hwell : WellFormed levels p) (hheld : LevelsHeld m p) {task : Task}
    (htask : task ∈ Offloader.run p.flatten) : task.statements ⊆ p.flatten := by
  rw [← regrouped_flatten hwell hheld, Nested.flatten_append, Nested.flatten_emit,
    Nested.flatten, append_nil] at htask
  have hunplaced : (Bucket.waiting []).unplaced (p.flatten ++ []) = p.flatten := by
    rw [append_nil]
    rfl
  rcases mem_append.mp htask with htask | htask
  · exact hunplaced ▸ statements_regroup htask
  · have hend : (regroup p (.waiting []) []).2.unplaced [] ⊆ p.flatten :=
      hunplaced ▸ unplaced_regroup
    cases hbucket : (regroup p (.waiting []) []).2 with
    | opened statements tag => exact absurd hbucket (regroup_ne_opened _ _ _ _ _)
    | placed =>
      rw [hbucket] at htask
      cases htask
    | waiting statements =>
      rw [hbucket] at htask hend
      rw [Bucket.statements_serialTasks htask]
      rwa [Bucket.unplaced, append_nil] at hend

theorem gcTasks_inside (hwell : WellFormed levels p) (hheld : LevelsHeld m p) {task : Task}
    (htask : task ∈ Offloader.run p.flatten) (hlevel : 0 ≤ task.graphDoWhileLevelId) :
    gcTasks task = [] := by
  have huniform : task.Uniform := by
    rw [offloader_run_eq] at htask
    have hempty : (Bucket.waiting []).Uniform := fun _ h => nomatch h
    exact uniform_tasksFrom hempty task htask
  apply gcTasks_eq_nil
  intro stmt hstmt snode hsnode
  have hmem := statements_offloaderRun hwell hheld htask hstmt
  cases hrides : stmt.rides with
  | true =>
    rw [deactivations_of_pure (hwell.tagged stmt hmem hrides)] at hsnode
    cases hsnode
  | false =>
    refine hheld.noGc stmt hmem ?_ snode hsnode
    rwa [huniform stmt hstmt hrides]

theorem taskProgram_atLevel (hwell : WellFormed levels p) (hheld : LevelsHeld m p) :
    (taskProgram p).AtLevel Task.graphDoWhileLevelId (-1) := by
  have hbody := atLevel_regroup hwell.stmtsAt (atParent_waiting (-1) []) []
  have hend : ∀ task ∈ (regroup p (.waiting []) []).2.finish, task.graphDoWhileLevelId = -1 := by
    intro task htask
    cases hbucket : (regroup p (.waiting []) []).2 with
    | opened statements tag => exact absurd hbucket (regroup_ne_opened _ _ _ _ _)
    | placed =>
      rw [hbucket] at htask
      cases htask
    | waiting statements =>
      rw [hbucket] at htask
      exact level_serialTasks htask
  have hall := atLevel_append hbody hend
  refine atLevel_expand hall ?_ ?_
  · intro task htask hne
    have hlevel := (level_of_atLevel hall htask).resolve_left hne
    rw [regrouped_flatten hwell hheld] at htask
    rw [gcTasks_inside hwell hheld htask hlevel]
  · intro task _ hlevel other hother
    rcases mem_cons.mp hother with rfl | hother
    · exact hlevel
    · exact (statements_gcTasks hother).2

theorem taskProgram_nests (hwell : WellFormed levels p) :
    (shape (taskProgram p)).Nests levels (-1) :=
  nests_expand (nests_append (nests_regroup hwell.nests))

theorem taskProgram_loops (p : Nested Stmt) : (shape (taskProgram p)).loops = p.loops := by
  rw [loops_shape, taskProgram, loops_expand, loops_append, loops_regroup]

theorem taskProgram_prune (hheld : LevelsHeld m p) :
    (shape (taskProgram p)).prune = shape (taskProgram p) :=
  Program.prune_eq_self (everyLoopHasTask_expand (fun _ => cons_ne_nil _ _)
    (everyLoopHasTask_append (everyLoopHasTask_regroup hheld.active)))

theorem runTasks_taskProgram (hwell : WellFormed levels p) (hheld : LevelsHeld m p) (n : ℕ)
    (s : State Mem Val) : (runTasks m n (taskProgram p) s).2 = (runNested m n p s).2 ∧
    (runTasks m n (taskProgram p) s).1.log = (runNested m n p s).1.log ∧
    (runTasks m n (taskProgram p) s).1.mem = (runNested m n p s).1.mem := by
  have hexpand : runTasks m n (taskProgram p) s = runTasks m n
      ((regroup p (.waiting []) []).1.append
        (.emit (regroup p (.waiting []) []).2.finish .done)) s := by
    refine Nested.run_expand (fun task _ s => ?_) s
    exact execTasks_of_no_statements _ (fun t ht => (statements_gcTasks ht).1) _
  obtain ⟨hflag, hdone, hcut⟩ := @runTasks_regroup _ _ m (.waiting []) [] n p s s
    hheld.active hheld.steady (by simpa [Bucket.statements] using hwell.ordered)
    (by simpa using hwell.tagged) (fun _ h p hp => by cases h; cases hp)
    ⟨rfl, rfl, fun _ _ => rfl⟩
  have happend : runTasks m n ((regroup p (.waiting []) []).1.append
        (.emit (regroup p (.waiting []) []).2.finish .done)) s =
      if (runTasks m n (regroup p (.waiting []) []).1 s).2 then
        runTasks m n (.emit (regroup p (.waiting []) []).2.finish .done)
          (runTasks m n (regroup p (.waiting []) []).1 s).1
      else ((runTasks m n (regroup p (.waiting []) []).1 s).1, false) :=
    Nested.run_append _ _ s
  rw [hexpand, happend, ← hflag]
  cases hfinished : (runNested m n p s).2 with
  | false => exact ⟨rfl, (hcut hfinished).2.symm, (hcut hfinished).1.symm⟩
  | true =>
    have hrel := hdone hfinished
    rw [runTasks_emit]
    cases hbucket : (regroup p (.waiting []) []).2 with
    | opened statements tag => exact absurd hbucket (regroup_ne_opened _ _ _ _ _)
    | placed =>
      rw [hbucket] at hrel
      exact ⟨rfl, hrel.log.symm, hrel.mem.symm⟩
    | waiting statements =>
      rw [hbucket] at hrel
      have hend : execTasks m (Bucket.waiting statements).finish
          (runTasks m n (regroup p (.waiting []) []).1 s).1 =
          execAll m statements (runTasks m n (regroup p (.waiting []) []).1 s).1 :=
        execTasks_serialTasks statements {} _
      rw [hend]
      exact ⟨rfl, hrel.log.symm, hrel.mem.symm⟩

theorem runGraphDoWhile_taskProgram (hwell : WellFormed levels p) (hheld : LevelsHeld m p)
    {env : Environment Call} {gas : ℕ} (hgas : env.budget + (shape (taskProgram p)).depth < gas) :
    runGraphDoWhile gas (programTasks p).length
      ((programTasks p).map Task.graphDoWhileLevelId) levels env [] =
      (shape (taskProgram p)).exec 0 env [] := by
  have hnodup : (shape (taskProgram p)).loops.Nodup := by
    rw [taskProgram_loops]
    exact hwell.nodup
  have hdriver := runGraphDoWhile_eq_exec (taskProgram_nests hwell) hnodup hgas
  rwa [taskProgram_prune hheld, numTasks_shape,
    taskLevelIds_shape (taskProgram_atLevel hwell hheld),
    taskProgram_flatten hwell hheld] at hdriver

/-- In every run of the driver over the tasks of a program that meets the condition, side effects
and loops are executed as in the nested program. -/
theorem offloaded_levels_run (levels : List GraphDoWhileLevel) (m : Meaning Mem Val)
    (p : Nested Stmt) (hwell : WellFormed levels p) (hheld : LevelsHeld m p) (s : State Mem Val) :
    LevelsRun levels m p s := by
  have hflatten := taskProgram_flatten hwell hheld
  have hprefix : (taskProgram p).flatten <+: (programTasks p).drop 0 := by
    simp [hflatten]
  constructor
  · intro level
    have hcontiguous := contiguous_taskLevelIds (taskProgram_nests hwell)
      (show PathTo levels (-1) [] from rfl)
      (by rw [append_nil, taskProgram_loops]; exact hwell.nodup) level not_mem_nil
    rwa [taskLevelIds_shape (taskProgram_atLevel hwell hheld), hflatten] at hcontiguous
  · intro budget
    refine ⟨budget + (shape (taskProgram p)).depth, fun gas hgas => ?_⟩
    rw [runGraphDoWhile_taskProgram hwell hheld hgas]
    have hfollows := @follows_exec _ _ m _ s budget 0 _ [] hprefix
    obtain ⟨hflag, hlog, hmem⟩ := runTasks_taskProgram hwell hheld (budget + 1) s
    have hnofault := exec_stopsAtOnce (shape (taskProgram p)) (backend m (programTasks p) s budget) 0
      [] (fun before _ _ heq => by cases before <;> cases heq)
    cases hout : (shape (taskProgram p)).exec 0 (backend m (programTasks p) s budget) [] with
    | done finished calls =>
      rw [hout] at hfollows
      obtain ⟨hfinished, hresult⟩ := hfollows
      change runTasks m (budget + 1) (taskProgram p) s = _ at hresult
      rw [hresult] at hflag hlog hmem
      exact ⟨hfinished, hflag.symm, hlog, hmem⟩
    | cutOff calls =>
      rw [hout] at hfollows
      change _ <+: (runTasks m (budget + 1) (taskProgram p) s).1.log at hfollows
      rwa [hlog] at hfollows
    | fault error =>
      rw [hout] at hnofault
      exact hnofault
  · intro n hn
    rw [← (runTasks_taskProgram hwell hheld n s).1] at hn
    obtain ⟨N, hN⟩ := ends_exec s hprefix s hn
    refine ⟨N, fun budget hbudget => ⟨budget + (shape (taskProgram p)).depth, fun gas hgas => ?_⟩⟩
    obtain ⟨calls, hexec, -, -⟩ := hN budget [] rfl (by rw [length_nil]; omega)
    exact ⟨calls, (runGraphDoWhile_taskProgram hwell hheld hgas).trans hexec⟩

end Correct

def counting : Meaning ℕ ℕ where
  value id mem _ := if id = 0 then 7 else mem
  effect _ mem _ := mem + 1
  flag _ mem := mem < 3

def atLevel (level : ℤ) : GraphRegionTag :=
  { graphDoWhileLevelId := level, isSet := true }

def constantProgram : Nested Stmt :=
  .item ⟨0, [], .pure⟩
    (.loop 0 (.item ⟨1, [0], .rangeFor (atLevel 0) []⟩
        (.item ⟨2, [0], .sideEffect (atLevel 0) []⟩ .done))
      (.item ⟨3, [0, 2], .rangeFor (atLevel (-1)) [⟨5, .pointer⟩]⟩ .done))

theorem constantProgram_levels_run :
    WellFormed [⟨-1⟩] constantProgram ∧ LevelsHeld counting constantProgram ∧
      LevelsRun [⟨-1⟩] counting constantProgram ⟨0, fun _ => 0, []⟩ := by
  have hwell : WellFormed [⟨-1⟩] constantProgram := {
    nests := ⟨rfl, trivial, trivial⟩
    nodup := by decide
    stmtsAt := ⟨fun h => (nomatch h), ⟨fun _ => rfl, fun _ => rfl, trivial⟩, fun _ => rfl, trivial⟩
    tagged := by decide
    ordered := ⟨by decide, by decide, by decide, by decide, by decide, by decide, by decide,
      by decide, trivial⟩ }
  have hheld : LevelsHeld counting constantProgram := {
    active := ⟨⟨_, mem_cons_self, rfl⟩, trivial, trivial⟩
    steady := by
      refine ⟨fun p hp stmt _ _ mem args args' => ?_, trivial, trivial⟩
      obtain rfl : p = ⟨0, [], .pure⟩ := mem_singleton.mp hp
      rfl
    noGc := by decide }
  exact ⟨hwell, hheld, offloaded_levels_run _ _ _ hwell hheld _⟩

def deactivatingProgram : Nested Stmt :=
  .loop 0 (.item ⟨1, [], .rangeFor (atLevel 0) [⟨5, .pointer⟩]⟩
    (.item ⟨2, [], .rangeFor (atLevel 0) []⟩ .done)) .done

def loadProgram : Nested Stmt :=
  .item ⟨4, [], .pure⟩ (.loop 0 (.item ⟨1, [4], .rangeFor (atLevel 0) []⟩ .done) .done)

theorem deactivatingProgram_not_contiguous :
    ¬ Contiguous [⟨-1⟩] ((programTasks deactivatingProgram).map Task.graphDoWhileLevelId) := by
  have hids : (programTasks deactivatingProgram).map Task.graphDoWhileLevelId = [0, -1, 0] := by
    decide
  have hinside : Inside [⟨-1⟩] 0 0 := ⟨[0], ⟨rfl, -1, rfl, rfl⟩, mem_cons_self⟩
  have houtside : ¬ Inside [⟨-1⟩] 0 (-1) := by
    rintro ⟨path, hpath, hmem⟩
    have hempty : PathTo [⟨-1⟩] (-1) [] := rfl
    rw [pathTo_unique hpath hempty] at hmem
    cases hmem
  intro hcontiguous
  obtain ⟨before, inside, after, heq, hin, hout⟩ := hcontiguous 0
  rw [append_assoc] at heq
  -- the first task is inside the loop, so nothing stands before the run of its tasks
  rcases cons_eq_append_iff.mp heq with ⟨rfl, hfirst⟩ | ⟨before, rfl, -⟩
  · rcases cons_eq_append_iff.mp hfirst.symm with ⟨rfl, hafter⟩ | ⟨inside, rfl, hsecond⟩
    · exact hout 0 (by rw [hafter]; exact mem_cons_self) hinside
    · rcases cons_eq_append_iff.mp hsecond with ⟨rfl, hafter⟩ | ⟨inside, rfl, -⟩
      · exact hout 0 (by rw [hafter]; exact mem_cons_of_mem _ mem_cons_self) hinside
      · exact houtside (hin (-1) (mem_cons_of_mem _ mem_cons_self))
  · exact hout 0 mem_cons_self hinside

theorem loadProgram_driven : ∃ calls, ((shape (taskProgram loadProgram)).exec 0
        (backend counting (programTasks loadProgram) ⟨0, fun _ => 0, []⟩ 20) [] =
          .done true calls) ∧
      (replay counting (programTasks loadProgram) ⟨0, fun _ => 0, []⟩ calls).log =
        [(1, [0]), (1, [1]), (1, [2])] := by
  exact ⟨[.launchTask 0, .launchTask 1, .continueLevel 0, .launchTask 0, .launchTask 1,
    .continueLevel 0, .launchTask 0, .launchTask 1, .continueLevel 0], by decide, by decide⟩

theorem levels_not_run : (WellFormed [⟨-1⟩] deactivatingProgram ∧
      ¬ LevelsRun [⟨-1⟩] counting deactivatingProgram ⟨0, fun _ => 0, []⟩) ∧
    (WellFormed [⟨-1⟩] loadProgram ∧
      ¬ LevelsRun [⟨-1⟩] counting loadProgram ⟨0, fun _ => 0, []⟩) := by
  refine ⟨⟨?_, fun hrun => deactivatingProgram_not_contiguous hrun.contiguous⟩, ?_, fun hrun => ?_⟩
  · exact {
      nests := ⟨rfl, trivial, trivial⟩
      nodup := by decide
      stmtsAt := ⟨⟨fun _ => rfl, fun _ => rfl, trivial⟩, trivial⟩
      tagged := by decide
      ordered := ⟨by decide, by decide, by decide, by decide, trivial⟩ }
  · exact {
      nests := ⟨rfl, trivial, trivial⟩
      nodup := by decide
      stmtsAt := ⟨fun h => (nomatch h), ⟨fun _ => rfl, trivial⟩, trivial⟩
      tagged := by decide
      ordered := ⟨by decide, by decide, by decide, by decide, trivial⟩ }
  · obtain ⟨gas₀, hdrives⟩ := hrun.drives 20
    obtain ⟨calls, hexec, hlog⟩ := loadProgram_driven
    have hgas := hdrives (gas₀ + 22) (by omega)
    have hdriver := @runGraphDoWhile_eq_exec [⟨-1⟩] (shape (taskProgram loadProgram))
      ⟨rfl, trivial, trivial⟩ (by decide)
      (backend counting (programTasks loadProgram) ⟨0, fun _ => 0, []⟩ 20) (gas₀ + 22)
      (show 20 + 1 < gas₀ + 22 by omega)
    have hprune : (shape (taskProgram loadProgram)).prune = shape (taskProgram loadProgram) := by
      decide
    rw [hprune, hexec] at hdriver
    have hdriver' : runGraphDoWhile (gas₀ + 22) (programTasks loadProgram).length
        ((programTasks loadProgram).map Task.graphDoWhileLevelId) [⟨-1⟩]
        (backend counting (programTasks loadProgram) ⟨0, fun _ => 0, []⟩ 20) [] =
          .done true calls := hdriver
    rw [hdriver'] at hgas
    have hsame := hgas.2.2.1
    rw [hlog] at hsame
    revert hsame
    decide

end Quadrants.Offload
