import Quadrants.Graph.DriverCorrect
import Quadrants.Offload.LevelsKept

namespace Quadrants.Offload

open Library.NestedLoops Library.CallTrace Quadrants.Graph List

section Shape

variable {α β : Type}

def shape : Nested α → Program
  | .done => .done
  | .item _ rest => .task (shape rest)
  | .loop level body rest => .loop level (shape body) (shape rest)

theorem numTasks_shape (p : Nested α) : (shape p).numTasks = p.flatten.length := by
  induction p with
  | done => rfl
  | item a rest ih => simp [shape, Program.numTasks, Nested.flatten, ih]
  | loop level body rest ihbody ihrest =>
    simp [shape, Program.numTasks, Nested.flatten, ihbody, ihrest]

theorem loops_shape (p : Nested α) : (shape p).loops = p.loops := by
  induction p with
  | done => rfl
  | item a rest ih => exact ih
  | loop level body rest ihbody ihrest => simp [shape, Program.loops, Nested.loops, ihbody, ihrest]

variable {as : List α} {p : Nested α} {parent : ℤ}

theorem taskLevelIds_shape {level : α → ℤ}
    (h : p.AtLevel level parent) : (shape p).taskLevelIds parent = p.flatten.map level := by
  induction p generalizing parent with
  | done => rfl
  | item a rest ih =>
    rw [shape, Program.taskLevelIds, ih h.2, ← h.1]
    rfl
  | loop l body rest ihbody ihrest =>
    rw [shape, Program.taskLevelIds, ihbody h.1, ihrest h.2, Nested.flatten, map_append]

variable {levels : List GraphDoWhileLevel}

theorem nests_emit : (shape (.emit as p)).Nests levels parent ↔ (shape p).Nests levels parent := by
  induction as with
  | nil => rfl
  | cons a as ih => exact ih

theorem nests_append (h : (shape p).Nests levels parent) :
    (shape (p.append (.emit as .done))).Nests levels parent := by
  induction p generalizing parent with
  | done => exact nests_emit.mpr trivial
  | item a rest ih => exact ih h
  | loop level body rest _ ih => exact ⟨h.1, h.2.1, ih h.2.2⟩

variable {f : α → List β}

theorem nests_expand
    (h : (shape p).Nests levels parent) : (shape (p.expand f)).Nests levels parent := by
  induction p generalizing parent with
  | done => trivial
  | item a rest ih => exact nests_emit.mpr (ih h)
  | loop level body rest ihbody ihrest => exact ⟨h.1, ihbody h.2.1, ihrest h.2.2⟩

theorem loops_append (p : Nested α) (as : List α) :
    (p.append (.emit as .done)).loops = p.loops := by
  induction p with
  | done => exact Nested.loops_emit as .done
  | item a rest ih => exact ih
  | loop level body rest _ ih => simp [Nested.append, Nested.loops, ih]

theorem loops_expand (f : α → List β) (p : Nested α) : (p.expand f).loops = p.loops := by
  induction p with
  | done => rfl
  | item a rest ih => rw [Nested.expand, Nested.loops_emit, ih, Nested.loops]
  | loop level body rest ihbody ihrest => simp [Nested.expand, Nested.loops, ihbody, ihrest]

theorem everyLoopHasTask_emit :
    (shape (.emit as p)).EveryLoopHasTask ↔ (shape p).EveryLoopHasTask := by
  induction as with
  | nil => rfl
  | cons a as ih => exact ih

theorem everyLoopHasTask_append (h : (shape p).EveryLoopHasTask) :
    (shape (p.append (.emit as .done))).EveryLoopHasTask := by
  induction p with
  | done => exact everyLoopHasTask_emit.mpr trivial
  | item a rest ih => exact ih h
  | loop level body rest _ ih => exact ⟨h.1, h.2.1, ih h.2.2⟩

theorem everyLoopHasTask_expand (hf : ∀ a, f a ≠ [])
    (h : (shape p).EveryLoopHasTask) : (shape (p.expand f)).EveryLoopHasTask := by
  induction p with
  | done => trivial
  | item a rest ih => exact everyLoopHasTask_emit.mpr (ih h)
  | loop level body rest ihbody ihrest =>
    refine ⟨?_, ihbody h.2.1, ihrest h.2.2⟩
    have htask := h.1
    rw [numTasks_shape] at htask ⊢
    obtain ⟨a, ha⟩ := exists_mem_of_length_pos htask
    obtain ⟨b, hb⟩ := exists_mem_of_ne_nil _ (hf a)
    rw [Nested.flatten_expand]
    exact length_pos_of_mem (mem_flatMap.mpr ⟨a, ha, hb⟩)

end Shape

section Contiguous

variable {levels : List GraphDoWhileLevel}

def Inside (levels : List GraphDoWhileLevel) (level : ℕ) (c : ℤ) : Prop :=
  ∃ path, PathTo levels c path ∧ level ∈ path

def Contiguous (levels : List GraphDoWhileLevel) (ids : List ℤ) : Prop :=
  ∀ level, ∃ before inside after, ids = before ++ inside ++ after ∧
    (∀ c ∈ inside, Inside levels level c) ∧ ∀ c ∈ before ++ after, ¬ Inside levels level c

theorem pathTo_unique {c : ℤ} {path path' : List ℕ} (h : PathTo levels c path)
    (h' : PathTo levels c path') : path = path' := by
  induction path generalizing c path' with
  | nil =>
    cases path' with
    | nil => rfl
    | cons level path' =>
      have h1 : c = -1 := h
      have h2 : c = (level : ℤ) := h'.1
      omega
  | cons level path ih =>
    cases path' with
    | nil =>
      have h1 : c = (level : ℤ) := h.1
      have h2 : c = -1 := h'
      omega
    | cons level' path' =>
      obtain ⟨hc, parentId, hlevel, hpath⟩ := h
      obtain ⟨hc', parentId', hlevel', hpath'⟩ := h'
      obtain rfl : level = level' := by omega
      rw [hlevel] at hlevel'
      have hparent := (GraphDoWhileLevel.mk.inj (Option.some.inj hlevel'))
      subst hparent
      rw [ih hpath hpath']

variable {outer : List ℕ} {p : Program} {parent : ℤ}

theorem not_inside (hnests : p.Nests levels parent)
    (hpath : PathTo levels parent outer) {level : ℕ} (hlevel : level ∉ p.loops)
    (houter : level ∉ outer) : ∀ c ∈ p.taskLevelIds parent, ¬ Inside levels level c := by
  rintro c hc ⟨path, hto, hmem⟩
  obtain ⟨inner, hsub, hinner⟩ := Program.exists_path hnests hpath hc
  rw [pathTo_unique hto hinner] at hmem
  rcases mem_append.mp hmem with hmem | hmem
  · exact hlevel (hsub.subset (mem_reverse.mpr hmem))
  · exact houter hmem

theorem contiguous_taskLevelIds
    (hnests : p.Nests levels parent) (hpath : PathTo levels parent outer)
    (hnodup : (p.loops ++ outer).Nodup) (level : ℕ) (houter : level ∉ outer) :
    ∃ before inside after, p.taskLevelIds parent = before ++ inside ++ after ∧
      (∀ c ∈ inside, Inside levels level c) ∧ ∀ c ∈ before ++ after, ¬ Inside levels level c := by
  by_cases hlevel : level ∈ p.loops
  · induction p generalizing parent outer with
    | done => cases hlevel
    | task rest ih =>
      obtain ⟨before, inside, after, hids, hin, hout⟩ := ih hnests hpath hnodup houter hlevel
      refine ⟨parent :: before, inside, after, ?_, hin, ?_⟩
      · rw [Program.taskLevelIds, hids]
        rfl
      · intro c hc
        rcases mem_cons.mp hc with rfl | hc
        · rintro ⟨path, hto, hmem⟩
          rw [pathTo_unique hto hpath] at hmem
          exact houter hmem
        · exact hout c hc
    | loop l body rest ihbody ihrest =>
      obtain ⟨htable, hbody, hrest⟩ := hnests
      have hnodup' : (l :: (body.loops ++ (rest.loops ++ outer))).Nodup := by
        rw [← append_assoc]
        exact hnodup
      have hinside : PathTo levels l (l :: outer) := ⟨rfl, parent, htable, hpath⟩
      obtain ⟨hl, hnodup'⟩ := nodup_cons.mp hnodup'
      obtain ⟨hnodupBody, hnodupRest, hdisjoint⟩ := nodup_append.mp hnodup'
      have hlbody : l ∉ body.loops := fun h => hl (mem_append_left _ h)
      have hlrest : l ∉ rest.loops := fun h =>
        hl (mem_append_right _ (mem_append_left _ h))
      have hlouter : l ∉ outer := fun h =>
        hl (mem_append_right _ (mem_append_right _ h))
      by_cases heq : level = l
      · subst heq
        refine ⟨[], body.taskLevelIds level, rest.taskLevelIds parent, rfl, ?_, ?_⟩
        · intro c hc
          obtain ⟨inner, -, hinner⟩ := Program.exists_path hbody hinside hc
          exact ⟨_, hinner, mem_append_right _ mem_cons_self⟩
        · exact not_inside hrest hpath hlrest houter
      · by_cases hmem : level ∈ body.loops
        · have hbodyNodup : (body.loops ++ l :: outer).Nodup := by
            rw [nodup_append]
            refine ⟨hnodupBody, ?_, ?_⟩
            · rw [nodup_cons]
              exact ⟨hlouter, (nodup_append.mp hnodupRest).2.1⟩
            · intro a ha b hb
              rcases mem_cons.mp hb with rfl | hb
              · exact fun h => hlbody (h ▸ ha)
              · exact hdisjoint a ha b (mem_append_right _ hb)
          obtain ⟨before, inside, after, hids, hin, hout⟩ := ihbody hbody hinside hbodyNodup
            (fun h => (mem_cons.mp h).elim heq houter) hmem
          refine ⟨before, inside, after ++ rest.taskLevelIds parent, ?_, hin, ?_⟩
          · simp [Program.taskLevelIds, hids]
          · have hnot : level ∉ rest.loops := fun h =>
              hdisjoint level hmem level (mem_append_left _ h) rfl
            intro c hc
            rw [← append_assoc] at hc
            rcases mem_append.mp hc with hc | hc
            · exact hout c hc
            · exact not_inside hrest hpath hnot houter c hc
        · have hrestMem : level ∈ rest.loops := by
            rcases mem_append.mp hlevel with h | h
            · rcases mem_cons.mp h with h | h
              · exact absurd h heq
              · exact absurd h hmem
            · exact h
          obtain ⟨before, inside, after, hids, hin, hout⟩ := ihrest hrest hpath hnodupRest houter
            hrestMem
          refine ⟨body.taskLevelIds l ++ before, inside, after, ?_, hin, ?_⟩
          · simp [Program.taskLevelIds, hids]
          · intro c hc
            rw [append_assoc] at hc
            rcases mem_append.mp hc with hc | hc
            · exact not_inside hbody hinside hmem
                (fun h => (mem_cons.mp h).elim heq houter) c hc
            · exact hout c hc
  · exact ⟨p.taskLevelIds parent, [], [], by simp, fun _ h => (nomatch h), by
      simpa using not_inside hnests hpath hlevel houter⟩

end Contiguous

section Driver

variable {Mem Val : Type} {m : Meaning Mem Val} {tasks : List Task} {s₀ : State Mem Val}
  {budget : ℕ}

theorem Stmt.log_exec (stmt : Stmt) (s : State Mem Val) : s.log <+: (stmt.exec m s).log := by
  simp only [Stmt.exec]
  split
  · exact prefix_rfl
  · exact prefix_append _ _

theorem log_execAll (statements : List Stmt) (s : State Mem Val) :
    s.log <+: (execAll m statements s).log := by
  induction statements generalizing s with
  | nil => exact prefix_rfl
  | cons stmt rest ih => exact (stmt.log_exec s).trans (ih _)

variable {calls : List Call} {first n : ℕ}

theorem log_runTasks (p : Nested Task) (s : State Mem Val) : s.log <+: (runTasks m n p s).1.log :=
  Nested.run_keeps (I := fun s' : State Mem Val => s.log <+: s'.log)
    (fun task _ s' hs' => hs'.trans (log_execAll task.statements s')) prefix_rfl

theorem log_repeatWhile {k : ℕ} {level : ℕ} (p : Nested Task) (s : State Mem Val) :
    s.log <+: (repeatWhile (runTasks m n p) (m.again level) k s).1.log :=
  repeatWhile_keeps (m.again level) (I := fun s' : State Mem Val => s.log <+: s'.log)
    (fun s' hs' => hs'.trans (log_runTasks p s')) k prefix_rfl

variable {body p : Nested Task} {rest : List Task} {task : Task}

theorem replay_launch {i : ℕ} (h : tasks[i]? = some task) :
    replay m tasks s₀ (calls ++ [.launchTask i]) = task.exec m (replay m tasks s₀ calls) := by
  rw [replay, foldl_append]
  simp only [foldl_cons, foldl_nil, h]
  rfl

theorem replay_continue (calls : List Call) (level : ℤ) :
    replay m tasks s₀ (calls ++ [.continueLevel level]) = replay m tasks s₀ calls := by
  rw [replay, foldl_append]
  rfl

theorem perform_continue (hlength : calls.length < budget) (level : ℕ) :
    Calls.perform (.continueLevel level) (backend m tasks s₀ budget) calls =
      (.done (m.again level (replay m tasks s₀ calls)) (calls ++ [.continueLevel level]) :
        Outcome Call Fault Bool) := by
  have hbudget : calls.length < (backend m tasks s₀ budget).budget := hlength
  rw [Calls.perform, if_pos hbudget]
  simp [backend, replay_continue, Meaning.again]

theorem perform_launch (hlength : calls.length < budget) (i : ℕ) :
    Calls.perform (.launchTask i) (backend m tasks s₀ budget) calls =
      (.done true (calls ++ [.launchTask i]) : Outcome Call Fault Bool) := by
  have hbudget : calls.length < (backend m tasks s₀ budget).budget := hlength
  rw [Calls.perform, if_pos hbudget]
  simp [backend]

theorem perform_cutOff (hlength : ¬ calls.length < budget) (call : Call) :
    Calls.perform call (backend m tasks s₀ budget) calls =
      (.cutOff calls : Outcome Call Fault Bool) :=
  if_neg hlength

theorem exec_loop (level : ℕ) (body rest : Program) (first : ℕ) (env : Environment Call)
    (calls : List Call) : (Program.loop level body rest).exec first env calls =
      (Calls.doWhile Fault.endless (body.exec first) (.continueLevel level) (env.budget + 1) >>=
        fun finished => if finished then rest.exec (first + body.numTasks) else pure false)
        env calls :=
  rfl

/-- What the driver has done is what the run has done, as far as the driver has come. -/
def Follows (m : Meaning Mem Val) (tasks : List Task) (s₀ : State Mem Val)
    (outcome : Outcome Call Fault Bool) (result : State Mem Val × Bool) : Prop :=
  match outcome with
  | .done finished calls => finished = true ∧ result = (replay m tasks s₀ calls, true)
  | .cutOff calls => (replay m tasks s₀ calls).log <+: result.1.log
  | .fault _ => True

theorem follows_doWhile (level : ℕ)
    (hbody : ∀ calls, Follows m tasks s₀ ((shape body).exec first (backend m tasks s₀ budget) calls)
      (runTasks m (budget + 1) body (replay m tasks s₀ calls))) (k : ℕ) (calls : List Call) :
    Follows m tasks s₀
      (Calls.doWhile .endless ((shape body).exec first) (.continueLevel level) k
        (backend m tasks s₀ budget) calls)
      (repeatWhile (runTasks m (budget + 1) body) (m.again level) k (replay m tasks s₀ calls)) := by
  induction k generalizing calls with
  | zero => trivial
  | succ k ih =>
    have hpass := hbody calls
    rw [Calls.doWhile, Calls.bind_apply, repeatWhile]
    cases hout : (shape body).exec first (backend m tasks s₀ budget) calls with
    | fault error => trivial
    | cutOff calls' =>
      rw [hout] at hpass
      simp only [Follows] at hpass ⊢
      split
      · split
        · exact hpass.trans (log_repeatWhile body _)
        · exact hpass
      · exact hpass
    | done finished calls' =>
      rw [hout] at hpass
      obtain ⟨rfl, hresult⟩ := hpass
      simp only [hresult, if_true]
      rw [Calls.bind_apply]
      by_cases hlength : calls'.length < budget
      · rw [perform_continue hlength]
        have hnext := ih (calls' ++ [.continueLevel level])
        rw [replay_continue] at hnext
        cases m.again level (replay m tasks s₀ calls') with
        | true => exact hnext
        | false => exact ⟨rfl, by rw [replay_continue]; rfl⟩
      · rw [perform_cutOff hlength]
        simp only [Follows]
        split
        · exact log_repeatWhile body _
        · exact prefix_rfl

theorem drop_of_prefix_cons (h : task :: rest <+: tasks.drop first) :
    tasks[first]? = some task ∧ rest <+: tasks.drop (first + 1) := by
  obtain ⟨back, hback⟩ := h
  constructor
  · rw [← List.head?_drop, ← hback]
    rfl
  · refine ⟨back, ?_⟩
    rw [← drop_drop, ← hback]
    rfl

theorem drop_of_prefix_append {front : List Task} (h : front ++ rest <+: tasks.drop first) :
    front <+: tasks.drop first ∧ rest <+: tasks.drop (first + front.length) := by
  obtain ⟨back, hback⟩ := h
  rw [append_assoc] at hback
  refine ⟨⟨_, hback⟩, back, ?_⟩
  rw [← drop_drop, ← hback, drop_left]

theorem follows_exec (calls : List Call) (htasks : p.flatten <+: tasks.drop first) :
    Follows m tasks s₀ ((shape p).exec first (backend m tasks s₀ budget) calls)
      (runTasks m (budget + 1) p (replay m tasks s₀ calls)) := by
  induction p generalizing first calls with
  | done => exact ⟨rfl, rfl⟩
  | item task rest ih =>
    obtain ⟨hget, hrest⟩ := drop_of_prefix_cons htasks
    rw [shape, Program.exec, Calls.bind_apply]
    by_cases hlength : calls.length < budget
    · rw [perform_launch hlength]
      have hnext := ih (calls ++ [.launchTask first]) hrest
      rw [replay_launch hget] at hnext
      exact hnext
    · rw [perform_cutOff hlength]
      exact log_runTasks _ _
  | loop level body rest ihbody ihrest =>
    have hsplit := drop_of_prefix_append htasks
    have hloop := follows_doWhile level (fun calls => ihbody calls hsplit.1)
      (budget + 1) calls
    have hbudget : (backend m tasks s₀ budget).budget = budget := rfl
    rw [shape, exec_loop, Calls.bind_apply, runTasks_loop, hbudget]
    cases hout : Calls.doWhile Fault.endless ((shape body).exec first) (.continueLevel level)
        (budget + 1) (backend m tasks s₀ budget) calls with
    | fault error => trivial
    | cutOff calls' =>
      rw [hout] at hloop
      simp only [Follows] at hloop ⊢
      split
      · exact hloop.trans (log_runTasks rest _)
      · exact hloop
    | done finished calls' =>
      rw [hout] at hloop
      obtain ⟨rfl, hresult⟩ := hloop
      rw [hresult, if_pos rfl, numTasks_shape]
      exact ihrest calls' hsplit.2

/-- A driver that ends after at most `N` further calls, in the state of the run. -/
def EndsWithin (m : Meaning Mem Val) (tasks : List Task) (s₀ : State Mem Val) (calls : List Call)
    (N : ℕ) (outcome : Outcome Call Fault Bool) (result : State Mem Val) : Prop :=
  ∃ calls', outcome = .done true calls' ∧ calls'.length ≤ calls.length + N ∧
    replay m tasks s₀ calls' = result

theorem ends_doWhile (level : ℕ) (hbody : ∀ s, (runTasks m n body s).2 = true → ∃ N, ∀ budget calls,
      replay m tasks s₀ calls = s → calls.length + N ≤ budget →
      EndsWithin m tasks s₀ calls N ((shape body).exec first (backend m tasks s₀ budget) calls)
        (runTasks m n body s).1) :
    ∀ (k : ℕ) (s : State Mem Val),
      (repeatWhile (runTasks m n body) (m.again level) k s).2 = true →
      ∃ N, ∀ budget calls gas, replay m tasks s₀ calls = s → calls.length + N ≤ budget → N ≤ gas →
        EndsWithin m tasks s₀ calls N
          (Calls.doWhile .endless ((shape body).exec first) (.continueLevel level) gas
            (backend m tasks s₀ budget) calls)
          (repeatWhile (runTasks m n body) (m.again level) k s).1 := by
  intro k
  induction k with
  | zero => exact fun s h => nomatch h
  | succ k ih =>
    intro s h
    rw [repeatWhile] at h ⊢
    cases hfinished : (runTasks m n body s).2 with
    | false =>
      rw [hfinished] at h
      cases h
    | true =>
      simp only [hfinished, if_true] at h ⊢
      obtain ⟨N₁, hN₁⟩ := hbody s hfinished
      have hpass : ∀ budget calls gas, replay m tasks s₀ calls = s →
          calls.length + (N₁ + 1) ≤ budget →
          ∃ calls₁, calls₁.length ≤ calls.length + N₁ ∧
            replay m tasks s₀ calls₁ = (runTasks m n body s).1 ∧
            Calls.doWhile .endless ((shape body).exec first) (.continueLevel level) (gas + 1)
              (backend m tasks s₀ budget) calls =
            (if m.again level (runTasks m n body s).1 then
              Calls.doWhile Fault.endless ((shape body).exec first) (.continueLevel level) gas
            else pure true) (backend m tasks s₀ budget) (calls₁ ++ [.continueLevel level]) := by
        intro budget calls gas hcalls hbudget
        obtain ⟨calls₁, hexec, hlength, hreplay⟩ := hN₁ budget calls hcalls (by omega)
        refine ⟨calls₁, hlength, hreplay, ?_⟩
        rw [Calls.doWhile, Calls.bind_apply, hexec]
        simp only [if_true]
        rw [Calls.bind_apply, perform_continue (by omega), hreplay]
      cases hagain : m.again level (runTasks m n body s).1 with
      | false =>
        refine ⟨N₁ + 1, fun budget calls gas hcalls hbudget hgas => ?_⟩
        obtain ⟨gas, rfl⟩ := Nat.exists_eq_succ_of_ne_zero (show gas ≠ 0 by omega)
        obtain ⟨calls₁, hlength, hreplay, hloop⟩ := hpass budget calls gas hcalls hbudget
        rw [hagain] at hloop
        refine ⟨_, hloop, ?_, ?_⟩
        · rw [length_append, length_singleton]
          omega
        · rw [replay_continue]
          exact hreplay
      | true =>
        simp only [hagain, if_true] at h
        obtain ⟨N₂, hN₂⟩ := ih _ h
        refine ⟨N₁ + 1 + N₂, fun budget calls gas hcalls hbudget hgas => ?_⟩
        obtain ⟨gas, rfl⟩ := Nat.exists_eq_succ_of_ne_zero (show gas ≠ 0 by omega)
        obtain ⟨calls₁, hlength, hreplay, hloop⟩ :=
          hpass budget calls gas hcalls (by omega)
        rw [hagain] at hloop
        have hlength₁ : (calls₁ ++ [Call.continueLevel level]).length = calls₁.length + 1 :=
          length_append
        obtain ⟨calls₂, hnext, hlength₂, hreplay₂⟩ := hN₂ budget
          (calls₁ ++ [.continueLevel level]) gas (by rw [replay_continue, hreplay])
          (by omega) (by omega)
        exact ⟨calls₂, hloop.trans hnext, by omega, hreplay₂⟩

theorem ends_exec (s₀ : State Mem Val)
    (htasks : p.flatten <+: tasks.drop first) (s : State Mem Val) (h : (runTasks m n p s).2 = true) :
    ∃ N, ∀ budget calls, replay m tasks s₀ calls = s → calls.length + N ≤ budget →
      EndsWithin m tasks s₀ calls N ((shape p).exec first (backend m tasks s₀ budget) calls)
        (runTasks m n p s).1 := by
  induction p generalizing first s with
  | done => exact ⟨0, fun budget calls hcalls _ => ⟨calls, rfl, le_rfl, hcalls⟩⟩
  | item task rest ih =>
    have hsplit := drop_of_prefix_cons htasks
    obtain ⟨N, hN⟩ := ih hsplit.2 (task.exec m s) h
    refine ⟨N + 1, fun budget calls hcalls hbudget => ?_⟩
    have hlength : (calls ++ [Call.launchTask first]).length = calls.length + 1 :=
      length_append
    obtain ⟨calls', hexec, hlength', hreplay⟩ := hN budget (calls ++ [.launchTask first])
      (by rw [replay_launch hsplit.1, hcalls]) (by omega)
    refine ⟨calls', ?_, by omega, hreplay⟩
    rw [shape, Program.exec, Calls.bind_apply, perform_launch (by omega)]
    exact hexec
  | loop level body rest ihbody ihrest =>
    have hsplit := drop_of_prefix_append htasks
    rw [runTasks_loop] at h ⊢
    cases hfinished : (repeatWhile (runTasks m n body) (m.again level) n s).2 with
    | false =>
      rw [hfinished] at h
      cases h
    | true =>
      simp only [hfinished, if_true] at h ⊢
      obtain ⟨N₁, hN₁⟩ := ends_doWhile level (ihbody hsplit.1) n s hfinished
      obtain ⟨N₂, hN₂⟩ := ihrest hsplit.2 _ h
      refine ⟨N₁ + N₂, fun budget calls hcalls hbudget => ?_⟩
      have hgas : (backend m tasks s₀ budget).budget = budget := rfl
      obtain ⟨calls₁, hloop, hlength₁, hreplay₁⟩ := hN₁ budget calls (budget + 1) hcalls
        (by omega) (by omega)
      obtain ⟨calls₂, hexec, hlength₂, hreplay₂⟩ := hN₂ budget calls₁ hreplay₁ (by omega)
      refine ⟨calls₂, ?_, by omega, hreplay₂⟩
      rw [shape, exec_loop, Calls.bind_apply, hgas, hloop, numTasks_shape]
      exact hexec

end Driver

end Quadrants.Offload
