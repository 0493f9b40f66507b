import Mathlib.Algebra.GroupWithZero.Nat
import Mathlib.Data.List.Dedup
import Mathlib.Data.List.MinMax
import Mathlib.Data.List.Perm.Subperm

/-!
# The performance dispatcher

Which registered implementation a call of a meta-function runs, and what the tables of trials,
timings and fastest implementations hold after any sequence of calls.
-/

namespace Quadrants.Frontend

open List Option Function Prod

/-- The objects passed to a call, positional and by keyword. -/
structure CallArgs (Obj : Type) where
  args : List Obj
  kwargs : List (String × Obj)
  nodup : (kwargs.map fst).Nodup

variable {Obj Impl Time : Type} [DecidableEq Obj] [DecidableEq Impl]

/-- The identity test of the last-call cache. -/
def sameArgs (a c : CallArgs Obj) : Bool :=
  a.args.length == c.args.length && a.kwargs.length == c.kwargs.length &&
    (a.args.zip c.args).all (fun p => p.1 == p.2) &&
    a.kwargs.all fun kv => c.kwargs.lookup kv.1 == some kv.2

/-- A dispatcher whose registrations are complete. The answers of `is_compatible` depend on the
arguments only. -/
structure PerformanceDispatcher (Obj Impl Time : Type) [DecidableEq Obj] where
  name : String
  forceMap : List (String × String)
  dispatchImpls : List Impl
  implName : Impl → String
  isCompatible : Impl → Option (CallArgs Obj → Bool)
  isCompatible_congr : ∀ i f a c, isCompatible i = some f → sameArgs a c → f a = f c
  geometryHash : CallArgs Obj → ℤ
  numFirstWarmup : ℕ
  numWarmup : ℕ
  numActive : ℕ
  givenRepeatAfterCount : Option ℤ
  repeatAfterSeconds : Option Time
  average : List Time → Time

/-- The per-geometry tables and the last-call cache. -/
structure DispatchState (Obj Impl Time : Type) where
  trials : ℤ → List (Impl × ℕ)
  fastest : ℤ → Option Impl
  times : ℤ → List (Impl × List Time)
  callsSince : ℤ → ℕ
  lastCheck : ℤ → Time
  firstEvalCompleted : ℤ → Bool
  cached : Option (CallArgs Obj × Impl)

/-- A call: its arguments, the order in which a set of implementations is iterated, the readings
of the clock and which implementations raise. -/
structure DispatchCall (Obj Impl Time : Type) where
  args : CallArgs Obj
  iterate : List Impl → List Impl
  iterate_perm : ∀ l, (iterate l).Perm l
  checked : Time
  started : Time
  ended : Time
  recorded : Time
  raises : Impl → Bool

inductive DispatchOutcome (Impl : Type) where
  | forced (i : Impl)
  | cached (i : Impl)
  | steady (i : Impl)
  | noneCompatible
  | only (i : Impl)
  | trial (i : Impl) (timed raised : Bool) (chosen : Option Impl)
  deriving DecidableEq

structure DispatchEvent (Impl : Type) where
  geometry : ℤ
  restarted : Bool
  outcome : DispatchOutcome Impl

/-- The implementation that a call runs. -/
def DispatchOutcome.ran : DispatchOutcome Impl → Option Impl
  | forced i | cached i | steady i | only i | trial i _ _ _ => some i
  | noneCompatible => none

/-- The implementation that a call records as fastest. -/
def DispatchOutcome.recorded : DispatchOutcome Impl → Option Impl
  | only i => some i
  | trial _ _ _ chosen => chosen
  | _ => none

/-- A measuring run of `j` that was timed, or ended by raising. -/
def DispatchOutcome.timedOrRaised (j : Impl) : DispatchOutcome Impl → Bool
  | trial i timed raised _ => i == j && (timed || raised)
  | _ => false

/-- The calls of geometry `g` since its measurements were last restarted, newest first. -/
def measuringCycle (g : ℤ) : List (DispatchEvent Impl) → List (DispatchEvent Impl)
  | [] => []
  | e :: es =>
    if e.geometry = g then if e.restarted then [e] else e :: measuringCycle g es
    else measuringCycle g es

/-- How often `j` was timed, or raised, in the measuring cycle of `g`. -/
def measuredRuns (g : ℤ) (trace : List (DispatchEvent Impl)) (j : Impl) : ℕ :=
  (measuringCycle g trace).countP fun e => e.outcome.timedOrRaised j

/-- The entry of `i` changed by `f`, or added at the end. -/
def changeEntry {β : Type} (f : Option β → β) (i : Impl) : List (Impl × β) → List (Impl × β)
  | [] => [(i, f none)]
  | (j, b) :: l => if j = i then (j, f (some b)) :: l else (j, b) :: changeEntry f i l

def trialCount (l : List (Impl × ℕ)) (i : Impl) : ℕ :=
  (l.lookup i).getD 0

theorem changeEntry_keys {β : Type} (f : Option β → β) (i : Impl) (l : List (Impl × β)) :
    (changeEntry f i l).map fst =
      if i ∈ l.map fst then l.map fst else l.map fst ++ [i] := by
  induction l with
  | nil => rfl
  | cons p l ih =>
    obtain ⟨j, b⟩ := p
    by_cases hj : j = i
    · simp [changeEntry, hj]
    · rw [changeEntry, if_neg hj, map_cons]
      have hij : i ≠ j := Ne.symm hj
      split <;> simp_all

theorem changeEntry_keys_subset {β : Type} {f : Option β → β} {i : Impl} {l : List (Impl × β)}
    {K : List Impl} (hl : l.map fst ⊆ K) (hi : i ∈ K) : (changeEntry f i l).map fst ⊆ K := by
  rw [changeEntry_keys]
  split
  · exact hl
  · exact append_subset.2 ⟨hl, by simpa using hi⟩

theorem changeEntry_keys_nodup {β : Type} (f : Option β → β) (i : Impl) {l : List (Impl × β)}
    (hl : (l.map fst).Nodup) : ((changeEntry f i l).map fst).Nodup := by
  rw [changeEntry_keys]
  split
  · exact hl
  · exact (perm_append_singleton i _).nodup_iff.2 (nodup_cons.2 ⟨‹_›, hl⟩)

theorem trialCount_changeEntry (i j : Impl) (l : List (Impl × ℕ)) :
    trialCount (changeEntry (fun n => n.getD 0 + 1) i l) j =
      trialCount l j + if i = j then 1 else 0 := by
  induction l with
  | nil =>
    by_cases hj : i = j
    · simp [changeEntry, trialCount, hj]
    · have hji : (j == i) = false := by simpa using Ne.symm hj
      simp [changeEntry, trialCount, lookup_cons, hji, hj]
  | cons p l ih =>
    obtain ⟨k, b⟩ := p
    unfold trialCount at ih ⊢
    by_cases hj : j = k
    · subst hj
      by_cases hk : j = i
      · simp [changeEntry, hk]
      · simp [changeEntry, hk, Ne.symm hk]
    · have hjk : (j == k) = false := by simpa using hj
      by_cases hk : k = i
      · subst hk
        simp [changeEntry, lookup_cons, hjk, Ne.symm hj]
      · simp only [changeEntry, if_neg hk, lookup_cons, hjk]
        exact ih

theorem mem_of_trialCount_mem {l : List (Impl × ℕ)} {j : Impl} (hj : j ∈ l.map fst) :
    trialCount l j ∈ l.map snd := by
  unfold trialCount
  cases h : l.lookup j with
  | none =>
    obtain ⟨p, hp, rfl⟩ := mem_map.1 hj
    exact absurd (lookup_eq_none_iff.1 h p hp) (by simp)
  | some n =>
    obtain ⟨l₁, l₂, rfl, -⟩ := lookup_eq_some_iff.1 h
    simp

namespace PerformanceDispatcher

variable (d : PerformanceDispatcher Obj Impl Time) (s : DispatchState Obj Impl Time)

def repeatAfterCount : Option ℤ :=
  if d.givenRepeatAfterCount.isNone && d.repeatAfterSeconds.isNone then some 300
  else d.givenRepeatAfterCount

def resolveForce : Option Impl :=
  (d.forceMap.lookup d.name).bind fun n => d.dispatchImpls.find? fun i => d.implName i == n

def compatible (a : CallArgs Obj) : List Impl :=
  d.dispatchImpls.dedup.filter fun i => (d.isCompatible i).all fun f => f a

def effectiveWarmup (g : ℤ) : ℕ :=
  if s.firstEvalCompleted g then d.numWarmup else d.numFirstWarmup

def areTrialsFinished (g : ℤ) (numCompatible : ℕ) : Bool :=
  numCompatible ≤ (s.trials g).length &&
    ((s.trials g).map snd).min?.any fun minTrials =>
      d.effectiveWarmup s g + d.numActive ≤ minTrials

theorem compatible_congr {a a' : CallArgs Obj} (h : sameArgs a a') :
    d.compatible a = d.compatible a' := by
  refine filter_congr fun i _ => ?_
  cases hf : d.isCompatible i with
  | none => rfl
  | some f => simp [d.isCompatible_congr i f a a' hf h]

/-- What holds of the tables of geometry `g`, whose calls have the compatible set `K`, when its
measuring cycle holds `runs` measuring runs of each implementation. -/
structure GeometryInv (K : List Impl) (g : ℤ) (runs : Impl → ℕ) : Prop where
  nodup : ((s.trials g).map fst).Nodup
  trialKeys : (s.trials g).map fst ⊆ K
  timeKeys : (s.times g).map fst ⊆ K
  fastest : ∀ i, s.fastest g = some i → i ∈ K
  counts : s.fastest g = none → ∀ j,
    trialCount (s.trials g) j ≤ d.effectiveWarmup s g + runs j

/-- Two states with the same tables of `g`. -/
def SameAt (g : ℤ) (s s' : DispatchState Obj Impl Time) : Prop :=
  s'.trials g = s.trials g ∧ s'.times g = s.times g ∧ s'.fastest g = s.fastest g ∧
    s'.firstEvalCompleted g = s.firstEvalCompleted g

variable {d s} {s' : DispatchState Obj Impl Time} {K : List Impl} {g : ℤ} {runs : Impl → ℕ}

theorem GeometryInv.congr (h : d.GeometryInv s K g runs) (hs : SameAt g s s') :
    d.GeometryInv s' K g runs := by
  obtain ⟨htrials, htimes, hfastest, hfirst⟩ := hs
  refine ⟨?_, ?_, ?_, ?_, ?_⟩
  · rw [htrials]
    exact h.nodup
  · rw [htrials]
    exact h.trialKeys
  · rw [htimes]
    exact h.timeKeys
  · rw [hfastest]
    exact h.fastest
  · rw [hfastest, htrials, effectiveWarmup, hfirst]
    exact h.counts

/-- When the trials of a geometry are finished, every compatible implementation has had its
warm-up and its active trials. -/
theorem areTrialsFinished_counts (h : d.areTrialsFinished s g K.length)
    (hnodup : ((s.trials g).map fst).Nodup) (hkeys : (s.trials g).map fst ⊆ K) {j : Impl}
    (hj : j ∈ K) : d.effectiveWarmup s g + d.numActive ≤ trialCount (s.trials g) j := by
  simp only [areTrialsFinished, Bool.and_eq_true, decide_eq_true_eq, Option.any_eq_true] at h
  obtain ⟨hlen, minTrials, hmin, hle⟩ := h
  have hperm : ((s.trials g).map fst).Perm K :=
    (hnodup.subperm hkeys).perm_of_length_le (by rwa [length_map])
  have hmem := mem_of_trialCount_mem (hperm.mem_iff.2 hj)
  exact hle.trans ((le_min?_iff hmin).1 le_rfl _ hmem)

/-- `runs` with one more measuring run where `o` is one. -/
def addRun (runs : Impl → ℕ) (o : DispatchOutcome Impl) (j : Impl) : ℕ :=
  runs j + if o.timedOrRaised j then 1 else 0

/-- A step of geometry `g` that keeps its tables, runs a compatible implementation and records one
only as it should. -/
structure MeasureSound (d : PerformanceDispatcher Obj Impl Time)
    (s : DispatchState Obj Impl Time) (K : List Impl) (g : ℤ) (runs : Impl → ℕ)
    (r : DispatchState Obj Impl Time × DispatchOutcome Impl) : Prop where
  inv : d.GeometryInv r.1 K g (addRun runs r.2)
  others : ∀ g', g' ≠ g → SameAt g' s r.1
  cached : ∀ a i, r.1.cached = some (a, i) → s.cached = some (a, i) ∨ i ∈ d.compatible a
  fails : r.2.ran = none → K = []
  runs_compatible : ∀ i, r.2.ran = some i → i ∈ K
  recorded : ∀ i, r.2.recorded = some i →
    K = [i] ∨ i ∈ K ∧ ∀ j ∈ K, d.numActive ≤ addRun runs r.2 j

variable {i : Impl} {s₁ : DispatchState Obj Impl Time}

/-- One more trial of `i`, which is a warm-up or adds a measuring run. -/
theorem GeometryInv.bump (h : d.GeometryInv s K g runs) (hnone : s.fastest g = none)
    (hi : i ∈ K) (o : DispatchOutcome Impl)
    (hstep : trialCount (s.trials g) i < d.effectiveWarmup s g ∨ o.timedOrRaised i) :
    d.GeometryInv { s with
      trials := update s.trials g (changeEntry (fun n => n.getD 0 + 1) i (s.trials g)) }
      K g (addRun runs o) := by
  refine ⟨?_, ?_, h.timeKeys, h.fastest, fun _ j => ?_⟩
  · simpa using changeEntry_keys_nodup _ i h.nodup
  · simpa using changeEntry_keys_subset h.trialKeys hi
  · have hj := h.counts hnone j
    simp only [update_self, trialCount_changeEntry, addRun]
    change _ ≤ d.effectiveWarmup s g + _
    by_cases hij : i = j
    · subst hij
      rcases hstep with hlt | hrun
      · rw [if_pos rfl]
        omega
      · rw [if_pos rfl, if_pos hrun]
        omega
    · rw [if_neg hij]
      omega

variable {c : DispatchCall Obj Impl Time} {compat : ℤ → List Impl}
  {trace : List (DispatchEvent Impl)}

theorem measuredRuns_cons (g : ℤ) (o : DispatchOutcome Impl) :
    measuredRuns g (⟨g, false, o⟩ :: trace) = addRun (measuredRuns g trace) o := by
  funext j
  simp [measuredRuns, measuringCycle, addRun, countP_cons]

theorem measuredRuns_restarted (g : ℤ) (o : DispatchOutcome Impl) :
    measuredRuns g (⟨g, true, o⟩ :: trace) = addRun (fun _ => 0) o := by
  funext j
  simp [measuredRuns, measuringCycle, addRun, countP_cons]

theorem measuredRuns_other {g g' : ℤ} (hg : g' ≠ g) (restarted : Bool) (o : DispatchOutcome Impl) :
    measuredRuns g' (⟨g, restarted, o⟩ :: trace) = measuredRuns g' trace := by
  funext j
  simp [measuredRuns, measuringCycle, Ne.symm hg]

/-- What holds after calls whose compatible set is `compat` of their geometry. -/
structure RunInv (d : PerformanceDispatcher Obj Impl Time) (compat : ℤ → List Impl)
    (p : DispatchState Obj Impl Time × List (DispatchEvent Impl)) : Prop where
  cached : ∀ a i, p.1.cached = some (a, i) → i ∈ d.compatible a
  tables : ∀ g, d.GeometryInv p.1 (compat g) g (measuredRuns g p.2)

/-- A call that runs one compatible implementation and records one only after a whole measuring
cycle, or because it is the only one. -/
structure CallSound (d : PerformanceDispatcher Obj Impl Time) (compat : ℤ → List Impl)
    (a : CallArgs Obj) (trace : List (DispatchEvent Impl))
    (r : DispatchState Obj Impl Time × DispatchEvent Impl) : Prop where
  inv : d.RunInv compat (r.1, r.2 :: trace)
  fails : r.2.outcome.ran = none → d.compatible a = []
  runs_compatible : ∀ i, r.2.outcome.ran = some i → i ∈ d.compatible a
  recorded : ∀ i, r.2.outcome.recorded = some i → d.compatible a = [i] ∨
    i ∈ d.compatible a ∧ ∀ j ∈ d.compatible a,
      d.numActive ≤ measuredRuns (d.geometryHash a) (r.2 :: trace) j

/-- A step that measures, in a state whose other tables are as before. -/
theorem callSound_of_measureSound (h : d.RunInv compat (s, trace)) {restarted : Bool}
    {r : DispatchState Obj Impl Time × DispatchOutcome Impl}
    (hK : d.compatible c.args = compat (d.geometryHash c.args)) (hcached : s₁.cached = s.cached)
    (hsame : ∀ g', g' ≠ d.geometryHash c.args → SameAt g' s s₁)
    (hruns : measuredRuns (d.geometryHash c.args)
      (⟨d.geometryHash c.args, restarted, r.2⟩ :: trace) = addRun runs r.2)
    (hr : d.MeasureSound s₁ (compat (d.geometryHash c.args)) (d.geometryHash c.args) runs r) :
    d.CallSound compat c.args trace
      (r.map id (DispatchEvent.mk (d.geometryHash c.args) restarted)) := by
  refine ⟨⟨fun a i hi => ?_, fun g' => ?_⟩, ?_, ?_, ?_⟩
  · rcases hr.cached a i hi with hold | hnew
    · exact h.cached a i (hcached ▸ hold)
    · exact hnew
  · by_cases hg : g' = d.geometryHash c.args
    · subst hg
      exact hruns ▸ hr.inv
    · have hother := ((h.tables g').congr (hsame g' hg)).congr (hr.others g' hg)
      exact @measuredRuns_other Impl _ trace _ _ hg restarted r.2 ▸ hother
  · rw [hK]
    exact hr.fails
  · rw [hK]
    exact hr.runs_compatible
  · rw [hK]
    exact fun i hi => hruns ▸ hr.recorded i hi

/-- A step that only runs an implementation. -/
theorem callSound_of_kept (h : d.RunInv compat (s, trace))
    {o : DispatchOutcome Impl} (hcached : s₁.cached = s.cached)
    (hsame : ∀ g', SameAt g' s s₁) (hran : o.ran = some i) (hi : i ∈ d.compatible c.args)
    (hrecorded : o.recorded = none) (htimed : ∀ j, o.timedOrRaised j = false) :
    d.CallSound compat c.args trace (s₁, ⟨d.geometryHash c.args, false, o⟩) := by
  refine ⟨⟨fun a j hj => h.cached a j (hcached ▸ hj), fun g' => ?_⟩, ?_, ?_, ?_⟩
  · have hruns : measuredRuns g' (⟨d.geometryHash c.args, false, o⟩ :: trace) =
        measuredRuns g' trace := by
      by_cases hg : g' = d.geometryHash c.args
      · subst hg
        rw [measuredRuns_cons]
        funext j
        simp [addRun, htimed j]
      · exact measuredRuns_other hg false o
    exact hruns ▸ (h.tables g').congr (hsame g')
  · simp [hran]
  · simpa [hran] using hi
  · simp [hrecorded]

variable (d s c) [LinearOrder Time] [Sub Time]

/-- One trial of `i`, out of `numCompatible` implementations. -/
def runTrial (numCompatible : ℕ) (i : Impl) :
    DispatchState Obj Impl Time × DispatchOutcome Impl :=
  let g := d.geometryHash c.args
  let inWarmup := trialCount (s.trials g) i < d.effectiveWarmup s g
  let s := { s with
    trials := update s.trials g (changeEntry (fun n => n.getD 0 + 1) i (s.trials g)) }
  if c.raises i then (s, .trial i false true none)
  else if inWarmup then (s, .trial i false false none)
  else
    let s := { s with
      times := update s.times g
        (changeEntry (fun l => l.getD [] ++ [c.ended - c.started]) i (s.times g)) }
    if d.areTrialsFinished s g numCompatible then
      let chosen := ((s.times g).argmin fun p => d.average p.2).map fst
      ({ s with
        fastest := update s.fastest g chosen
        firstEvalCompleted := update s.firstEvalCompleted g true
        lastCheck := update s.lastCheck g c.recorded }, .trial i true false chosen)
    else (s, .trial i true false none)

/-- A call that no recorded implementation answers. -/
def measure : DispatchState Obj Impl Time × DispatchOutcome Impl :=
  let g := d.geometryHash c.args
  match c.iterate (d.compatible c.args) with
  | [] => (s, .noneCompatible)
  | [i] =>
    ({ s with
      fastest := update s.fastest g (some i)
      lastCheck := update s.lastCheck g c.recorded
      cached := some (c.args, i) }, .only i)
  | i :: j :: rest =>
    match (i :: j :: rest).argmin (trialCount (s.trials g)) with
    | some k => d.runTrial s c (rest.length + 2) k
    | none => (s, .noneCompatible)

variable {d s c}

theorem runTrial_sound (h : d.GeometryInv s K (d.geometryHash c.args) runs)
    (hnone : s.fastest (d.geometryHash c.args) = none) (hi : i ∈ K) :
    d.MeasureSound s K (d.geometryHash c.args) runs (d.runTrial s c K.length i) := by
  generalize hg : d.geometryHash c.args = g at h hnone ⊢
  simp only [runTrial, hg]
  by_cases hraise : c.raises i
  · rw [if_pos hraise]
    refine ⟨h.bump hnone hi _ (.inr (by simp [DispatchOutcome.timedOrRaised])),
      fun g' hne => by simp [SameAt, hne], fun a j hj => .inl hj, by simp [DispatchOutcome.ran],
      by simpa [DispatchOutcome.ran] using hi, by simp [DispatchOutcome.recorded]⟩
  rw [if_neg hraise]
  by_cases hwarm : trialCount (s.trials g) i < d.effectiveWarmup s g
  · rw [if_pos hwarm]
    refine ⟨h.bump hnone hi _ (.inl hwarm), fun g' hne => by simp [SameAt, hne],
      fun a j hj => .inl hj, by simp [DispatchOutcome.ran],
      by simpa [DispatchOutcome.ran] using hi, by simp [DispatchOutcome.recorded]⟩
  set times := changeEntry (fun l => l.getD [] ++ [c.ended - c.started]) i (s.times g) with htimes
  have hkeys : times.map fst ⊆ K := changeEntry_keys_subset h.timeKeys hi
  have hinv : ∀ chosen, d.GeometryInv { s with
      trials := update s.trials g (changeEntry (fun n => n.getD 0 + 1) i (s.trials g))
      times := update s.times g times } K g
      (addRun runs (.trial i true false chosen)) := by
    intro chosen
    have hbump := h.bump hnone hi (.trial i true false chosen)
      (.inr (by simp [DispatchOutcome.timedOrRaised]))
    exact ⟨hbump.nodup, hbump.trialKeys, by simpa using hkeys, hbump.fastest, hbump.counts⟩
  simp only [update_self]
  split_ifs with hfin
  · set chosen := (argmin (fun p => d.average p.2) times).map fst with hchosen
    have hmem : ∀ j, chosen = some j → j ∈ K := by
      intro j hj
      obtain ⟨p, hp, rfl⟩ := map_eq_some_iff.1 hj
      exact hkeys (mem_map_of_mem (argmin_mem hp))
    have hne : chosen ≠ none := by
      intro hno
      have hnil : times = [] := argmin_eq_none.1 (map_eq_none_iff.1 hno)
      have hlen := congrArg List.length hnil
      cases htl : s.times g <;> simp [htimes, changeEntry, htl] at hlen
      split at hlen <;> simp at hlen
    have hcounts := hinv chosen
    refine ⟨⟨hcounts.nodup, hcounts.trialKeys, hcounts.timeKeys, ?_, ?_⟩,
      fun g' hne => by simp [SameAt, hne], fun a j hj => .inl hj, by simp [DispatchOutcome.ran],
      by simpa [DispatchOutcome.ran] using hi, ?_⟩
    · simp only [update_self]
      exact hmem
    · simp only [update_self]
      exact fun hno => absurd hno hne
    · intro j hj
      refine .inr ⟨hmem j hj, fun k hk => ?_⟩
      have hdone := areTrialsFinished_counts (by simpa using hfin) hcounts.nodup
        hcounts.trialKeys hk
      have hle := hcounts.counts hnone k
      exact Nat.le_of_add_le_add_left (hdone.trans hle)
  · exact ⟨hinv none, fun g' hne => by simp [SameAt, hne], fun a j hj => .inl hj,
      by simp [DispatchOutcome.ran], by simpa [DispatchOutcome.ran] using hi,
      by simp [DispatchOutcome.recorded]⟩

theorem measure_sound (h : d.GeometryInv s K (d.geometryHash c.args) runs)
    (hnone : s.fastest (d.geometryHash c.args) = none) (hK : d.compatible c.args = K) :
    d.MeasureSound s K (d.geometryHash c.args) runs (d.measure s c) := by
  subst hK
  have hperm := c.iterate_perm (d.compatible c.args)
  have hlen := hperm.length_eq
  unfold measure
  split
  next heq =>
    rw [heq] at hperm
    refine ⟨⟨h.nodup, h.trialKeys, h.timeKeys, h.fastest, fun hno j => ?_⟩,
      fun g' _ => ⟨rfl, rfl, rfl, rfl⟩, fun a j hj => .inl hj, fun _ => perm_nil.1 hperm.symm,
      by simp [DispatchOutcome.ran], by simp [DispatchOutcome.recorded]⟩
    exact h.counts hno j
  next i heq =>
    rw [heq] at hperm
    have hsingle : d.compatible c.args = [i] := perm_singleton.1 hperm.symm
    have hi : i ∈ d.compatible c.args := hsingle.symm ▸ mem_singleton_self i
    refine ⟨⟨h.nodup, h.trialKeys, h.timeKeys, ?_, by simp⟩, fun g' hne => by simp [SameAt, hne],
      ?_, by simp [DispatchOutcome.ran], ?_, ?_⟩
    · simpa using hi
    · rintro a j hj
      obtain ⟨rfl, rfl⟩ : c.args = a ∧ i = j := by simpa using hj
      exact .inr hi
    · simpa [DispatchOutcome.ran] using hi
    · rintro j hj
      obtain rfl : i = j := by simpa [DispatchOutcome.recorded] using hj
      exact .inl hsingle
  next i j rest heq =>
    obtain ⟨k, hk⟩ : ∃ k, (i :: j :: rest).argmin
        (trialCount (s.trials (d.geometryHash c.args))) = some k :=
      ne_none_iff_exists'.1 fun hno => absurd (argmin_eq_none.1 hno) (cons_ne_nil _ _)
    have hmem : k ∈ d.compatible c.args := by
      rw [← hperm.mem_iff, heq]
      exact argmin_mem hk
    have hlength : (d.compatible c.args).length = rest.length + 2 := by
      rw [← hlen, heq]
      rfl
    simp only [hk]
    exact hlength ▸ runTrial_sound h hnone hmem

variable (d s c) [Zero Time]

/-- One more call counted towards the count-based restart. -/
def countCall (g : ℤ) : DispatchState Obj Impl Time :=
  if d.repeatAfterCount.any fun n => 0 < n then
    { s with callsSince := update s.callsSince g (s.callsSince g + 1) }
  else s

def restarts (g : ℤ) (now : Time) : Bool :=
  (d.repeatAfterCount.any fun n => 0 < n ∧ n ≤ (s.callsSince g : ℤ)) ||
    d.repeatAfterSeconds.any fun r => 0 < r ∧ r ≤ now - s.lastCheck g

def restart (g : ℤ) : DispatchState Obj Impl Time :=
  { s with
    times := update s.times g []
    trials := update s.trials g []
    fastest := update s.fastest g none
    callsSince := update s.callsSince g 0 }

/-- A call that the last-call cache does not answer. -/
def lookupFastest : DispatchState Obj Impl Time × DispatchEvent Impl :=
  let g := d.geometryHash c.args
  match s.fastest g with
  | none => (d.measure s c).map id (DispatchEvent.mk g false)
  | some i =>
    let s := d.countCall s g
    if d.restarts s g c.checked then (d.measure (restart s g) c).map id (DispatchEvent.mk g true)
    else (s, ⟨g, false, .steady i⟩)

def call : DispatchState Obj Impl Time × DispatchEvent Impl :=
  match d.resolveForce with
  | some i => (s, ⟨d.geometryHash c.args, false, .forced i⟩)
  | none =>
    match s.cached with
    | none => d.lookupFastest s c
    | some (a, i) =>
      if sameArgs c.args a then (s, ⟨d.geometryHash c.args, false, .cached i⟩)
      else d.lookupFastest s c

def initial : DispatchState Obj Impl Time :=
  ⟨fun _ => [], fun _ => none, fun _ => [], fun _ => 0, fun _ => 0, fun _ => false, none⟩

/-- The state after a sequence of calls and what the calls did, newest first. -/
def run (calls : List (DispatchCall Obj Impl Time)) :
    DispatchState Obj Impl Time × List (DispatchEvent Impl) :=
  calls.foldl (fun p c => (d.call p.1 c).map id (· :: p.2)) (initial, [])

variable {d s c}

theorem lookupFastest_sound (h : d.RunInv compat (s, trace))
    (hK : d.compatible c.args = compat (d.geometryHash c.args)) :
    d.CallSound compat c.args trace (d.lookupFastest s c) := by
  have htables := h.tables (d.geometryHash c.args)
  simp only [lookupFastest]
  cases hfast : s.fastest (d.geometryHash c.args) with
  | none =>
    exact callSound_of_measureSound h hK rfl (fun _ _ => ⟨rfl, rfl, rfl, rfl⟩)
      (measuredRuns_cons _ _) (measure_sound htables hfast hK)
  | some i =>
    have hcount : ∀ g', SameAt g' s (d.countCall s (d.geometryHash c.args)) := by
      intro g'
      unfold countCall
      split <;> exact ⟨rfl, rfl, rfl, rfl⟩
    have hcached : (d.countCall s (d.geometryHash c.args)).cached = s.cached := by
      unfold countCall
      split <;> rfl
    have hi : i ∈ d.compatible c.args := hK ▸ htables.fastest i hfast
    dsimp only
    split
    · refine callSound_of_measureSound h hK ?_ (fun g' hg => ?_)
        (measuredRuns_restarted _ _) (measure_sound ?_ (by simp [restart]) hK)
      · exact hcached
      · obtain ⟨htrials, htimes, hfastest, hfirst⟩ := hcount g'
        simp [SameAt, restart, hg, htrials, htimes, hfastest, hfirst]
      · refine ⟨?_, ?_, ?_, ?_, ?_⟩ <;> simp [restart, trialCount]
    · exact callSound_of_kept h hcached hcount (rfl : (DispatchOutcome.steady i).ran = some i) hi
        rfl fun _ => rfl

theorem call_sound (h : d.RunInv compat (s, trace)) (hforce : d.resolveForce = none)
    (hK : d.compatible c.args = compat (d.geometryHash c.args)) :
    d.CallSound compat c.args trace (d.call s c) := by
  unfold call
  rw [hforce]
  simp only
  split
  next => exact lookupFastest_sound h hK
  next a i hcached =>
    split
    next hsame =>
      have hi : i ∈ d.compatible c.args := d.compatible_congr hsame ▸ h.cached a i hcached
      exact callSound_of_kept h rfl (fun _ => ⟨rfl, rfl, rfl, rfl⟩)
        (rfl : (DispatchOutcome.cached i).ran = some i) hi rfl fun _ => rfl
    next => exact lookupFastest_sound h hK

theorem run_inv (hforce : d.resolveForce = none) (calls : List (DispatchCall Obj Impl Time))
    (hK : ∀ c ∈ calls, d.compatible c.args = compat (d.geometryHash c.args)) :
    d.RunInv compat (d.run calls) := by
  induction calls using List.reverseRecOn with
  | nil =>
    refine ⟨by simp [run, initial], fun g => ?_⟩
    refine ⟨?_, ?_, ?_, ?_, ?_⟩ <;> simp [run, initial, trialCount]
  | append_singleton calls c ih =>
    have hinv := ih fun c' hc' => hK c' (mem_append_left _ hc')
    have hc := hK c (by simp)
    rw [run, foldl_append]
    exact (call_sound hinv hforce hc).inv

/-- Where no implementation is forced and calls of one geometry have the same compatible
implementations, every call runs exactly one implementation, a compatible one, unless there is none;
and an implementation is recorded as fastest only if it is the only compatible one, or after every
compatible one has had the active runs, timed unless they raised, of the measuring cycle. -/
theorem run_dispatches (d : PerformanceDispatcher Obj Impl Time)
    (calls : List (DispatchCall Obj Impl Time)) (c : DispatchCall Obj Impl Time)
    (hforce : d.resolveForce = none) (hsets : ∀ c₁ ∈ calls ++ [c], ∀ c₂ ∈ calls ++ [c],
      d.geometryHash c₁.args = d.geometryHash c₂.args →
        d.compatible c₁.args = d.compatible c₂.args) :
    let e := (d.call (d.run calls).1 c).2
    (e.outcome.ran = none ↔ d.compatible c.args = []) ∧
      (∀ i, e.outcome.ran = some i → i ∈ d.compatible c.args) ∧
      ∀ i, e.outcome.recorded = some i → d.compatible c.args = [i] ∨
        i ∈ d.compatible c.args ∧ ∀ j ∈ d.compatible c.args,
          d.numActive ≤ measuredRuns (d.geometryHash c.args) (e :: (d.run calls).2) j := by
  obtain ⟨compat, hK⟩ : ∃ compat : ℤ → List Impl, ∀ c' ∈ calls ++ [c],
      d.compatible c'.args = compat (d.geometryHash c'.args) := by
    refine ⟨fun g => (((calls ++ [c]).find? fun c' => d.geometryHash c'.args = g).map
      fun c' => d.compatible c'.args).getD [], fun c' hc' => ?_⟩
    cases hfind : (calls ++ [c]).find? fun c'' =>
        d.geometryHash c''.args = d.geometryHash c'.args with
    | none => exact absurd (find?_eq_none.1 hfind c' hc') (by simp)
    | some c'' =>
      have hhash : d.geometryHash c''.args = d.geometryHash c'.args := by
        simpa using find?_some hfind
      simp only [hfind]
      exact hsets c' hc' c'' (mem_of_find?_eq_some hfind) hhash.symm
  have hinv := run_inv hforce calls fun c' hc' => hK c' (mem_append_left _ hc')
  have hsound := call_sound hinv hforce (hK c (by simp))
  refine ⟨⟨hsound.fails, fun hnil => ?_⟩, hsound.runs_compatible, hsound.recorded⟩
  refine eq_none_iff_forall_not_mem.2 fun i hi => ?_
  have hmem := hsound.runs_compatible i hi
  rw [hnil] at hmem
  exact not_mem_nil hmem

/-- A dispatcher of two implementations with a constant geometry. -/
def constantGeometry (isCompatible : Bool → Option (ℕ → Bool)) :
    PerformanceDispatcher ℕ Bool ℕ where
  name := ""
  forceMap := []
  dispatchImpls := [false, true]
  implName := fun _ => ""
  isCompatible := fun i => (isCompatible i).map fun f a => f a.args.length
  isCompatible_congr := by
    intro i f a c hf h
    obtain ⟨f, -, rfl⟩ := map_eq_some_iff.1 hf
    have hlen : a.args.length = c.args.length := by
      simp only [sameArgs, Bool.and_eq_true, beq_iff_eq] at h
      exact h.1.1.1
    exact congrArg f hlen
  geometryHash := fun _ => 0
  numFirstWarmup := 1
  numWarmup := 0
  numActive := 1
  givenRepeatAfterCount := none
  repeatAfterSeconds := none
  average := fun l => l.sum / l.length

/-- A call with positional arguments that takes `time`. -/
def sampleCall (args : List ℕ) (time : ℕ) : DispatchCall ℕ Bool ℕ :=
  ⟨⟨args, [], nodup_nil⟩, id, Perm.refl, 0, 0, time, time, fun _ => false⟩

theorem run_dispatches_two : let d := constantGeometry fun _ => none
    let calls := [sampleCall [1] 5, sampleCall [1] 5, sampleCall [1] 4]
    let e := (d.call (d.run calls).1 (sampleCall [1] 3)).2
    e.outcome.recorded = some true ∧ ∀ j ∈ d.compatible (sampleCall [1] 3).args,
      d.numActive ≤ measuredRuns 0 (e :: (d.run calls).2) j :=
  ⟨by decide, ((run_dispatches (constantGeometry fun _ => none)
    [sampleCall [1] 5, sampleCall [1] 5, sampleCall [1] 4] (sampleCall [1] 3) (by decide)
    (by decide)).2.2 true (by decide)).resolve_left (by decide) |>.2⟩

/-- With one implementation for one argument and another for two, and one geometry for both, the
first call records the first implementation untimed, and the second call runs it. -/
theorem run_dispatches_incompatible :
    let d := constantGeometry fun i => some fun n => n == if i then 2 else 1
    let e := (d.call (d.run [sampleCall [1] 5]).1 (sampleCall [1, 1] 5)).2
    e.outcome.ran = some false ∧ false ∉ d.compatible (sampleCall [1, 1] 5).args ∧
      measuredRuns 0 (e :: (d.run [sampleCall [1] 5]).2) false = 0 := by
  decide

end PerformanceDispatcher

end Quadrants.Frontend
