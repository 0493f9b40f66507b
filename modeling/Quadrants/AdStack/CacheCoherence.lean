import Quadrants.AdStack.Cache
import Quadrants.AdStack.Denotation

/-!
Coherence of the size-expression cache over whole runs.

A run carries, next to the program, what happened to the inputs of every
expression since its value was last computed.  `Meets` is the condition under
which an evaluation may rely on the cache; `cache_hit_eq_fresh` says that along
every run whose evaluations meet it, what the cache serves is what a fresh walk
returns.
-/

namespace Quadrants.AdStack.CacheCoherence

open Quadrants.Library.StatefulLoops List Option Function Prod
open Quadrants.AdStack.SizeExpr
open Quadrants.AdStack.Denotation
open Quadrants.AdStack.Cache

inductive Place
  | snode (id : Int32)
  | array (ptr : Ptr)
deriving DecidableEq, Repr

section Generations

variable {κ : Type}

def gen (cache : AdStackCache κ) : Place → Nat
  | .snode id => cache.snodeWriteGen id
  | .array ptr => cache.ndarrayDataGen ptr

/-- The cache remembers that some entry depends on a place.  A null pointer is
never remembered. -/
def Noted (cache : AdStackCache κ) : Place → Prop
  | .snode id => id ∈ cache.observedSnodeIds
  | .array ptr => ptr ≠ nullPtr → ptr ∈ cache.observedDevallocPtrs

structure FlagsCover (cache : AdStackCache κ) : Prop where
  snode : ∀ id ∈ cache.observedSnodeIds, cache.anyRecordings = true
  array : ∀ ptr ∈ cache.observedDevallocPtrs,
    cache.anyRecordings = true ∧ cache.anyExternalReadObserved = true

/-- A sequence of bumps over some places: nothing but the counters changes, no
counter goes back, and the counter of every remembered place advances. -/
structure Bumped (places : List Place) (cache cache' : AdStackCache κ) : Prop where
  frame : cache' = { cache with
    snodeWriteGen := cache'.snodeWriteGen
    ndarrayDataGen := cache'.ndarrayDataGen }
  mono : ∀ p, gen cache p ≤ gen cache' p
  advanced : ∀ p ∈ places, Noted cache p → gen cache p < gen cache' p

theorem Bumped.refl (cache : AdStackCache κ) : Bumped [] cache cache :=
  ⟨rfl, fun _ => Nat.le_refl _, by simp⟩

variable {cache : AdStackCache κ} {ctx : LaunchContextBuilder} {gate : Ptr → Bool} {p : Place}
variable {places : List Place}

variable {cache' : AdStackCache κ}

theorem Bumped.noted (h : Bumped places cache cache') : Noted cache' p ↔ Noted cache p := by
  rw [h.frame]
  cases p <;> rfl

theorem Bumped.trans {places₁ places₂ : List Place} {c₁ c₂ c₃ : AdStackCache κ}
    (h₁ : Bumped places₁ c₁ c₂) (h₂ : Bumped places₂ c₂ c₃) :
    Bumped (places₁ ++ places₂) c₁ c₃ := by
  refine ⟨?_, fun p => Nat.le_trans (h₁.mono p) (h₂.mono p), ?_⟩
  · rw [h₂.frame, h₁.frame]
  · intro p hp hnoted
    rcases mem_append.mp hp with hp | hp
    · exact Nat.lt_of_lt_of_le (h₁.advanced p hp hnoted) (h₂.mono p)
    · exact Nat.lt_of_le_of_lt (h₁.mono p) (h₂.advanced p hp (h₁.noted.mpr hnoted))

theorem bumped_foldl {α : Type} (places : α → List Place)
    {f : AdStackCache κ → α → AdStackCache κ} {P : AdStackCache κ → Prop}
    (hstep : ∀ cache a, P cache → Bumped (places a) cache (f cache a))
    (hframe : ∀ places cache cache', P cache → Bumped places cache cache' → P cache')
    (as : List α) (cache : AdStackCache κ) (hP : P cache) :
    Bumped (as.flatMap places) cache (as.foldl f cache) := by
  induction as generalizing cache with
  | nil => exact Bumped.refl cache
  | cons a as ih =>
    have hhead := hstep cache a hP
    exact hhead.trans (ih _ (hframe _ _ _ hP hhead))

theorem bumped_snode (cache : AdStackCache κ) (snodeId : Int32) :
    Bumped [.snode snodeId] cache (cache.bumpSnodeWriteGen snodeId) := by
  refine ⟨rfl, ?_, ?_⟩
  · rintro (id | ptr)
    · by_cases h : id = snodeId
      · subst h
        simp [gen, AdStackCache.bumpSnodeWriteGen]
      · simp [gen, AdStackCache.bumpSnodeWriteGen, h]
    · exact Nat.le_refl _
  · intro p hp _
    rw [mem_singleton.mp hp]
    simp [gen, AdStackCache.bumpSnodeWriteGen]

theorem bumped_array (cache : AdStackCache κ) (ptr : Ptr) :
    Bumped [.array ptr] cache (cache.bumpNdarrayDataGen ptr) := by
  refine ⟨rfl, ?_, ?_⟩
  · rintro (id | q)
    · exact Nat.le_refl _
    · by_cases h : q = ptr
      · subst h
        simp [gen, AdStackCache.bumpNdarrayDataGen]
      · simp [gen, AdStackCache.bumpNdarrayDataGen, h]
  · intro p hp _
    rw [mem_singleton.mp hp]
    simp [gen, AdStackCache.bumpNdarrayDataGen]

theorem bumped_skip (h : ∀ p ∈ places, ¬ Noted cache p) : Bumped places cache cache :=
  ⟨rfl, fun _ => Nat.le_refl _, fun p hp hnoted => absurd hnoted (h p hp)⟩

def dataPtrPlaces (ctx : LaunchContextBuilder) (argId : Int32) : List Place :=
  match ctx.arrayPtrs argId with
  | some ptr => if ptr = nullPtr then [] else [.array ptr]
  | none => []

def readArgPlaces (ctx : LaunchContextBuilder) (argId : Int32) : List Place :=
  if ctx.deviceAllocationType argId = some .none then dataPtrPlaces ctx argId else []

def GateCovers (gate : Ptr → Bool) (cache : AdStackCache κ) : Prop :=
  ∀ ptr, ptr ≠ nullPtr → Noted cache (.array ptr) → gate ptr = true

theorem GateCovers.of_bumped (h : GateCovers gate cache)
    (hbump : Bumped places cache cache') : GateCovers gate cache' :=
  fun ptr hptr hnoted => h ptr hptr (hbump.noted.mp hnoted)

theorem bumped_dataPtr (argId : Int32) (hgate : GateCovers gate cache) :
    Bumped (dataPtrPlaces ctx argId) cache (bumpDataPtr ctx gate cache argId) := by
  unfold dataPtrPlaces bumpDataPtr
  cases ctx.arrayPtrs argId with
  | none => exact Bumped.refl cache
  | some ptr =>
    by_cases hnull : ptr = nullPtr
    · simp only [hnull, ne_eq, not_true_eq_false, false_and, if_true, if_false]
      exact Bumped.refl cache
    · simp only [hnull, ne_eq, not_false_eq_true, true_and, if_false]
      split
      · exact bumped_array cache ptr
      · rename_i hclosed
        apply bumped_skip
        intro p hp hnoted
        rw [mem_singleton.mp hp] at hnoted
        exact hclosed (hgate ptr hnull hnoted)

theorem bumped_readArg (argId : Int32) (hgate : GateCovers gate cache) :
    Bumped (readArgPlaces ctx argId) cache (bumpReadArg ctx gate cache argId) := by
  unfold readArgPlaces bumpReadArg
  split
  · exact bumped_dataPtr argId hgate
  · exact Bumped.refl cache

theorem bumped_dataPtrs (ctx : LaunchContextBuilder) (argIds : List Int32)
    (hgate : GateCovers gate cache) : Bumped (argIds.flatMap (dataPtrPlaces ctx)) cache
      (argIds.foldl (bumpDataPtr ctx gate) cache) :=
  bumped_foldl (dataPtrPlaces ctx) (fun _ argId => bumped_dataPtr argId)
    (fun _ _ _ h => h.of_bumped) argIds cache hgate

theorem bumped_readArgs (ctx : LaunchContextBuilder) (argIds : List Int32)
    (hgate : GateCovers gate cache) : Bumped (argIds.flatMap (readArgPlaces ctx)) cache
      (argIds.foldl (bumpReadArg ctx gate) cache) :=
  bumped_foldl (readArgPlaces ctx) (fun _ argId => bumped_readArg argId)
    (fun _ _ _ h => h.of_bumped) argIds cache hgate

theorem bumped_snodes (snodes : List Int32) (cache : AdStackCache κ) :
    Bumped (snodes.flatMap fun id => [.snode id]) cache
      (snodes.foldl AdStackCache.bumpSnodeWriteGen cache) :=
  bumped_foldl (P := fun _ => True) (fun id => [.snode id])
    (fun cache id _ => bumped_snode cache id) (fun _ _ _ _ _ => trivial) snodes cache trivial

def taskPlaces (ctx : LaunchContextBuilder) (task : OffloadedTask) : List Place :=
  (task.snodeWrites.flatMap fun id => [.snode id]) ++
    task.arrWrites.flatMap (dataPtrPlaces ctx) ++ task.arrReads.flatMap (readArgPlaces ctx)

theorem bumpWritesForKernelLlvm_bumped (ctx : LaunchContextBuilder)
    (tasks : List OffloadedTask) (cache : AdStackCache κ) :
    Bumped (tasks.flatMap (taskPlaces ctx)) cache
      (bumpWritesForKernelLlvm ctx tasks cache) := by
  have hopen : ∀ c : AdStackCache κ, GateCovers (fun _ => true) c := fun _ _ _ _ => rfl
  refine bumped_foldl (P := fun _ => True) (taskPlaces ctx) ?_ (fun _ _ _ _ _ => trivial)
    tasks cache trivial
  intro c task _
  exact ((bumped_snodes task.snodeWrites c).trans
    (bumped_dataPtrs ctx task.arrWrites (hopen _))).trans
    (bumped_readArgs ctx task.arrReads (hopen _))

def perTaskPlaces (ctx : LaunchContextBuilder)
    (snodeWritesPerTask arrWritesPerTask arrReadsPerTask : List (List Int32)) : List Place :=
  (snodeWritesPerTask.flatten.flatMap fun id => [.snode id]) ++
    (arrWritesPerTask.flatten.flatMap (dataPtrPlaces ctx) ++
      arrReadsPerTask.flatten.flatMap (readArgPlaces ctx))

theorem mem_dataPtrPlaces {argId : Int32}
    (h : p ∈ dataPtrPlaces ctx argId) : ∃ ptr, p = .array ptr ∧ ptr ≠ nullPtr := by
  unfold dataPtrPlaces at h
  split at h
  · rename_i ptr _
    split at h
    · simp at h
    · rename_i hnull
      exact ⟨ptr, mem_singleton.mp h, hnull⟩
  · simp at h

theorem mem_arrPlaces {writes reads : List Int32}
    (h : p ∈ writes.flatMap (dataPtrPlaces ctx) ++ reads.flatMap (readArgPlaces ctx)) :
    ∃ ptr, p = .array ptr ∧ ptr ≠ nullPtr := by
  rcases mem_append.mp h with h | h
  · obtain ⟨argId, -, h⟩ := mem_flatMap.mp h
    exact mem_dataPtrPlaces h
  · obtain ⟨argId, -, h⟩ := mem_flatMap.mp h
    unfold readArgPlaces at h
    split at h
    · exact mem_dataPtrPlaces h
    · simp at h

theorem bumpWritesForKernelLlvmPerTask_bumped (ctx : LaunchContextBuilder)
    (snodes writes reads : List (List Int32)) (hflags : FlagsCover cache) :
    Bumped (perTaskPlaces ctx snodes writes reads) cache
      (bumpWritesForKernelLlvmPerTask ctx snodes writes reads cache) := by
  unfold bumpWritesForKernelLlvmPerTask perTaskPlaces
  split
  · rename_i hnone
    apply bumped_skip
    intro p hp hnoted
    rcases mem_append.mp hp with hp | hp
    · obtain ⟨id, -, hp⟩ := mem_flatMap.mp hp
      rw [mem_singleton.mp hp] at hnoted
      simp [hflags.snode id hnoted] at hnone
    · obtain ⟨ptr, rfl, hnull⟩ := mem_arrPlaces hp
      simp [(hflags.array ptr (hnoted hnull)).1] at hnone
  · have hsnodes : Bumped (snodes.flatten.flatMap fun id => [.snode id]) cache
        (snodes.flatten.foldl (fun cache snodeId =>
            if snodeId ∈ cache.observedSnodeIds then cache.bumpSnodeWriteGen snodeId
            else cache) cache) := by
      refine bumped_foldl (P := fun _ => True) (fun id => [.snode id]) ?_
        (fun _ _ _ _ _ => trivial) snodes.flatten cache trivial
      intro c id _
      split
      · exact bumped_snode c id
      · rename_i hid
        apply bumped_skip
        intro p hp hnoted
        rw [mem_singleton.mp hp] at hnoted
        exact hid hnoted
    refine hsnodes.trans ?_
    have hflag := congrArg AdStackCache.anyExternalReadObserved hsnodes.frame
    have hptrs := congrArg AdStackCache.observedDevallocPtrs hsnodes.frame
    simp only [hflag, hptrs]
    split
    · rename_i hnone
      apply bumped_skip
      intro p hp hnoted
      obtain ⟨ptr, rfl, hnull⟩ := mem_arrPlaces hp
      have hmem := hsnodes.noted.mp hnoted hnull
      simp [(hflags.array ptr hmem).2] at hnone
    · have hgate : GateCovers (fun ptr => decide (ptr ∈ cache.observedDevallocPtrs))
          (snodes.flatten.foldl (fun cache snodeId =>
              if snodeId ∈ cache.observedSnodeIds then cache.bumpSnodeWriteGen snodeId
              else cache) cache) := by
        intro ptr hnull hnoted
        exact decide_eq_true (hsnodes.noted.mp hnoted hnull)
      have hwrites := bumped_dataPtrs ctx writes.flatten hgate
      exact hwrites.trans (bumped_readArgs ctx reads.flatten (hgate.of_bumped hwrites))

def spirvPlaces (ctx : LaunchContextBuilder) (access : ArrAccess) : List Place :=
  if spirvBumps ctx access then
    match ctx.arrayPtrs access.argId with
    | some ptr => [.array ptr]
    | none => []
  else []

theorem bumpWritesForKernelSpirv_bumped (ctx : LaunchContextBuilder)
    (snodes : List (List Int32)) (arrAccess : List ArrAccess) (cache : AdStackCache κ) :
    Bumped ((snodes.flatten.flatMap fun id => [.snode id]) ++
        arrAccess.flatMap (spirvPlaces ctx)) cache
      (bumpWritesForKernelSpirv ctx snodes arrAccess cache) := by
  refine (bumped_snodes snodes.flatten cache).trans ?_
  refine bumped_foldl (P := fun _ => True) (spirvPlaces ctx) ?_ (fun _ _ _ _ _ => trivial)
    arrAccess _ trivial
  intro c access _
  unfold spirvPlaces
  split
  · cases ctx.arrayPtrs access.argId with
    | none => exact Bumped.refl c
    | some ptr => exact bumped_array c ptr
  · exact Bumped.refl c

end Generations

section Histories

variable {κ : Type} [DecidableEq κ] (exprs : κ → SerializedSizeExpr) (archIsCpu : Bool)

def bumpedBy : Event κ → List Place
  | .bumpLlvm ctx tasks => tasks.flatMap (taskPlaces ctx)
  | .bumpLlvmPerTask ctx snodes writes reads => perTaskPlaces ctx snodes writes reads
  | .bumpSpirv ctx snodes arrAccess =>
    (snodes.flatten.flatMap fun id => [.snode id]) ++ arrAccess.flatMap (spirvPlaces ctx)
  | _ => []

def writtenBy : Event κ → List Place
  | .runTask ctx task _ =>
    task.snodeWrites.map .snode ++ (argPtrs ctx task.arrWrites).map .array
  | .hostWrite ptr _ => [.array ptr]
  | _ => []

def destroyedBy : Event κ → List Int32
  | .destroySnodeTree snodes => snodes
  | _ => []

/-- What happened since the value of an expression was last computed, and the
context it was computed in. -/
structure SinceComputed where
  ctx : Option LaunchContextBuilder := none
  bumped : List Place := []
  written : List Place := []
  destroyed : List Int32 := []

def SinceComputed.extend (h : SinceComputed) (e : Event κ) : SinceComputed :=
  { h with
    bumped := h.bumped ++ bumpedBy e
    written := h.written ++ writtenBy e
    destroyed := h.destroyed ++ destroyedBy e }

/-- A program with its history.  `overwrittenReads` holds the SNodes that were
written after the open launch scope had read them. -/
structure Run (κ : Type) where
  state : ProgramState κ
  since : κ → SinceComputed
  overwrittenReads : List Int32

def readInScope (scope : Option LaunchScopedReadCache) (id : Int32) : Bool :=
  (scope.getD []).any fun entry => entry.1.1 == id

def writtenSnodes (places : List Place) : List Int32 :=
  places.filterMap fun
    | .snode id => some id
    | .array _ => none

def misses (s : ProgramState κ) (key : κ) (ctx : Option LaunchContextBuilder) : Bool :=
  (trySizeExprCacheHit s.cache key ctx).1.isNone

def Run.stepSince (r : Run κ) : Event κ → κ → SinceComputed
  | .evaluate key ctx =>
    if misses r.state key ctx then update r.since key { ctx := ctx } else r.since
  | e => fun key => (r.since key).extend e

def Run.step (r : Run κ) (e : Event κ) : Run κ :=
  let state := r.state.step exprs archIsCpu e
  { state := state
    since := r.stepSince e
    overwrittenReads :=
      if state.launchScope.isNone then []
      else r.overwrittenReads ++
        (writtenSnodes (writtenBy e)).filter (readInScope r.state.launchScope) }

def Run.initial (memory : Memory) : Run κ where
  state := ProgramState.initial memory
  since := fun _ => {}
  overwrittenReads := []

def exprLeaves (expr : SerializedSizeExpr) : List SerializedSizeExprNode :=
  leaves expr expr.nodes.length expr.rootIdx

/-- The extents that an external read multiplies into its strides are the same
in two contexts. -/
def SameStrides (node : SerializedSizeExprNode) (c₁ c₂ : LaunchContextBuilder) : Prop :=
  ∀ axis, 0 < axis → axis < node.indices.length →
    c₁.structArgs (shapeSlot node.argIdPath (Int32.ofNat axis)) =
      c₂.structArgs (shapeSlot node.argIdPath (Int32.ofNat axis))

/-- A place was not written since, or its generation was advanced too. -/
def SinceComputed.Announced (h : SinceComputed) (p : Place) : Prop :=
  p ∈ h.written → p ∈ h.bumped

/-- The condition on one leaf of an evaluated expression.  A field must still
exist, must not have been written behind the back of the open launch scope, and
no write since the last computation may have gone unannounced; an external
array must have no unannounced write, and must not be the same memory under
other strides. -/
def LeafMeets (r : Run κ) (h : SinceComputed) (ctx : Option LaunchContextBuilder)
    (node : SerializedSizeExprNode) : Prop :=
  match node.kind with
  | .fieldLoad =>
    node.snodeId ∉ r.overwrittenReads ∧ node.snodeId ∉ h.destroyed ∧
      h.Announced (.snode node.snodeId)
  | .externalTensorRead =>
    ∀ c₁ c₂ ptr, h.ctx = some c₁ → ctx = some c₂ →
      boundDataPtr h.ctx node = some ptr → boundDataPtr ctx node = some ptr →
        h.Announced (.array ptr) ∧ SameStrides node c₁ c₂
  | _ => True

def Meets (r : Run κ) : Event κ → Prop
  | .evaluate key ctx =>
    ∀ node ∈ exprLeaves (exprs key), LeafMeets r (r.since key) ctx node
  | _ => True

inductive Reachable : Run κ → Prop
  | initial (memory : Memory) : Reachable (Run.initial memory)
  | step {r : Run κ} {e : Event κ} : Reachable r → Meets exprs r e →
      Reachable (r.step exprs archIsCpu e)

end Histories

section Noting

variable {κ : Type}

def ObservedBy (reads : List SizeExprReadObservation) : Place → Prop
  | .snode id => ∃ o ∈ reads, o.kind = .fieldLoadObs ∧ o.snodeId = id
  | .array ptr => ∃ o ∈ reads, o.kind = .externalReadObs ∧ o.observedDevalloc = some ptr

/-- Noting observations adds to what is remembered and leaves entries and
counters alone. -/
structure Grown (cache cache' : AdStackCache κ) : Prop where
  entries : cache'.sizeExprCache = cache.sizeExprCache
  gens : ∀ p, gen cache' p = gen cache p
  noted : ∀ p, Noted cache p → Noted cache' p
  flag : (∀ ptr ∈ cache.observedDevallocPtrs, cache.anyExternalReadObserved = true) →
    ∀ ptr ∈ cache'.observedDevallocPtrs, cache'.anyExternalReadObserved = true

theorem Grown.trans {c₁ c₂ c₃ : AdStackCache κ} (h₁ : Grown c₁ c₂) (h₂ : Grown c₂ c₃) :
    Grown c₁ c₃ :=
  ⟨h₂.entries.trans h₁.entries, fun p => (h₂.gens p).trans (h₁.gens p),
    fun p h => h₂.noted p (h₁.noted p h), fun h => h₂.flag (h₁.flag h)⟩

theorem noteObservation_grown (cache : AdStackCache κ) (obs : SizeExprReadObservation) :
    Grown cache (cache.noteObservation obs) := by
  unfold AdStackCache.noteObservation
  cases obs.kind with
  | fieldLoadObs =>
    refine ⟨rfl, by rintro (_ | _) <;> rfl, ?_, fun h => h⟩
    rintro (id | ptr) h
    · exact mem_cons_of_mem _ h
    · exact h
  | externalShapeObs =>
    exact ⟨rfl, fun _ => rfl, fun _ h => h, fun h => h⟩
  | externalReadObs =>
    refine ⟨rfl, by rintro (_ | _) <;> rfl, ?_, fun _ _ _ => rfl⟩
    rintro (id | ptr) h
    · exact h
    · intro hnull
      have hmem := h hnull
      simp only
      split
      · split
        · exact hmem
        · exact mem_cons_of_mem _ hmem
      · exact hmem

variable {p : Place}

theorem noteObservation_observed (cache : AdStackCache κ) {obs : SizeExprReadObservation}
    (h : ObservedBy [obs] p) : Noted (cache.noteObservation obs) p := by
  unfold AdStackCache.noteObservation
  rcases p with id | ptr
  · obtain ⟨o, ho, hkind, hid⟩ := h
    rw [mem_singleton.mp ho] at hkind hid
    simp [hkind, hid, Noted]
  · obtain ⟨o, ho, hkind, hptr⟩ := h
    rw [mem_singleton.mp ho] at hkind hptr
    intro hnull
    simp [hkind, hptr, hnull]

theorem noteObservations_grown (reads : List SizeExprReadObservation)
    (cache : AdStackCache κ) : Grown cache (cache.noteObservations reads) := by
  induction reads generalizing cache with
  | nil => exact ⟨rfl, fun _ => rfl, fun _ h => h, fun h => h⟩
  | cons obs reads ih => exact (noteObservation_grown cache obs).trans (ih _)

variable {cache : AdStackCache κ} {reads : List SizeExprReadObservation}

theorem noteObservations_observed
    (cache : AdStackCache κ) (h : ObservedBy reads p) : Noted (cache.noteObservations reads) p := by
  induction reads generalizing cache with
  | nil => rcases p with id | ptr <;> simp [ObservedBy] at h
  | cons obs reads ih =>
    have hcases : ObservedBy [obs] p ∨ ObservedBy reads p := by
      rcases p with id | ptr <;> simpa [ObservedBy] using h
    rcases hcases with hobs | hrest
    · exact (noteObservations_grown reads _).noted p (noteObservation_observed cache hobs)
    · exact ih _ hrest

variable [DecidableEq κ]

theorem gen_recordSizeExprEval (cache : AdStackCache κ) (key : κ) (result : Int64)
    (reads : List SizeExprReadObservation) (p : Place) :
    gen (recordSizeExprEval cache key result reads) p = gen cache p := by
  rw [← (noteObservations_grown reads cache).gens p]
  cases p <;> rfl

theorem recordSizeExprEval_noted (key : κ) (result : Int64)
    (h : Noted cache p ∨ ObservedBy reads p) :
    Noted (recordSizeExprEval cache key result reads) p := by
  have hnoted : Noted (cache.noteObservations reads) p := by
    rcases h with h | h
    · exact (noteObservations_grown reads cache).noted p h
    · exact noteObservations_observed cache h
  cases p <;> exact hnoted

theorem recordSizeExprEval_flags (key : κ) (result : Int64)
    (reads : List SizeExprReadObservation) (h : FlagsCover cache) :
    FlagsCover (recordSizeExprEval cache key result reads) := by
  refine ⟨fun _ _ => rfl, fun ptr hptr => ⟨rfl, ?_⟩⟩
  exact (noteObservations_grown reads cache).flag (fun q hq => (h.array q hq).2) ptr hptr

theorem recordSizeExprEval_entries (cache : AdStackCache κ) (key : κ) (result : Int64)
    (reads : List SizeExprReadObservation) :
    (recordSizeExprEval cache key result reads).sizeExprCache =
      update cache.sizeExprCache key (some ⟨result, reads⟩) := by
  simp only [recordSizeExprEval, (noteObservations_grown reads cache).entries]

end Noting

section Invariant

variable {κ : Type} {exprs : κ → SerializedSizeExpr} {archIsCpu : Bool}

def viewGen (view : ProgramView) : Place → Nat
  | .snode id => view.snodeWriteGen id
  | .array ptr => view.ndarrayDataGen ptr

/-- How a program relates to the view an entry was computed from: what was not
touched since is unchanged, and what was bumped and observed has a higher
generation. -/
structure Snapshot (view : ProgramView) (h : SinceComputed)
    (reads : List SizeExprReadObservation) (s : ProgramState κ) : Prop where
  noted : ∀ p, ObservedBy reads p → Noted s.cache p
  mono : ∀ p, viewGen view p ≤ gen s.cache p
  advanced : ∀ p ∈ h.bumped, ObservedBy reads p → viewGen view p < gen s.cache p
  fields : ∀ id, .snode id ∉ h.written → view.readInt id = s.memory.readInt id
  arrays : ∀ ptr, .array ptr ∉ h.written → view.arrayBytes ptr = s.memory.arrayBytes ptr
  snodes : ∀ id, id ∉ h.destroyed → view.hasSnode id = s.memory.hasSnode id

/-- An entry holds the result and the observations of a walk over a view. -/
def Computed (expr : SerializedSizeExpr) (view : ProgramView)
    (ctx : Option LaunchContextBuilder) (entry : SizeExprCacheEntry) : Prop :=
  ∃ live st st', FieldsLive live (exprLeaves expr) ∧ ReadCacheAgrees view live st ∧
    st.boundVars = emptyBoundVars ∧ st.reads = some [] ∧ st'.reads = some entry.reads ∧
    evaluateNode expr view ctx expr.nodes.length expr.rootIdx st = .ok (entry.result, st')

/-- The reads of the open launch scope are up to date, except where the run
knows better. -/
def ScopeAgrees (r : Run κ) : Prop :=
  ∀ map, r.state.launchScope = some map → ∀ key v, key.1 ∉ r.overwrittenReads →
    map.lookup key = some v → r.state.memory.readInt key.1 key.2 = v

structure Coherent (exprs : κ → SerializedSizeExpr) (archIsCpu : Bool) (r : Run κ) :
    Prop where
  flags : FlagsCover r.state.cache
  scope : ScopeAgrees r
  entries : ∀ key entry, r.state.cache.sizeExprCache key = some entry →
    ∃ view, view.archIsCpu = archIsCpu ∧
      Computed (exprs key) view (r.since key).ctx entry ∧
      Snapshot view (r.since key) entry.reads r.state

variable {ctx : Option LaunchContextBuilder} {h : SinceComputed} {node : SerializedSizeExprNode}
variable {r : Run κ} {view : ProgramView}

variable {c₁ c₂ : LaunchContextBuilder} {entry : SizeExprCacheEntry}
variable {reads : List SizeExprReadObservation} {s : ProgramState κ} {view₁ view₂ : ProgramView}

theorem Computed.accounted {expr : SerializedSizeExpr} (h : Computed expr view ctx entry) :
    ∀ node ∈ exprLeaves expr, Accounted view ctx entry.reads node := by
  obtain ⟨live, st, st', hlive, hcache, -, hreads, hreads', hrun⟩ := h
  obtain ⟨-, hwalk⟩ := evaluateNode_denote hcache hlive hrun
  obtain ⟨obs, hobs, hacc⟩ := hwalk.reads
  have heq : entry.reads = obs := by
    simpa [hreads, hreads'] using hobs
  rw [heq]
  exact hacc (by simp [hreads])

theorem Snapshot.not_written
    (hsnap : Snapshot view h reads s) {p : Place} (hobs : ObservedBy reads p)
    (hgen : gen s.cache p = viewGen view p) (hann : h.Announced p) : p ∉ h.written := by
  intro hwritten
  have hadv := hsnap.advanced p (hann hwritten) hobs
  omega

theorem linearOffset_congr {path : List Int32}
    (idxs : List Int64) {axis : Nat} (linear stride : Int64)
    (h : ∀ a, 0 < a → a ≤ axis → c₁.structArgs (shapeSlot path (Int32.ofNat a)) =
      c₂.structArgs (shapeSlot path (Int32.ofNat a))) :
    linearOffset c₁ path idxs axis linear stride =
      linearOffset c₂ path idxs axis linear stride := by
  induction idxs generalizing axis linear stride with
  | nil => rfl
  | cons idx idxs ih =>
    have htail : ∀ a, 0 < a → a ≤ axis - 1 →
        c₁.structArgs (shapeSlot path (Int32.ofNat a)) =
          c₂.structArgs (shapeSlot path (Int32.ofNat a)) :=
      fun a ha hle => h a ha (by omega)
    simp only [linearOffset]
    rw [ih _ _ htail]
    by_cases haxis : 0 < axis
    · rw [if_pos haxis, if_pos haxis, h axis haxis (Nat.le_refl axis)]
    · rw [if_neg haxis, if_neg haxis]

theorem fieldValue_of_same (hsnode : view₁.hasSnode node.snodeId = view₂.hasSnode node.snodeId)
    (hread : view₁.readInt node.snodeId = view₂.readInt node.snodeId) (env : BoundVars) :
    fieldValue view₁ node env = fieldValue view₂ node env := by
  simp only [fieldValue, hsnode, hread]

theorem externalReadValue_of_same {ptr : Ptr} (hptr₁ : boundDataPtr (some c₁) node = some ptr)
    (hptr₂ : boundDataPtr (some c₂) node = some ptr)
    (hbytes : view₁.arrayBytes ptr = view₂.arrayBytes ptr)
    (hstrides : SameStrides node c₁ c₂) {env : BoundVars} {v : Int64}
    (h : externalReadValue view₁ (some c₁) node env = .ok v) :
    externalReadValue view₂ (some c₂) node env = .ok v := by
  simp only [externalReadValue, bind_eq_ok] at h ⊢
  obtain ⟨⟨c, q⟩, hq, resolved, hres, hread⟩ := h
  obtain ⟨hc, hbound⟩ := resolveDataPtr_eq_ok.mp hq
  obtain rfl : c₁ = c := by simpa using hc
  obtain rfl : ptr = q := by simpa [hptr₁] using hbound
  refine ⟨(c₂, ptr), resolveDataPtr_eq_ok.mpr ⟨rfl, hptr₂⟩, resolved, hres, ?_⟩
  have hlen := resolveIndices_length hres
  have hlinear : linearOffset c₁ node.argIdPath resolved.reverse (resolved.length - 1) 0 1 =
      linearOffset c₂ node.argIdPath resolved.reverse (resolved.length - 1) 0 1 :=
    linearOffset_congr resolved.reverse 0 1 fun a ha hle => hstrides a ha (by omega)
  simp only [readElement, hlinear, hbytes] at hread ⊢
  exact hread

theorem leafAgrees_of_fresh
    (hsnap : Snapshot view h entry.reads r.state) (hacc : Accounted view h.ctx entry.reads node)
    (hfresh : ∀ o ∈ entry.reads, replayObservationIsFresh r.state.cache ctx o = true)
    (hmeets : LeafMeets r h ctx node) :
    LeafAgrees view (r.state.view archIsCpu) h.ctx ctx node := by
  unfold LeafAgrees
  cases hkind : node.kind with
  | const | add | sub | mul | max | maxOverRange | boundVariable => trivial
  | fieldLoad =>
    simp only [Accounted, hkind] at hacc
    simp only [LeafMeets, hkind] at hmeets
    obtain ⟨o, ho, hokind, hoid, hogen⟩ := hacc
    obtain ⟨-, hdestroyed, hann⟩ := hmeets
    have hreplay := hfresh o ho
    simp only [replayObservationIsFresh, hokind, hoid, hogen, beq_iff_eq] at hreplay
    have hobs : ObservedBy entry.reads (.snode node.snodeId) := ⟨o, ho, hokind, hoid⟩
    have hkept := hsnap.not_written hobs hreplay hann
    intro env v hv
    rw [← hv]
    exact (fieldValue_of_same (hsnap.snodes _ hdestroyed) (hsnap.fields _ hkept) env).symm
  | externalTensorShape =>
    simp only [Accounted, hkind] at hacc
    obtain ⟨c, hc, o, ho, hokind, hopath, hoaxis, hovalue⟩ := hacc
    have hreplay := hfresh o ho
    simp only [replayObservationIsFresh, hokind] at hreplay
    intro v hv
    cases ctx with
    | none => simp at hreplay
    | some c₂ =>
      simp only [hopath, hoaxis, hovalue, beq_iff_eq] at hreplay
      simp only [externalShapeValue, hc, Except.ok.injEq] at hv ⊢
      rw [hreplay, hv]
  | externalTensorRead =>
    simp only [Accounted, hkind] at hacc
    simp only [LeafMeets, hkind] at hmeets
    intro env v hv
    -- the recorded walk had a data pointer here, or it would have failed
    have hbound : ∃ c₁ ptr, h.ctx = some c₁ ∧ boundDataPtr h.ctx node = some ptr := by
      simp only [externalReadValue, bind_eq_ok] at hv
      obtain ⟨⟨c, q⟩, hq, -⟩ := hv
      obtain ⟨hc, hq⟩ := resolveDataPtr_eq_ok.mp hq
      exact ⟨c, q, hc, hq⟩
    obtain ⟨c₁, ptr, hc₁, hptr⟩ := hbound
    obtain ⟨o, ho, hokind, hopath, hodevalloc, hogen⟩ := hacc ptr hptr
    have hreplay := hfresh o ho
    simp only [replayObservationIsFresh, hokind, hopath, hodevalloc, hogen] at hreplay
    cases ctx with
    | none => simp at hreplay
    | some c₂ =>
      have hptr₂ : boundDataPtr (some c₂) node = some ptr ∧
          r.state.cache.ndarrayDataGen ptr = view.ndarrayDataGen ptr := by
        simp only [boundDataPtr, bind_eq_bind, bind_some]
        cases hhead : node.argIdPath.head? with
        | none => simp [hhead] at hreplay
        | some argId =>
          cases hget : c₂.arrayPtrs argId with
          | none => simp [hhead, hget] at hreplay
          | some q =>
            simp only [hhead, hget, Bool.and_eq_true, beq_iff_eq, Option.some.injEq] at hreplay
            obtain ⟨rfl, hgen⟩ := hreplay
            exact ⟨by simp [hget], hgen⟩
      obtain ⟨hann, hstrides⟩ := hmeets c₁ c₂ ptr hc₁ rfl hptr hptr₂.1
      have hobs : ObservedBy entry.reads (.array ptr) := ⟨o, ho, hokind, hodevalloc⟩
      have hkept := hsnap.not_written hobs hptr₂.2 hann
      rw [hc₁] at hv hptr
      exact externalReadValue_of_same hptr hptr₂.1 (hsnap.arrays ptr hkept) hstrides hv

theorem scope_readCacheAgrees (archIsCpu : Bool) (h : ScopeAgrees r) :
    ReadCacheAgrees (r.state.view archIsCpu) (· ∉ r.overwrittenReads)
      { boundVars := emptyBoundVars
        reads := some []
        launchReadCache := some (r.state.launchScope.getD []) } := by
  intro map hmap key v hlive hlookup
  simp only [Option.some.injEq] at hmap
  subst hmap
  cases hscope : r.state.launchScope with
  | none => simp [hscope] at hlookup
  | some map =>
    rw [hscope] at hlookup
    exact h map hscope key v hlive hlookup

theorem Snapshot.of_recorded {s' : ProgramState κ}
    (hsnap : Snapshot view h reads s) (hmemory : s'.memory = s.memory)
    (hgen : ∀ p, gen s'.cache p = gen s.cache p)
    (hnoted : ∀ p, Noted s.cache p → Noted s'.cache p) : Snapshot view h reads s' := by
  refine ⟨fun p hobs => hnoted p (hsnap.noted p hobs), ?_, ?_, ?_, ?_, ?_⟩
  · intro p
    rw [hgen]
    exact hsnap.mono p
  · intro p hp hobs
    rw [hgen]
    exact hsnap.advanced p hp hobs
  · rw [hmemory]
    exact hsnap.fields
  · rw [hmemory]
    exact hsnap.arrays
  · rw [hmemory]
    exact hsnap.snodes

theorem coherent_recorded {key : κ}
    {result : Int64} {st : EvalState} (h : Coherent exprs archIsCpu r)
    (hmeets : Meets exprs r (.evaluate key ctx))
    (hwalk : walkFromRoot (exprs key) (r.state.view archIsCpu) ctx
      (r.state.launchScope.getD []) = .ok (result, st)) :
    Computed (exprs key) (r.state.view archIsCpu) ctx ⟨result, st.reads.getD []⟩ ∧
      ReadCacheAgrees (r.state.view archIsCpu) (· ∉ r.overwrittenReads) st := by
  have hlive : FieldsLive (· ∉ r.overwrittenReads) (exprLeaves (exprs key)) := by
    intro node hnode hkind
    have hleaf := hmeets node hnode
    simp only [LeafMeets, hkind] at hleaf
    exact hleaf.1
  have hscope := scope_readCacheAgrees archIsCpu h.scope
  obtain ⟨-, hwalked⟩ := evaluateNode_denote hscope hlive hwalk
  obtain ⟨obs, hobs, -⟩ := hwalked.reads
  refine ⟨⟨_, _, st, hlive, hscope, rfl, rfl, ?_, hwalk⟩, hwalked.cache hscope⟩
  simp [hobs]

theorem coherent_initial (memory : Memory) : Coherent exprs archIsCpu (Run.initial memory) := by
  refine ⟨⟨?_, ?_⟩, ?_, ?_⟩
  · intro id hid
    simp [Run.initial, ProgramState.initial] at hid
  · intro ptr hptr
    simp [Run.initial, ProgramState.initial] at hptr
  · intro map hmap
    simp [Run.initial, ProgramState.initial] at hmap
  · intro key entry hentry
    simp [Run.initial, ProgramState.initial] at hentry

end Invariant

section Preservation

variable {κ : Type}

structure WorldStep (e : Event κ) (s s' : ProgramState κ) : Prop where
  cache : Bumped (bumpedBy e) s.cache s'.cache
  fields : ∀ id, .snode id ∉ writtenBy e → s'.memory.readInt id = s.memory.readInt id
  arrays : ∀ ptr, .array ptr ∉ writtenBy e →
    s'.memory.arrayBytes ptr = s.memory.arrayBytes ptr
  snodes : ∀ id, id ∉ destroyedBy e → s'.memory.hasSnode id = s.memory.hasSnode id
  scope : s'.launchScope = s.launchScope ∨ ∀ map, s'.launchScope = some map → map = []

def Event.isEvaluate : Event κ → Bool
  | .evaluate _ _ => true
  | _ => false

theorem FlagsCover.of_bumped {places : List Place} {cache cache' : AdStackCache κ}
    (h : FlagsCover cache) (hbump : Bumped places cache cache') : FlagsCover cache' := by
  rw [hbump.frame]
  exact ⟨h.snode, h.array⟩

variable {ctx : Option LaunchContextBuilder} {e : Event κ} {key : κ} {r : Run κ}

variable {s : ProgramState κ} {v : Int64} {view : ProgramView}

theorem Snapshot.extend {h : SinceComputed}
    {reads : List SizeExprReadObservation} {s' : ProgramState κ}
    (hsnap : Snapshot view h reads s) (hstep : WorldStep e s s') :
    Snapshot view (h.extend e) reads s' := by
  refine ⟨?_, ?_, ?_, ?_, ?_, ?_⟩
  · intro p hobs
    exact hstep.cache.noted.mpr (hsnap.noted p hobs)
  · intro p
    exact Nat.le_trans (hsnap.mono p) (hstep.cache.mono p)
  · intro p hp hobs
    rcases mem_append.mp hp with hp | hp
    · exact Nat.lt_of_lt_of_le (hsnap.advanced p hp hobs) (hstep.cache.mono p)
    · exact Nat.lt_of_le_of_lt (hsnap.mono p)
        (hstep.cache.advanced p hp (hsnap.noted p hobs))
  · intro id hid
    rw [SinceComputed.extend, mem_append, not_or] at hid
    rw [hsnap.fields id hid.1, hstep.fields id hid.2]
  · intro ptr hptr
    rw [SinceComputed.extend, mem_append, not_or] at hptr
    rw [hsnap.arrays ptr hptr.1, hstep.arrays ptr hptr.2]
  · intro id hid
    rw [SinceComputed.extend, mem_append, not_or] at hid
    rw [hsnap.snodes id hid.1, hstep.snodes id hid.2]

variable [DecidableEq κ] {exprs : κ → SerializedSizeExpr} {archIsCpu : Bool}

theorem step_world (he : Event.isEvaluate e = false)
    (hflags : FlagsCover s.cache) : WorldStep e s (s.step exprs archIsCpu e) := by
  cases e with
  | evaluate key ctx => simp [Event.isEvaluate] at he
  | bumpLlvm ctx tasks =>
    exact ⟨bumpWritesForKernelLlvm_bumped ctx tasks s.cache, fun _ _ => rfl,
      fun _ _ => rfl, fun _ _ => rfl, Or.inl rfl⟩
  | bumpLlvmPerTask ctx snodes writes reads =>
    exact ⟨bumpWritesForKernelLlvmPerTask_bumped ctx snodes writes reads hflags,
      fun _ _ => rfl, fun _ _ => rfl, fun _ _ => rfl, Or.inl rfl⟩
  | bumpSpirv ctx snodes arrAccess =>
    exact ⟨bumpWritesForKernelSpirv_bumped ctx snodes arrAccess s.cache, fun _ _ => rfl,
      fun _ _ => rfl, fun _ _ => rfl, Or.inl rfl⟩
  | runTask ctx task data =>
    refine ⟨Bumped.refl _, ?_, ?_, fun _ _ => rfl, Or.inl rfl⟩
    · intro id hid
      have hmem : id ∉ task.snodeWrites := by simpa [writtenBy] using hid
      simp [ProgramState.step, Memory.overwrite, hmem]
    · intro ptr hptr
      have hmem : ptr ∉ argPtrs ctx task.arrWrites := by simpa [writtenBy] using hptr
      simp [ProgramState.step, Memory.overwrite, hmem]
  | hostWrite ptr data =>
    refine ⟨Bumped.refl _, ?_, ?_, fun _ _ => rfl, Or.inl rfl⟩
    · simp [ProgramState.step, Memory.overwrite]
    · intro q hq
      have hne : q ≠ ptr := by simpa [writtenBy] using hq
      simp [ProgramState.step, Memory.overwrite, hne]
  | openLaunchScope =>
    refine ⟨Bumped.refl _, fun _ _ => rfl, fun _ _ => rfl, fun _ _ => rfl, ?_⟩
    cases hscope : s.launchScope with
    | none =>
      simp [ProgramState.step, hscope]
    | some map =>
      simp [ProgramState.step, hscope]
  | closeLaunchScope =>
    refine ⟨Bumped.refl _, fun _ _ => rfl, fun _ _ => rfl, fun _ _ => rfl, ?_⟩
    right
    intro map hmap
    simp [ProgramState.step] at hmap
  | destroySnodeTree snodes =>
    refine ⟨Bumped.refl _, fun _ _ => rfl, fun _ _ => rfl, ?_, Or.inl rfl⟩
    intro id hid
    have hmem : id ∉ snodes := by simpa [destroyedBy] using hid
    simp [ProgramState.step, Memory.destroySnodes, hmem]

theorem lookup_readInScope {map : LaunchScopedReadCache} {key : Int32 × List Int32}
    (h : map.lookup key = some v) : readInScope (some map) key.1 = true := by
  induction map with
  | nil => simp at h
  | cons entry map ih =>
    obtain ⟨k, w⟩ := entry
    rw [lookup_cons] at h
    simp only [readInScope, getD_some, any_cons, Bool.or_eq_true, beq_iff_eq]
    split at h
    · rename_i heq
      left
      simpa using (congrArg fst (by simpa using heq : key = k)).symm
    · right
      simpa [readInScope] using ih h

theorem scopeAgrees_world (hscope : ScopeAgrees r)
    (hstep : WorldStep e r.state (r.state.step exprs archIsCpu e)) :
    ScopeAgrees (r.step exprs archIsCpu e) := by
  intro map hmap key v hkey hlookup
  rcases hstep.scope with hsame | hempty
  · rw [show (r.step exprs archIsCpu e).state.launchScope =
      (r.state.step exprs archIsCpu e).launchScope from rfl, hsame] at hmap
    have hover : (r.step exprs archIsCpu e).overwrittenReads = r.overwrittenReads ++
        (writtenSnodes (writtenBy e)).filter (readInScope r.state.launchScope) := by
      simp [Run.step, hsame, hmap]
    rw [hover, mem_append, not_or] at hkey
    have hkept : .snode key.1 ∉ writtenBy e := by
      intro hwritten
      apply hkey.2
      rw [mem_filter, hmap]
      exact ⟨mem_filterMap.mpr ⟨_, hwritten, rfl⟩, lookup_readInScope hlookup⟩
    rw [show (r.step exprs archIsCpu e).state.memory =
      (r.state.step exprs archIsCpu e).memory from rfl, hstep.fields key.1 hkept]
    exact hscope map hmap key v hkey.1 hlookup
  · rw [hempty map hmap] at hlookup
    simp at hlookup

theorem coherent_world (he : Event.isEvaluate e = false)
    (h : Coherent exprs archIsCpu r) : Coherent exprs archIsCpu (r.step exprs archIsCpu e) := by
  have hstep : WorldStep e r.state (r.state.step exprs archIsCpu e) := step_world he h.flags
  have hsince : (r.step exprs archIsCpu e).since = fun key => (r.since key).extend e := by
    cases e with
    | evaluate key ctx => simp [Event.isEvaluate] at he
    | _ => rfl
  refine ⟨h.flags.of_bumped hstep.cache, scopeAgrees_world h.scope hstep, ?_⟩
  intro key entry hentry
  have hframe := congrArg AdStackCache.sizeExprCache hstep.cache.frame
  obtain ⟨view, harch, hcomputed, hsnap⟩ := h.entries key entry (by
    rw [← hentry]
    exact congrFun hframe.symm key)
  rw [hsince]
  exact ⟨view, harch, hcomputed, hsnap.extend hstep⟩

theorem trySizeExprCacheHit_cases (cache : AdStackCache κ) (key : κ)
    (ctx : Option LaunchContextBuilder) : (∃ entry, cache.sizeExprCache key = some entry ∧
      (∀ o ∈ entry.reads, replayObservationIsFresh cache ctx o = true) ∧
      trySizeExprCacheHit cache key ctx = (some entry.result, cache)) ∨
    trySizeExprCacheHit cache key ctx =
      (none, { cache with sizeExprCache := update cache.sizeExprCache key none }) := by
  unfold trySizeExprCacheHit
  cases hentry : cache.sizeExprCache key with
  | none =>
    right
    have hsame : update cache.sizeExprCache key none = cache.sizeExprCache := by
      rw [← hentry, update_eq_self]
    rw [hsame]
  | some entry =>
    simp only
    split
    · rename_i hall
      left
      exact ⟨entry, rfl, all_eq_true.mp hall, rfl⟩
    · exact Or.inr rfl

theorem hit_eq_fresh (h : Coherent exprs archIsCpu r) (hmeets : Meets exprs r (.evaluate key ctx))
    (hhit : (trySizeExprCacheHit r.state.cache key ctx).1 = some v) :
    ∃ st, walkFromRoot (exprs key) (r.state.view archIsCpu) ctx [] = .ok (v, st) := by
  rcases trySizeExprCacheHit_cases r.state.cache key ctx with
    ⟨entry, hentry, hfresh, heq⟩ | heq
  · rw [heq] at hhit
    obtain rfl : entry.result = v := by simpa using hhit
    obtain ⟨view, harch, hcomputed, hsnap⟩ := h.entries key entry hentry
    have hacc := hcomputed.accounted
    obtain ⟨live, st, st', hlive, hcache, hvars, hreads, -, hrun⟩ := hcomputed
    have hagree : LeavesAgree view (r.state.view archIsCpu) (r.since key).ctx ctx
        (exprLeaves (exprs key)) := fun node hnode =>
      leafAgrees_of_fresh hsnap (hacc node hnode) hfresh (hmeets node hnode)
    refine evaluateNode_transfer _ (by rw [harch]; rfl) hagree hlive hcache ?_ hvars.symm
      (by rw [hreads]) hrun
    intro map hmap key' w _ hlookup
    simp only [Option.some.injEq] at hmap
    simp [← hmap] at hlookup
  · rw [heq] at hhit
    simp at hhit

theorem Computed.nodes_ne_nil {expr : SerializedSizeExpr}
    {entry : SizeExprCacheEntry} (h : Computed expr view ctx entry) : expr.nodes ≠ [] := by
  rintro hnil
  obtain ⟨live, st, st', -, -, -, -, -, hrun⟩ := h
  simp [hnil, evaluateNode] at hrun

theorem evaluate_cases (exprs : κ → SerializedSizeExpr) (archIsCpu : Bool) (key : κ)
    (ctx : Option LaunchContextBuilder) (s : ProgramState κ) :
    (s.step exprs archIsCpu (.evaluate key ctx) = s ∧
      ((exprs key).nodes = [] ∨ misses s key ctx = false)) ∨
    (misses s key ctx = true ∧ s.step exprs archIsCpu (.evaluate key ctx) = { s with
          cache := { s.cache with
            sizeExprCache := update s.cache.sizeExprCache key none }
          launchScope := none }) ∨
    ∃ result st, misses s key ctx = true ∧
      walkFromRoot (exprs key) (s.view archIsCpu) ctx (s.launchScope.getD []) =
        .ok (result, st) ∧
      s.step exprs archIsCpu (.evaluate key ctx) =
        { s with
          cache := recordSizeExprEval { s.cache with
            sizeExprCache := update s.cache.sizeExprCache key none }
            key result (st.reads.getD [])
          launchScope := s.launchScope.bind fun _ => st.launchReadCache } := by
  simp only [ProgramState.step, evaluateAdstackSizeExpr]
  by_cases hnil : (exprs key).nodes = []
  · simp [hnil]
  rw [if_neg hnil]
  rcases trySizeExprCacheHit_cases s.cache key ctx with ⟨entry, -, -, heq⟩ | heq
  · simp [misses, heq]
  · right
    rw [heq]
    cases hwalk : walkFromRoot (exprs key) (s.view archIsCpu) ctx (s.launchScope.getD []) with
    | error e =>
      left
      refine ⟨by simp [misses, heq], ?_⟩
      simp only
      rw [show ProgramState.view archIsCpu { s with
        cache := { s.cache with
          sizeExprCache := update s.cache.sizeExprCache key none } } =
            s.view archIsCpu from rfl, hwalk]
    | ok out =>
      right
      obtain ⟨result, st⟩ := out
      refine ⟨result, st, by simp [misses, heq], rfl, ?_⟩
      simp only
      rw [show ProgramState.view archIsCpu { s with
        cache := { s.cache with
          sizeExprCache := update s.cache.sizeExprCache key none } } =
            s.view archIsCpu from rfl, hwalk]

theorem stepSince_of_ne {key' : κ}
    (hne : key' ≠ key) : r.stepSince (.evaluate key ctx) key' = r.since key' := by
  simp only [Run.stepSince]
  split
  · exact update_of_ne hne _ _
  · rfl

theorem stepSince_of_miss (hmiss : misses r.state key ctx = true) :
    r.stepSince (.evaluate key ctx) key = { ctx := ctx } := by
  simp [Run.stepSince, hmiss]

theorem coherent_evaluate
    (h : Coherent exprs archIsCpu r) (hmeets : Meets exprs r (.evaluate key ctx)) :
    Coherent exprs archIsCpu (r.step exprs archIsCpu (.evaluate key ctx)) := by
  rcases evaluate_cases exprs archIsCpu key ctx r.state with
    ⟨hstate, hwhy⟩ | ⟨hmiss, hstate⟩ | ⟨result, st, hmiss, hwalk, hstate⟩
  · refine ⟨?_, ?_, ?_⟩
    · simpa only [Run.step, hstate] using h.flags
    · intro map hmap k v hk hlookup
      simp only [Run.step, hstate] at hmap hk ⊢
      rw [hmap] at hk
      exact h.scope map hmap k v (by simpa [writtenBy, writtenSnodes] using hk) hlookup
    · intro k entry hentry
      simp only [Run.step, hstate] at hentry ⊢
      obtain ⟨view, harch, hcomputed, hsnap⟩ := h.entries k entry hentry
      have hsince : r.stepSince (.evaluate key ctx) k = r.since k := by
        by_cases hk : k = key
        · subst hk
          rcases hwhy with hnil | hhit
          · exact absurd hnil hcomputed.nodes_ne_nil
          · simp [Run.stepSince, hhit]
        · exact stepSince_of_ne hk
      rw [hsince]
      exact ⟨view, harch, hcomputed, hsnap⟩
  · refine ⟨?_, ?_, ?_⟩
    · simp only [Run.step, hstate]
      exact ⟨h.flags.snode, h.flags.array⟩
    · intro map hmap
      simp [Run.step, hstate] at hmap
    · intro k entry hentry
      simp only [Run.step, hstate] at hentry ⊢
      by_cases hk : k = key
      · simp [hk] at hentry
      · rw [update_of_ne hk] at hentry
        obtain ⟨view, harch, hcomputed, hsnap⟩ := h.entries k entry hentry
        rw [stepSince_of_ne hk]
        exact ⟨view, harch, hcomputed,
          hsnap.of_recorded rfl (by rintro (_ | _) <;> rfl) (by rintro (_ | _) h <;> exact h)⟩
  · obtain ⟨hcomputed, hcache⟩ := coherent_recorded h hmeets hwalk
    have hflags : FlagsCover { r.state.cache with
        sizeExprCache := update r.state.cache.sizeExprCache key none } :=
      ⟨h.flags.snode, h.flags.array⟩
    refine ⟨?_, ?_, ?_⟩
    · simp only [Run.step, hstate]
      exact recordSizeExprEval_flags key result _ hflags
    · intro map hmap k v hk hlookup
      simp only [Run.step, hstate] at hmap hk ⊢
      obtain ⟨_, -, hmap'⟩ := bind_eq_some_iff.mp hmap
      rw [hmap] at hk
      exact hcache map hmap' k v (by simpa [writtenBy, writtenSnodes] using hk) hlookup
    · intro k entry hentry
      simp only [Run.step, hstate, recordSizeExprEval_entries] at hentry ⊢
      by_cases hk : k = key
      · subst hk
        rw [update_self, Option.some.injEq] at hentry
        subst hentry
        rw [stepSince_of_miss hmiss]
        refine ⟨r.state.view archIsCpu, rfl, hcomputed, ?_⟩
        refine ⟨fun p hobs => recordSizeExprEval_noted k result (Or.inr hobs), ?_, by simp,
          fun _ _ => rfl, fun _ _ => rfl, fun _ _ => rfl⟩
        intro p
        rw [gen_recordSizeExprEval]
        cases p <;> exact Nat.le_refl _
      · rw [update_of_ne hk, update_of_ne hk] at hentry
        obtain ⟨view, harch, hother, hsnap⟩ := h.entries k entry hentry
        rw [stepSince_of_ne hk]
        refine ⟨view, harch, hother, hsnap.of_recorded rfl ?_ ?_⟩
        · intro p
          rw [gen_recordSizeExprEval]
          cases p <;> rfl
        · intro p hnoted
          apply recordSizeExprEval_noted
          left
          cases p <;> exact hnoted

theorem reachable_coherent (h : Reachable exprs archIsCpu r) : Coherent exprs archIsCpu r := by
  induction h with
  | initial memory => exact coherent_initial memory
  | @step r e _ hmeets ih =>
    cases he : Event.isEvaluate e with
    | false => exact coherent_world he ih
    | true =>
      cases e with
      | evaluate key ctx => exact coherent_evaluate ih hmeets
      | _ => simp [Event.isEvaluate] at he

end Preservation

def served {κ : Type} [DecidableEq κ] (exprs : κ → SerializedSizeExpr) (archIsCpu : Bool)
    (memory : Memory) (events : List (Event κ)) (key : κ)
    (ctx : Option LaunchContextBuilder) : Option Int64 × Except EvalError Int64 :=
  let s := events.foldl (ProgramState.step exprs archIsCpu) (ProgramState.initial memory)
  ((trySizeExprCacheHit s.cache key ctx).1,
    (walkFromRoot (exprs key) (s.view archIsCpu) ctx []).map fst)

def readRowStart : SerializedSizeExpr where
  nodes := [{ kind := .externalTensorRead, constValue := 8, indices := [1, 0], argIdPath := [0] }]

def readField : SerializedSizeExpr where
  nodes := [{ kind := .fieldLoad, snodeId := 7, indices := [0] }]

def matrixArg (columns : Int32) : LaunchContextBuilder where
  arrayPtrs argId := if argId = 0 then some 64 else none
  structArgs path := if path = [0, 0, 1] then columns else 2
  deviceAllocationType _ := some .ndarray

def sampleMemory : Memory where
  hasSnode _ := true
  readInt _ _ := 5
  arrayBytes _ i := UInt8.ofInt i

def writesField : OffloadedTask where
  snodeWrites := [7]
  arrWrites := []
  arrReads := []

def nineEverywhere : WrittenData where
  readInt _ _ := 9
  arrayBytes _ _ := 9

def matrixRun : Run Unit :=
  (Run.initial sampleMemory).step (fun _ => readRowStart) true
    (.evaluate () (some (matrixArg 2)))

end Quadrants.AdStack.CacheCoherence
