import Quadrants.AdStack.SizeExpr

/-!
The size-expression cache of a program, the write-generation counters that
guard it, and the events that touch either.

A cache entry is keyed by the address of its expression, here a key of an
arbitrary type `κ`.  The two counters are 64 bits wide in the source and start
at zero; they are natural numbers here.
-/

namespace Quadrants.AdStack.Cache

open Quadrants.AdStack.SizeExpr

def nullPtr : Ptr := 0

structure SizeExprCacheEntry where
  result : Int64
  reads : List SizeExprReadObservation
deriving DecidableEq, Repr

/-- The members of `AdStackCache` that the size-expression cache and the bump
helpers use. -/
structure AdStackCache (κ : Type) where
  sizeExprCache : κ → Option SizeExprCacheEntry := fun _ => none
  snodeWriteGen : Int32 → Nat := fun _ => 0
  ndarrayDataGen : Ptr → Nat := fun _ => 0
  anyRecordings : Bool := false
  observedSnodeIds : List Int32 := []
  anyExternalReadObserved : Bool := false
  observedDevallocPtrs : List Ptr := []

section Operations

variable {κ : Type} [DecidableEq κ]

def AdStackCache.bumpSnodeWriteGen (cache : AdStackCache κ) (snodeId : Int32) :
    AdStackCache κ :=
  { cache with
    snodeWriteGen :=
      Function.update cache.snodeWriteGen snodeId (cache.snodeWriteGen snodeId + 1) }

def AdStackCache.bumpNdarrayDataGen (cache : AdStackCache κ) (ptr : Ptr) :
    AdStackCache κ :=
  { cache with
    ndarrayDataGen :=
      Function.update cache.ndarrayDataGen ptr (cache.ndarrayDataGen ptr + 1) }

def replayObservationIsFresh (cache : AdStackCache κ)
    (ctx : Option LaunchContextBuilder) (obs : SizeExprReadObservation) : Bool :=
  match obs.kind with
  | .fieldLoadObs => cache.snodeWriteGen obs.snodeId == obs.observedGen
  | .externalReadObs =>
    match ctx, obs.argIdPath.head? with
    | some ctx, some argId =>
      match ctx.arrayPtrs argId with
      | none => false
      | some dataPtr =>
        some dataPtr == obs.observedDevalloc &&
          cache.ndarrayDataGen dataPtr == obs.observedGen
    | _, _ => false
  | .externalShapeObs =>
    match ctx with
    | none => false
    | some ctx =>
      (ctx.structArgs (shapeSlot obs.argIdPath obs.argShapeAxis)).toInt64 ==
        obs.observedValue

def AdStackCache.noteObservation (cache : AdStackCache κ)
    (obs : SizeExprReadObservation) : AdStackCache κ :=
  match obs.kind with
  | .fieldLoadObs =>
    { cache with observedSnodeIds := obs.snodeId :: cache.observedSnodeIds }
  | .externalReadObs =>
    { cache with
      anyExternalReadObserved := true
      observedDevallocPtrs :=
        match obs.observedDevalloc with
        | some ptr =>
          if ptr = nullPtr then cache.observedDevallocPtrs
          else ptr :: cache.observedDevallocPtrs
        | none => cache.observedDevallocPtrs }
  | .externalShapeObs => cache

def AdStackCache.noteObservations (cache : AdStackCache κ)
    (reads : List SizeExprReadObservation) : AdStackCache κ :=
  reads.foldl AdStackCache.noteObservation cache

/-- The cached result, if every recorded read replays as fresh.  An entry that
does not is erased. -/
def trySizeExprCacheHit (cache : AdStackCache κ) (key : κ)
    (ctx : Option LaunchContextBuilder) : Option Int64 × AdStackCache κ :=
  match cache.sizeExprCache key with
  | none => (none, cache)
  | some entry =>
    if entry.reads.all (replayObservationIsFresh cache ctx) then (some entry.result, cache)
    else
      (none, { cache with sizeExprCache := Function.update cache.sizeExprCache key none })

def recordSizeExprEval (cache : AdStackCache κ) (key : κ) (result : Int64)
    (reads : List SizeExprReadObservation) : AdStackCache κ :=
  let cache := cache.noteObservations reads
  { cache with
    sizeExprCache := Function.update cache.sizeExprCache key (some ⟨result, reads⟩)
    anyRecordings := true }

end Operations

section WriteGenerations

variable {κ : Type}

structure OffloadedTask where
  snodeWrites : List Int32
  arrWrites : List Int32
  arrReads : List Int32

/-- The lambda `bump_data_ptr`, with the observation gate of the per-task
overload as a parameter. -/
def bumpDataPtr (ctx : LaunchContextBuilder) (gate : Ptr → Bool)
    (cache : AdStackCache κ) (argId : Int32) : AdStackCache κ :=
  match ctx.arrayPtrs argId with
  | some ptr =>
    if ptr ≠ nullPtr ∧ gate ptr then cache.bumpNdarrayDataGen ptr else cache
  | none => cache

def bumpReadArg (ctx : LaunchContextBuilder) (gate : Ptr → Bool)
    (cache : AdStackCache κ) (argId : Int32) : AdStackCache κ :=
  if ctx.deviceAllocationType argId = some .none then bumpDataPtr ctx gate cache argId
  else cache

def bumpWritesForKernelLlvm (ctx : LaunchContextBuilder) (tasks : List OffloadedTask)
    (cache : AdStackCache κ) : AdStackCache κ :=
  tasks.foldl
    (fun cache task =>
      let cache := task.snodeWrites.foldl AdStackCache.bumpSnodeWriteGen cache
      let cache := task.arrWrites.foldl (bumpDataPtr ctx fun _ => true) cache
      task.arrReads.foldl (bumpReadArg ctx fun _ => true) cache) cache

/-- The overload over per-task access lists, used by the CPU launcher.  It is
gated by what the cached entries observed. -/
def bumpWritesForKernelLlvmPerTask (ctx : LaunchContextBuilder)
    (snodeWritesPerTask arrWritesPerTask arrReadsPerTask : List (List Int32))
    (cache : AdStackCache κ) : AdStackCache κ :=
  if cache.anyRecordings = false then cache
  else
    let cache := snodeWritesPerTask.flatten.foldl
      (fun cache snodeId =>
        if snodeId ∈ cache.observedSnodeIds then cache.bumpSnodeWriteGen snodeId
        else cache) cache
    if cache.anyExternalReadObserved = false then cache
    else
      let gate := fun ptr => decide (ptr ∈ cache.observedDevallocPtrs)
      let cache := arrWritesPerTask.flatten.foldl (bumpDataPtr ctx gate) cache
      arrReadsPerTask.flatten.foldl (bumpReadArg ctx gate) cache

structure ArrAccess where
  argId : Int32
  read : Bool
  write : Bool

/-- Whether `bump_writes_for_kernel_spirv` bumps an argument.  `operator[]` on
`device_allocation_type` makes a missing entry `kNone`. -/
def spirvBumps (ctx : LaunchContextBuilder) (access : ArrAccess) : Bool :=
  access.write ||
    (access.read && (ctx.deviceAllocationType access.argId).getD .none == .none)

def bumpWritesForKernelSpirv (ctx : LaunchContextBuilder)
    (snodeWritesPerTask : List (List Int32)) (arrAccess : List ArrAccess)
    (cache : AdStackCache κ) : AdStackCache κ :=
  let cache := snodeWritesPerTask.flatten.foldl AdStackCache.bumpSnodeWriteGen cache
  arrAccess.foldl
    (fun cache access =>
      if spirvBumps ctx access then
        match ctx.arrayPtrs access.argId with
        | some ptr => cache.bumpNdarrayDataGen ptr
        | none => cache
      else cache) cache

end WriteGenerations

/-- What size expressions can read: the SNodes that exist, the contents of the
fields and the bytes of the external arrays. -/
structure Memory where
  hasSnode : Int32 → Bool
  readInt : Int32 → List Int32 → Int64
  arrayBytes : Ptr → Int → UInt8

/-- A program between two events.  `launchScope` is the read cache of the open
`SizeExprLaunchScope`. -/
structure ProgramState (κ : Type) where
  memory : Memory
  cache : AdStackCache κ
  launchScope : Option LaunchScopedReadCache

def ProgramState.view {κ : Type} (archIsCpu : Bool) (s : ProgramState κ) : ProgramView where
  hasSnode := s.memory.hasSnode
  readInt := s.memory.readInt
  arrayBytes := s.memory.arrayBytes
  archIsCpu := archIsCpu
  snodeWriteGen := s.cache.snodeWriteGen
  ndarrayDataGen := s.cache.ndarrayDataGen

/-- A walk from the root of a non-empty tree, with an empty sink, over the given
launch-scoped read cache.  Operands of a serialized tree precede their user, so
the number of nodes bounds the depth. -/
def walkFromRoot (expr : SerializedSizeExpr) (prog : ProgramView)
    (ctx : Option LaunchContextBuilder) (scope : LaunchScopedReadCache) :
    Except EvalError (Int64 × EvalState) :=
  evaluateNode expr prog ctx expr.nodes.length expr.rootIdx
    { boundVars := emptyBoundVars, reads := some [], launchReadCache := some scope }

def evaluateAdstackSizeExpr {κ : Type} [DecidableEq κ] (exprs : κ → SerializedSizeExpr)
    (archIsCpu : Bool) (key : κ) (ctx : Option LaunchContextBuilder)
    (s : ProgramState κ) : Except EvalError Int64 × ProgramState κ :=
  if (exprs key).nodes = [] then (.ok (-1), s)
  else match trySizeExprCacheHit s.cache key ctx with
  | (some cached, cache) => (.ok cached, { s with cache := cache })
  | (none, cache) =>
    let s := { s with cache := cache }
    match walkFromRoot (exprs key) (s.view archIsCpu) ctx (s.launchScope.getD []) with
    | .error e => (.error e, { s with launchScope := none })
    | .ok (result, st) =>
      (.ok result, { s with
          cache := recordSizeExprEval s.cache key result (st.reads.getD [])
          launchScope := s.launchScope.bind fun _ => st.launchReadCache })

structure WrittenData where
  readInt : Int32 → List Int32 → Int64
  arrayBytes : Ptr → Int → UInt8

def Memory.overwrite (memory : Memory) (snodes : List Int32) (ptrs : List Ptr)
    (data : WrittenData) : Memory where
  hasSnode := memory.hasSnode
  readInt snodeId :=
    if snodeId ∈ snodes then data.readInt snodeId else memory.readInt snodeId
  arrayBytes ptr := if ptr ∈ ptrs then data.arrayBytes ptr else memory.arrayBytes ptr

def Memory.destroySnodes (memory : Memory) (snodes : List Int32) : Memory :=
  { memory with hasSnode := fun id => if id ∈ snodes then false else memory.hasSnode id }

def argPtrs (ctx : LaunchContextBuilder) (argIds : List Int32) : List Ptr :=
  argIds.filterMap ctx.arrayPtrs

/-- The events of a run.  A kernel launch is one of the three bumps followed by
its tasks, with the evaluations the launcher makes anywhere in between;
`hostWrite` is a mutation of a host array outside of any kernel.  Binding another
array to an argument, or an array of another shape, is a change of the context
that the next event is given. -/
inductive Event (κ : Type)
  | bumpLlvm (ctx : LaunchContextBuilder) (tasks : List OffloadedTask)
  | bumpLlvmPerTask (ctx : LaunchContextBuilder)
      (snodeWritesPerTask arrWritesPerTask arrReadsPerTask : List (List Int32))
  | bumpSpirv (ctx : LaunchContextBuilder) (snodeWritesPerTask : List (List Int32))
      (arrAccess : List ArrAccess)
  | runTask (ctx : LaunchContextBuilder) (task : OffloadedTask) (data : WrittenData)
  | hostWrite (ptr : Ptr) (data : WrittenData)
  | openLaunchScope
  | closeLaunchScope
  | destroySnodeTree (snodes : List Int32)
  | evaluate (key : κ) (ctx : Option LaunchContextBuilder)

def ProgramState.step {κ : Type} [DecidableEq κ] (exprs : κ → SerializedSizeExpr)
    (archIsCpu : Bool) (s : ProgramState κ) : Event κ → ProgramState κ
  | .bumpLlvm ctx tasks => { s with cache := bumpWritesForKernelLlvm ctx tasks s.cache }
  | .bumpLlvmPerTask ctx snodes writes reads =>
    { s with cache := bumpWritesForKernelLlvmPerTask ctx snodes writes reads s.cache }
  | .bumpSpirv ctx snodes arrAccess =>
    { s with cache := bumpWritesForKernelSpirv ctx snodes arrAccess s.cache }
  | .runTask ctx task data =>
    { s with
      memory := s.memory.overwrite task.snodeWrites (argPtrs ctx task.arrWrites) data }
  | .hostWrite ptr data => { s with memory := s.memory.overwrite [] [ptr] data }
  | .openLaunchScope => { s with launchScope := some (s.launchScope.getD []) }
  | .closeLaunchScope => { s with launchScope := none }
  | .destroySnodeTree snodes => { s with memory := s.memory.destroySnodes snodes }
  | .evaluate key ctx => (evaluateAdstackSizeExpr exprs archIsCpu key ctx s).2

def ProgramState.initial {κ : Type} (memory : Memory) : ProgramState κ where
  memory := memory
  cache := {}
  launchScope := none

end Quadrants.AdStack.Cache
