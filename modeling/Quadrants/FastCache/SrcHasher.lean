import Mathlib.Logic.Function.Basic
import Quadrants.FastCache.Reads

namespace Quadrants.FastCache

section keys

/-- A kernel as the cache sees it: its parameters, what its source and configuration contribute to
the key, and its compilation. -/
structure Kernel (α : Type) where
  sig : Signature
  raiseOnTemplatedFloats : Bool
  sourceConfig : List Text
  compile : Compile α

variable {α : Type} (sha256 : Text → Text) (k : Kernel α)

def hashIterableStrings (strings : List Text) : Text := sha256 (joinStrings strings)

def l1Marker : Text := "l1".toList

def l2Marker : Text := "l2".toList

def cacheValueSchemaVersion : Text := "cachevalue-v6-property-values".toList

def makeSourceConfigKey : Text := hashIterableStrings sha256 (l1Marker :: k.sourceConfig)

def makeFullCacheKey (sourceConfigKey narrowArgsHash : Text) : Text :=
  hashIterableStrings sha256 [l2Marker, sourceConfigKey, narrowArgsHash, cacheValueSchemaVersion]

def computeNarrowArgsHash (args : List Obj) (pruningPaths : List Text) :
    Except Failure (Option Text) :=
  match hashArgs sha256 k.raiseOnTemplatedFloats args k.sig.argMetas pruningPaths with
  | .ok argsHash => .ok (some argsHash)
  | .error .fastcache => .ok none
  | .error e => .error e

end keys

section cache

variable {α : Type}

structure L1CacheValue where
  usedPyDataclassParameters : List Text

structure CacheValue (α : Type) where
  frontendCacheKey : α
  usedPyDataclassParameters : List Text

inductive CacheEntry (α : Type) where
  | l1 (value : L1CacheValue)
  | l2 (value : CacheValue α)

abbrev PythonSideCache (α : Type) := Text → Option (CacheEntry α)

def PythonSideCache.store (cache : PythonSideCache α) (key : Text) (entry : CacheEntry α) :
    PythonSideCache α := Function.update cache key (some entry)

def loadPruningInfo (sourceConfigKey : Text) (cache : PythonSideCache α) : Option (List Text) :=
  match cache sourceConfigKey with
  | some (.l1 value) => some value.usedPyDataclassParameters
  | some (.l2 value) => some value.usedPyDataclassParameters
  | none => none

def load (cacheKey : Text) (cache : PythonSideCache α) : Option (CacheValue α) :=
  match cache cacheKey with
  | some (.l2 value) => some value
  | _ => none

def store (fastCacheKey : Option Text) (value : CacheValue α) (cache : PythonSideCache α) :
    PythonSideCache α :=
  match fastCacheKey with
  | some key => cache.store key (.l2 value)
  | none => cache

def growPaths (used : List Text) (pruningPathsFromL1 : Option (List Text))
    (fastChecksum : Option Text) : List Text × Bool × Option Text :=
  match pruningPathsFromL1 with
  | none => (used, true, fastChecksum)
  | some paths =>
    if used.all (· ∈ paths) then (paths, false, fastChecksum) else (paths ++ used, true, none)

def persistL1AndSetL2Key (sha256 : Text → Text) (k : Kernel α) (used : List Text)
    (pruningPathsFromL1 : Option (List Text)) (fastChecksum : Option Text) (args : List Obj)
    (cache : PythonSideCache α) :
    PythonSideCache α × Except Failure (Option Text × Bool) :=
  let l1Key := makeSourceConfigKey sha256 k
  let grown := growPaths used pruningPathsFromL1 fastChecksum
  let cache := if grown.2.1 then cache.store l1Key (.l1 ⟨grown.1⟩) else cache
  match grown.2.2 with
  | some checksum => (cache, .ok (some checksum, false))
  | none =>
    match computeNarrowArgsHash sha256 k args grown.1 with
    | .ok (some narrowArgsHash) =>
      (cache, .ok (some (makeFullCacheKey sha256 l1Key narrowArgsHash), fastChecksum.isNone))
    | .ok none => (cache, .ok (none, false))
    | .error e => (cache, .error e)

end cache

section processes

variable {α ι : Type}

inductive Call (α : Type) where
  | idle
  | started (args : List Obj)
  | loaded (args : List Obj) (pruningPaths : Option (List Text))
  | hit (args : List Obj) (pruningPaths : Option (List Text)) (fastChecksum : Option Text)
      (value : CacheValue α)
  | missed (args : List Obj) (pruningPaths : Option (List Text)) (fastChecksum : Option Text)
  | compiled (args : List Obj) (pruningPaths : Option (List Text)) (fastChecksum : Option Text)
      (value : CacheValue α)
  | keyed (args : List Obj) (fastChecksum : Option Text) (value : CacheValue α)

structure State (α ι : Type) where
  cache : PythonSideCache α
  calls : ι → Call α

inductive Event (ι : Type) where
  | call (i : ι) (args : List Obj)
  | loadPruningInfo (i : ι)
  | lookup (i : ι)
  /-- The artifact named by the entry is gone. -/
  | artifactLost (i : ι)
  | compile (i : ι)
  | persist (i : ι)
  | store (i : ι)
  | crash (i : ι)
  /-- A file of the cache is deleted. -/
  | evict (key : Text)

def initial : State α ι := ⟨fun _ => none, fun _ => .idle⟩

variable [DecidableEq ι] (sha256 : Text → Text) (k : Kernel α)

def State.setCall (s : State α ι) (i : ι) (c : Call α) : State α ι :=
  { s with calls := Function.update s.calls i c }

def lookup (args : List Obj) (cache : PythonSideCache α) : Option (List Text) → Call α
  | none => .missed args none none
  | some paths =>
    match computeNarrowArgsHash sha256 k args paths with
    | .error _ => .idle
    | .ok none => .missed args (some paths) none
    | .ok (some narrowArgsHash) =>
      let key := makeFullCacheKey sha256 (makeSourceConfigKey sha256 k) narrowArgsHash
      match load key cache with
      | some value => .hit args (some paths) (some key) value
      | none => .missed args (some paths) (some key)

def step (s : State α ι) : Event ι → Option (State α ι)
  | .call i args =>
    match s.calls i with
    | .idle => some (s.setCall i (.started args))
    | _ => none
  | .loadPruningInfo i =>
    match s.calls i with
    | .started args =>
      some (s.setCall i (.loaded args
        (FastCache.loadPruningInfo (makeSourceConfigKey sha256 k) s.cache)))
    | _ => none
  | .lookup i =>
    match s.calls i with
    | .loaded args paths => some (s.setCall i (FastCache.lookup sha256 k args s.cache paths))
    | _ => none
  | .artifactLost i =>
    match s.calls i with
    | .hit args paths checksum _ => some (s.setCall i (.missed args paths checksum))
    | _ => none
  | .compile i =>
    match s.calls i with
    | .missed args paths checksum =>
      match k.compile.run args k.sig.argMetas with
      | some (artifact, reads) =>
        some (s.setCall i (.compiled args paths checksum ⟨artifact, usedNames reads⟩))
      | none => some (s.setCall i .idle)
    | _ => none
  | .persist i =>
    match s.calls i with
    | .compiled args paths checksum value =>
      let persisted := persistL1AndSetL2Key sha256 k value.usedPyDataclassParameters paths
        checksum args s.cache
      match persisted.2 with
      | .ok (checksum, _) =>
        some (State.setCall ⟨persisted.1, s.calls⟩ i (.keyed args checksum value))
      | .error _ => some (State.setCall ⟨persisted.1, s.calls⟩ i .idle)
    | .hit args paths checksum value =>
      let persisted := persistL1AndSetL2Key sha256 k value.usedPyDataclassParameters paths
        checksum args s.cache
      some (State.setCall ⟨persisted.1, s.calls⟩ i .idle)
    | _ => none
  | .store i =>
    match s.calls i with
    | .keyed _ checksum value =>
      some (State.setCall ⟨FastCache.store checksum value s.cache, s.calls⟩ i .idle)
    | _ => none
  | .crash i => some (s.setCall i .idle)
  | .evict key => some { s with cache := Function.update s.cache key none }

def run (s : State α ι) : List (Event ι) → Option (State α ι)
  | [] => some s
  | e :: events => (step sha256 k s e).bind fun s' => run s' events

end processes

end Quadrants.FastCache
