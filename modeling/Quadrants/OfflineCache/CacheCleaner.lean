import Quadrants.Library.BoundedSelection
import Mathlib.Data.BitVec
import Mathlib.Data.Rat.Floor
import Mathlib.Logic.Function.Basic

/-!
`CacheCleaner::run` of `util/offline_cache.h`: which entries of the metadata and which files of a
cache directory go when the offline cache has become too large.
-/

namespace Quadrants.OfflineCache

open Quadrants.Library.BoundedSelection

abbrev Text := List Char

inductive CleanCachePolicy where
  | never | onlyOldVersion | lru | fifo
  deriving DecidableEq

/-- `policy & CleanOldVersion` -/
def CleanCachePolicy.cleanOldVersion (policy : CleanCachePolicy) : Bool :=
  policy != .never

structure KernelMetadata where
  kernelKey : Text
  size : BitVec 64
  createdAt : ℤ
  lastUsedAt : ℤ
  deriving DecidableEq

/-- An element of `dataWrapperByCacheKey`. -/
abbrev KerData := Text × KernelMetadata

/-- The entries are listed in the order in which the unordered map is gone through. -/
structure CacheData where
  version : ℕ × ℕ × ℕ
  size : BitVec 64
  dataWrapperByCacheKey : List KerData
  nodup : (dataWrapperByCacheKey.map Prod.fst).Nodup

/-- `erase(key)` -/
def CacheData.erase (data : CacheData) (key : Text) : CacheData :=
  { data with
    dataWrapperByCacheKey := data.dataWrapperByCacheKey.filter fun e => e.1 != key
    nodup := data.nodup.sublist (List.filter_sublist.map _) }

/-- A file is one that metadata can be read from, or another one. -/
inductive File where
  | metadata (data : CacheData)
  | other

abbrev Directory := Text → Option File

/-- `quadrants::remove`: whether there was such a file, and the directory without it. -/
def remove (dir : Directory) (name : Text) : Bool × Directory :=
  ((dir name).isSome, Function.update dir name none)

inductive LoadMetadataError where
  | corrupted | fileNotFound | versionNotMatched

/-- `load_metadata_with_checking`, in a build of version `current` -/
def loadMetadataWithChecking (current : ℕ × ℕ × ℕ) : Option File →
    Except LoadMetadataError CacheData
  | none => .error .fileNotFound
  | some .other => .error .corrupted
  | some (.metadata data) =>
    if data.version = current then .ok data else .error .versionNotMatched

/-- The factor is a `double`. -/
structure CacheCleanerConfig (Factor : Type) where
  path : Text
  policy : CleanCachePolicy
  maxSize : ℤ
  cleaningFactor : Factor
  metadataFilename : Text
  debuggingMetadataFilename : Text
  metadataLockName : Text

/-- `CacheCleanerUtils<MetadataType>`; the functions that save debugging metadata and that remove
other files do nothing for either cache. -/
structure CacheCleanerUtils where
  getCacheFiles : KernelMetadata → List Text
  isValidCacheFile : Text → Bool

/-- `filename_extension` -/
def filenameExtension (filename : Text) : Text :=
  if '.' ∈ filename then (filename.reverse.takeWhile (· != '.')).reverse else []

def filesWithExtension (extension : Text) : CacheCleanerUtils where
  getCacheFiles m := [m.kernelKey ++ '.' :: extension]
  isValidCacheFile name := filenameExtension name == extension

/-- `CacheCleanerUtils<CacheData>` -/
def kernelCacheUtils : CacheCleanerUtils := filesWithExtension ['q', 'd', 'c']

/-- `CacheCleanerUtils<PtxCacheAllData>` -/
def ptxCacheUtils : CacheCleanerUtils := filesWithExtension ['p', 't', 'x']

/-- What the cleaner is told by the machine it runs on: the version of the build, the value of the
product of a factor and a count, whether the directory exists and the lock can be taken, and what a
priority queue does with equal elements. -/
structure Environment (Factor : Type) where
  current : ℕ × ℕ × ℕ
  product : Factor → ℕ → ℚ
  pathExists : Bool
  locks : Bool
  queue : ∀ age : KerData → ℤ, PriorityQueue age

/-- The comparator `cmp`, by the time it compares. -/
def CleanCachePolicy.cmp : CleanCachePolicy → Option (KerData → ℤ)
  | .lru => some fun e => e.2.lastUsedAt
  | .fifo => some fun e => e.2.createdAt
  | _ => none

section

variable {Factor : Type} (env : Environment Factor) (utils : CacheCleanerUtils)
variable (config : CacheCleanerConfig Factor)

/-- `static_cast<std::size_t>(config.cleaning_factor * count)` -/
def cleaningCount (count : ℕ) : ℕ :=
  (env.product config.cleaningFactor count).floor.toNat

/-- The elements of the queue in the order in which they are popped. -/
def evicted (age : KerData → ℤ) (data : CacheData) : List KerData :=
  let entries := data.dataWrapperByCacheKey
  let q := entries.foldl ((env.queue age).offer (cleaningCount env config entries.length)) []
  (env.queue age).popAll q.length q

def CacheData.evict (data : CacheData) (e : KerData) : CacheData :=
  { data.erase e.1 with size := data.size - e.2.size }

def removeFiles (dir : Directory) (names : List Text) : Directory :=
  names.foldl (fun dir name => (remove dir name).2) dir

/-- The metadata file is removed or updated, and then the cache files are removed. -/
def cleanEvicted (data : CacheData) (popped : List KerData) (dir : Directory) : Directory :=
  let filesToRm := popped.flatMap fun e => utils.getCacheFiles e.2
  let data := popped.foldl CacheData.evict data
  if data.dataWrapperByCacheKey.isEmpty then
    let (okRmMeta, dir) := remove dir config.metadataFilename
    let dir := (remove dir config.debuggingMetadataFilename).2
    if okRmMeta then removeFiles dir filesToRm else dir
  else removeFiles (Function.update dir config.metadataFilename (some (.metadata data))) filesToRm

def removeOldVersion (dir : Directory) : Directory :=
  let (ok, dir) := remove dir config.metadataFilename
  if ok then
    let dir := (remove dir config.debuggingMetadataFilename).2
    fun name => if utils.isValidCacheFile name then none else dir name
  else dir

/-- `CacheCleaner::run`; without a result where an assertion fails -/
def CacheCleaner.run (dir : Directory) : Option Directory :=
  if config.path = [] ∨ config.maxSize ≤ 0 ∨ config.metadataFilename = [] ∨
      config.metadataLockName = [] then none
  else if config.policy = .never ∨ env.pathExists = false ∨ env.locks = false then some dir
  else match loadMetadataWithChecking env.current (dir config.metadataFilename) with
    | .error .fileNotFound => some dir
    | .error _ =>
      if config.policy.cleanOldVersion then some (removeOldVersion utils config dir) else some dir
    | .ok data =>
      if data.size.toNat < config.maxSize.toNat ∨
          cleaningCount env config data.dataWrapperByCacheKey.length = 0 then some dir
      else match config.policy.cmp with
        | none => some dir
        | some age => some (cleanEvicted utils config data (evicted env config age data) dir)

theorem removeFiles_apply (dir : Directory) (names : List Text) (name : Text) :
    removeFiles dir names name = if name ∈ names then none else dir name := by
  induction names generalizing dir with
  | nil => simp [removeFiles]
  | cons first names ih =>
    have hstep : removeFiles dir (first :: names) = removeFiles (remove dir first).2 names := rfl
    rw [hstep, ih]
    by_cases hname : name = first
    · simp [remove, hname]
    · simp [remove, hname]

theorem update_none_none (dir : Directory) (first second name : Text) :
    Function.update (Function.update dir first none) second none name =
      if name = first ∨ name = second then none else dir name := by
  simp only [Function.update_apply]
  by_cases hsecond : name = second
  · rw [if_pos hsecond, if_pos (.inr hsecond)]
  · simp [hsecond]

theorem removeOldVersion_apply {dir : Directory}
    (hfile : (dir config.metadataFilename).isSome) (name : Text) :
    removeOldVersion utils config dir name =
      if name = config.metadataFilename ∨ name = config.debuggingMetadataFilename ∨
        utils.isValidCacheFile name = true then none else dir name := by
  simp only [removeOldVersion, remove, hfile, if_true, update_none_none]
  by_cases hvalid : utils.isValidCacheFile name = true
  · simp [hvalid]
  · simp [hvalid]

section Entries

variable {data : CacheData} {popped dropped : List KerData}

theorem entries_foldl_evict (popped : List KerData) (data : CacheData) :
    (popped.foldl CacheData.evict data).dataWrapperByCacheKey =
      data.dataWrapperByCacheKey.filter fun e => decide (e.1 ∉ popped.map Prod.fst) := by
  induction popped generalizing data with
  | nil => simp
  | cons e popped ih =>
    rw [List.foldl_cons, ih, CacheData.evict, CacheData.erase, List.filter_filter]
    refine List.filter_congr fun x _ => ?_
    simp only [List.map_cons, List.mem_cons, not_or, bne, decide_not, Bool.decide_and,
      beq_eq_decide]
    rw [Bool.and_comm]

theorem version_foldl_evict (popped : List KerData) (data : CacheData) :
    (popped.foldl CacheData.evict data).version = data.version := by
  induction popped generalizing data with
  | nil => rfl
  | cons e popped ih => exact ih _

theorem size_foldl_evict (popped : List KerData) (data : CacheData) :
    (popped.foldl CacheData.evict data).size + (popped.map fun e => e.2.size).sum =
      data.size := by
  induction popped generalizing data with
  | nil => simp
  | cons e popped ih =>
    have hrest := ih (data.evict e)
    rw [List.foldl_cons, List.map_cons, List.sum_cons, add_left_comm, hrest]
    exact add_sub_cancel _ _

theorem kept_perm (h : (popped ++ dropped).Perm data.dataWrapperByCacheKey) :
    (popped.foldl CacheData.evict data).dataWrapperByCacheKey.Perm dropped := by
  have hnodup : ((popped ++ dropped).map Prod.fst).Nodup :=
    (h.map Prod.fst).nodup_iff.2 data.nodup
  rw [List.map_append] at hnodup
  have hdisjoint := List.disjoint_of_nodup_append hnodup
  rw [entries_foldl_evict]
  refine (h.filter _).symm.trans ?_
  rw [List.filter_append, List.filter_eq_nil_iff.2, List.nil_append, List.filter_eq_self.2]
  · intro e he
    exact decide_eq_true fun hmem => hdisjoint hmem (List.mem_map_of_mem he)
  · intro e he
    simpa using ⟨e.2, he⟩

end Entries

/-- The run comes to the selection of the entries to evict. -/
structure Evicts (dir : Directory) (data : CacheData) (age : KerData → ℤ) : Prop where
  pathExists : env.pathExists = true
  locks : env.locks = true
  loaded : loadMetadataWithChecking env.current (dir config.metadataFilename) = .ok data
  size : config.maxSize ≤ data.size.toNat
  count : cleaningCount env config data.dataWrapperByCacheKey.length ≠ 0
  cmp : config.policy.cmp = some age

/-- The run finds metadata that it cannot use. -/
structure Outdated (dir : Directory) : Prop where
  policy : config.policy ≠ .never
  pathExists : env.pathExists = true
  locks : env.locks = true
  unusable : ∃ error, loadMetadataWithChecking env.current (dir config.metadataFilename) =
    .error error ∧ error ≠ .fileNotFound

/-- Some of the entries are removed: as many as the factor says, or all of them, none of which is
younger than an entry that is kept. The files that are removed are theirs, and the metadata files
when no entry is kept. -/
structure Cleaned (dir dir' : Directory) (data : CacheData) (age : KerData → ℤ)
    (removed kept : List KerData) (data' : CacheData) : Prop where
  perm : (removed ++ kept).Perm data.dataWrapperByCacheKey
  length : removed.length = min
    (env.product config.cleaningFactor data.dataWrapperByCacheKey.length).floor.toNat
    data.dataWrapperByCacheKey.length
  older : ∀ e ∈ removed, ∀ e' ∈ kept, age e ≤ age e'
  entries : data'.dataWrapperByCacheKey.Perm kept
  version : data'.version = data.version
  size : data'.size + (removed.map fun e => e.2.size).sum = data.size
  files : ∀ name, dir' name =
    if name ∈ removed.flatMap (fun e => utils.getCacheFiles e.2) then none
    else if kept = [] then
      if name = config.metadataFilename ∨ name = config.debuggingMetadataFilename then none
      else dir name
    else if name = config.metadataFilename then some (.metadata data') else dir name

variable {env utils config} {dir dir' : Directory} {data : CacheData} {age : KerData → ℤ}

theorem cleanEvicted_cleaned (h : Evicts env config dir data age) :
    ∃ removed kept data', Cleaned env utils config dir
      (cleanEvicted utils config data (evicted env config age data) dir) data age
      removed kept data' := by
  obtain ⟨dropped, hselected⟩ := (env.queue age).foldl_offer h.count data.dataWrapperByCacheKey
  have hpopped : (evicted env config age data).Perm _ := (env.queue age).popAll_perm rfl
  have hperm := (hpopped.append_right dropped).trans hselected.perm
  have hkept := kept_perm hperm
  refine ⟨evicted env config age data, dropped, _, hperm, hpopped.length_eq.trans hselected.length,
    fun e he => hselected.le e (hpopped.mem_iff.1 he), hkept, version_foldl_evict _ _,
    size_foldl_evict _ _, fun name => ?_⟩
  have hfile : (dir config.metadataFilename).isSome := by
    have hloaded := h.loaded
    cases hdir : dir config.metadataFilename with
    | none => rw [hdir] at hloaded; cases hloaded
    | some file => rfl
  by_cases hnil : dropped = []
  · subst hnil
    have hempty := List.isEmpty_iff.2 (List.perm_nil.1 hkept)
    simp [cleanEvicted, hempty, remove, hfile, removeFiles_apply, update_none_none]
  · have hempty : ((evicted env config age data).foldl CacheData.evict
        data).dataWrapperByCacheKey.isEmpty = false := by
      rw [List.isEmpty_eq_false_iff]
      rintro heq
      exact hnil (List.nil_perm.1 (heq ▸ hkept))
    simp [cleanEvicted, hempty, removeFiles_apply, hnil, Function.update_apply]

/-- What a run of the cleaner does to the directory -/
theorem CacheCleaner.run_cleans (hrun : CacheCleaner.run env utils config dir = some dir') :
    (∀ data age, Evicts env config dir data age → ∃ removed kept data',
      Cleaned env utils config dir dir' data age removed kept data') ∧
    (Outdated env config dir → ∀ name, dir' name =
      if name = config.metadataFilename ∨ name = config.debuggingMetadataFilename ∨
        utils.isValidCacheFile name = true then none else dir name) ∧
    ((∀ data age, ¬Evicts env config dir data age) → ¬Outdated env config dir → dir' = dir) := by
  rw [CacheCleaner.run] at hrun
  split at hrun
  · cases hrun
  next hasserts =>
  split at hrun
  next hskip =>
    cases hrun
    refine ⟨fun data age h => ?_, fun h => ?_, fun _ _ => rfl⟩
    · rcases hskip with hpolicy | hexists | hlocks
      · have hcmp := h.cmp
        rw [hpolicy] at hcmp
        cases hcmp
      · exact absurd (h.pathExists.symm.trans hexists) Bool.noConfusion
      · exact absurd (h.locks.symm.trans hlocks) Bool.noConfusion
    · rcases hskip with hpolicy | hexists | hlocks
      · exact absurd hpolicy h.policy
      · exact absurd (h.pathExists.symm.trans hexists) Bool.noConfusion
      · exact absurd (h.locks.symm.trans hlocks) Bool.noConfusion
  next hreached =>
  have hpolicy : config.policy ≠ .never := fun h => hreached (.inl h)
  have hexists : env.pathExists = true := by simpa using fun h => hreached (.inr (.inl h))
  have hlocks : env.locks = true := by simpa using fun h => hreached (.inr (.inr h))
  split at hrun
  next hload =>
    cases hrun
    refine ⟨fun data age h => ?_, ?_, fun _ _ => rfl⟩
    · cases h.loaded.symm.trans hload
    · rintro ⟨-, -, -, error, herror, hne⟩
      cases herror.symm.trans hload
      exact absurd rfl hne
  next error hne hload =>
    have hold : config.policy.cleanOldVersion = true := by
      simpa [CleanCachePolicy.cleanOldVersion] using hpolicy
    rw [if_pos hold] at hrun
    cases hrun
    have houtdated : Outdated env config dir := ⟨hpolicy, hexists, hlocks, error, hload, hne⟩
    have hfile : (dir config.metadataFilename).isSome := by
      cases hdir : dir config.metadataFilename with
      | none =>
        rw [hdir] at hload
        cases hload
        exact absurd rfl hne
      | some file => rfl
    refine ⟨fun data age h => ?_, fun _ => removeOldVersion_apply _ _ hfile,
      fun _ h => absurd houtdated h⟩
    cases h.loaded.symm.trans hload
  next data hload =>
    have hcurrent : ¬Outdated env config dir := by
      rintro ⟨-, -, -, error, herror, -⟩
      cases herror.symm.trans hload
    refine ⟨fun data' age h => ?_, fun h => absurd h hcurrent, fun hnone _ => ?_⟩
    · cases h.loaded.symm.trans hload
      have hsize := h.size
      rw [if_neg (by
        rintro (hsmall | hzero)
        · omega
        · exact h.count hzero)] at hrun
      simp only [h.cmp] at hrun
      cases hrun
      exact cleanEvicted_cleaned h
    · split at hrun
      · cases hrun
        rfl
      next hlarge =>
      split at hrun
      next hcmp =>
        cases hrun
        rfl
      next age hcmp =>
        have hmax : config.maxSize ≤ data.size.toNat := by omega
        exact absurd ⟨hexists, hlocks, hload, hmax, fun h => hlarge (.inr h), hcmp⟩
          (hnone data age)

end

/-- An exact factor, and a queue that prefers the first of several elements -/
def sampleMachine : Environment ℚ where
  current := (1, 0, 0)
  product factor count := factor * count
  pathExists := true
  locks := true
  queue age := .greatest age

def sampleConfig (factor : ℚ) : CacheCleanerConfig ℚ where
  path := ['c']
  policy := .lru
  maxSize := 4
  cleaningFactor := factor
  metadataFilename := ['m']
  debuggingMetadataFilename := []
  metadataLockName := ['l']

def sampleEntry (key : Char) (lastUsedAt : ℤ) : KerData :=
  ([key], { kernelKey := [key], size := 2, createdAt := 0, lastUsedAt })

def sampleData (version : ℕ × ℕ × ℕ) : CacheData where
  version := version
  size := 4
  dataWrapperByCacheKey := [sampleEntry 'a' 7, sampleEntry 'b' 3]
  nodup := by decide

def sampleDirectory (version : ℕ × ℕ × ℕ) : Directory := fun name =>
  if name = ['m'] then some (.metadata (sampleData version))
  else if name = ['a', '.', 'q', 'd', 'c'] ∨ name = ['b', '.', 'q', 'd', 'c'] then some .other
  else none

/-- One of two entries is removed: the one that was not used for longer. -/
theorem CacheCleaner.run_cleans_sample :
    ∃ dir', CacheCleaner.run sampleMachine kernelCacheUtils (sampleConfig (1 / 2))
        (sampleDirectory (1, 0, 0)) = some dir' ∧
      ∃ removed kept data', Cleaned sampleMachine kernelCacheUtils (sampleConfig (1 / 2))
        (sampleDirectory (1, 0, 0)) dir' (sampleData (1, 0, 0)) (fun e => e.2.lastUsedAt)
        removed kept data' := by
  have hevicts : Evicts sampleMachine (sampleConfig (1 / 2)) (sampleDirectory (1, 0, 0))
      (sampleData (1, 0, 0)) fun e => e.2.lastUsedAt :=
    ⟨rfl, rfl, rfl, by decide, by decide +kernel, rfl⟩
  obtain ⟨dir', hrun⟩ := Option.isSome_iff_exists.1
    (show (CacheCleaner.run sampleMachine kernelCacheUtils (sampleConfig (1 / 2))
      (sampleDirectory (1, 0, 0))).isSome = true by decide +kernel)
  exact ⟨dir', hrun, (CacheCleaner.run_cleans hrun).1 _ _ hevicts⟩

/-- Metadata of another version is removed with all cache files, and where all entries are evicted,
the metadata file is removed with them. -/
theorem CacheCleaner.run_removes_more :
    ((CacheCleaner.run sampleMachine kernelCacheUtils (sampleConfig (1 / 2))
        (sampleDirectory (0, 9, 0))).map fun dir' =>
        ((dir' ['m']).isSome, (dir' ['a', '.', 'q', 'd', 'c']).isSome)) = some (false, false) ∧
      (∀ data age, ¬Evicts sampleMachine (sampleConfig (1 / 2)) (sampleDirectory (0, 9, 0))
        data age) ∧
      ((CacheCleaner.run sampleMachine kernelCacheUtils (sampleConfig 1)
        (sampleDirectory (1, 0, 0))).map fun dir' => (dir' ['m']).isSome) = some false := by
  refine ⟨by decide, fun data age h => ?_, by decide +kernel⟩
  exact absurd h.loaded (fun hload => by cases hload)

end Quadrants.OfflineCache
