import Quadrants.FastCache.SrcHasher

/-!
The check of the helper functions of a cache entry: the lines of the recorded range are read again
and hashed. The range counts lines from one, and it is used as a slice that counts from zero.
-/

namespace Quadrants.FastCache

open List

def fileLines : Text → List Text
  | [] => []
  | c :: text =>
    if c = '\n' then [c] :: fileLines text
    else match fileLines text with
      | [] => [[c]]
      | line :: lines => (c :: line) :: lines

def islice (lines : List Text) (start stop : ℕ) : List Text :=
  (lines.take stop).drop start

structure FunctionSourceInfo where
  functionName : Text
  filepath : Text
  startLineno : ℕ
  endLineno : ℕ
  deriving DecidableEq

structure HashedFunctionSourceInfo where
  functionSourceInfo : FunctionSourceInfo
  hash : Text
  deriving DecidableEq

abbrev Files := Text → Option Text

section Hasher

variable (sha256 : Text → Text) (files : Files)

def readFile (functionInfo : FunctionSourceInfo) : Option (List Text) :=
  (files functionInfo.filepath).map fun text =>
    islice (fileLines text) functionInfo.startLineno (functionInfo.endLineno + 1)

def hashFunction (functionInfo : FunctionSourceInfo) : Option Text :=
  (readFile files functionInfo).map (hashIterableStrings sha256)

def hashFunctions (functionInfos : List FunctionSourceInfo) :
    Option (List HashedFunctionSourceInfo) :=
  functionInfos.mapM fun info => (hashFunction sha256 files info).map fun hash => ⟨info, hash⟩

def validateHashedFunctionInfo (hashed : HashedFunctionSourceInfo) : Bool :=
  match hashFunction sha256 files hashed.functionSourceInfo with
  | some hash => hash == hashed.hash
  | none => false

def validateHashedFunctionInfos (functionInfos : List HashedFunctionSourceInfo) : Bool :=
  functionInfos.all (validateHashedFunctionInfo sha256 files)

structure CachedEntry (β : Type) where
  value : β
  hashedFunctionSourceInfos : List HashedFunctionSourceInfo

def serveValidated {β : Type} (cached : Option (CachedEntry β)) : Option β :=
  match cached with
  | none => none
  | some entry =>
    if validateHashedFunctionInfos sha256 files entry.hashedFunctionSourceInfos then
      some entry.value
    else none

def loadEntry {α : Type} (cached : Option (CachedEntry (CacheValue α))) : Option (CacheValue α) :=
  serveValidated sha256 files cached

def loadPruningEntry (cached : Option (CachedEntry L1CacheValue)) : Option (List Text) :=
  (serveValidated sha256 files cached).map L1CacheValue.usedPyDataclassParameters

end Hasher

structure SourceLines (files : Files) where
  name : Text
  filepath : Text
  startLineno : ℕ
  src : List Text
  text : Text
  read : files filepath = some text
  start_pos : 0 < startLineno
  src_ne : src ≠ []
  prefix_drop : src <+: (fileLines text).drop (startLineno - 1)

def getSourceInfo {files : Files} (func : SourceLines files) : FunctionSourceInfo :=
  ⟨func.name, func.filepath, func.startLineno, func.startLineno + func.src.length - 1⟩

/-- A recorded function, and the function of that name in the edited files, if there is one. -/
structure Edited (files files' : Files) where
  old : SourceLines files
  new : Option (SourceLines files')
  same : ∀ func ∈ new, func.name = old.name ∧ func.filepath = old.filepath

/-- The text of the function is another one, or the function is gone. -/
def Edited.Changed {files files' : Files} (e : Edited files files') : Prop :=
  e.new.map SourceLines.src ≠ some e.old.src

instance {files files' : Files} (e : Edited files files') : Decidable e.Changed :=
  inferInstanceAs (Decidable (_ ≠ _))

/-- The file is gone, or a line of it changed that the slice reads: the one after `start_lineno`
up to the one after `end_lineno`. -/
def Edited.RangeChanged {files files' : Files} (e : Edited files files') : Prop :=
  readFile files' (getSourceInfo e.old) ≠ readFile files (getSourceInfo e.old)

inductive IsLines : List Text → Prop where
  | nil : IsLines []
  | last {line : Text} (h : '\n' ∉ line) : IsLines [line]
  | cons {line : Text} {lines : List Text} (h : '\n' ∉ line) (hlines : IsLines lines) :
      IsLines ((line ++ ['\n']) :: lines)

theorem isLines_fileLines (text : Text) : IsLines (fileLines text) := by
  induction text with
  | nil => exact .nil
  | cons c text ih =>
    unfold fileLines
    split
    · next hc =>
        subst hc
        exact @IsLines.cons [] _ not_mem_nil ih
    · next hc =>
        have hmem : ∀ line : Text, '\n' ∉ line → '\n' ∉ c :: line := by
          intro line hline
          simp [hline, Ne.symm hc]
        generalize fileLines text = lines at ih
        cases ih with
        | nil => exact .last (hmem [] not_mem_nil)
        | last h => exact .last (hmem _ h)
        | cons h hlines => exact .cons (hmem _ h) hlines

variable {lines : List Text}

theorem IsLines.take (h : IsLines lines) (n : ℕ) : IsLines (lines.take n) := by
  induction h generalizing n with
  | nil =>
    rw [take_nil]
    exact .nil
  | last h =>
    cases n with
    | zero => exact .nil
    | succ n =>
      rw [take_succ_cons, take_nil]
      exact .last h
  | cons h _ ih =>
    cases n with
    | zero => exact .nil
    | succ n => exact .cons h (ih n)

theorem IsLines.drop (h : IsLines lines) (n : ℕ) : IsLines (lines.drop n) := by
  induction h generalizing n with
  | nil =>
    rw [drop_nil]
    exact .nil
  | last h =>
    cases n with
    | zero => exact .last h
    | succ n =>
      rw [drop_succ_cons, drop_nil]
      exact .nil
  | cons h hlines ih =>
    cases n with
    | zero => exact .cons h hlines
    | succ n => exact ih n

theorem append_break_inj {line line' rest rest' : Text} (h : '\n' ∉ line) (h' : '\n' ∉ line')
    (heq : line ++ '\n' :: rest = line' ++ '\n' :: rest') : line = line' ∧ rest = rest' := by
  induction line generalizing line' with
  | nil =>
    cases line' with
    | nil => exact ⟨rfl, (List.cons.inj heq).2⟩
    | cons c line' =>
      obtain ⟨rfl, -⟩ := List.cons.inj heq
      exact absurd (mem_cons_self ..) h'
  | cons c line ih =>
    cases line' with
    | nil =>
      obtain ⟨rfl, -⟩ := List.cons.inj heq
      exact absurd (mem_cons_self ..) h
    | cons c' line' =>
      obtain ⟨rfl, htail⟩ := List.cons.inj heq
      obtain ⟨rfl, rfl⟩ := ih (fun hmem => h (mem_cons_of_mem _ hmem))
        (fun hmem => h' (mem_cons_of_mem _ hmem)) htail
      exact ⟨rfl, rfl⟩

theorem joinStrings_cons (line : Text) (lines : List Text) :
    joinStrings (line :: lines) = line ++ '_' :: joinStrings lines := by
  simp [joinStrings]

theorem IsLines.joinStrings_inj {lines' : List Text} (h : IsLines lines)
    (h' : IsLines lines') (heq : joinStrings lines = joinStrings lines') : lines = lines' := by
  -- a last line without a line break has none after it either
  have hlast : ∀ line line' : Text, ∀ rest, '\n' ∉ line →
      line ++ ['_'] ≠ (line' ++ ['\n']) ++ '_' :: rest := by
    intro line line' rest hline heq
    have hmem : '\n' ∈ line ++ ['_'] := by
      rw [heq]
      simp
    simp [hline] at hmem
  induction h generalizing lines' with
  | nil =>
    cases h' with
    | nil => rfl
    | last => simp [joinStrings] at heq
    | cons => simp [joinStrings] at heq
  | @last line hline =>
    cases h' with
    | nil => simp [joinStrings] at heq
    | @last line' hline' =>
      rw [joinStrings_cons, joinStrings_cons] at heq
      exact congrArg (· :: []) (append_cancel_right heq)
    | @cons line' lines' hline' hlines' =>
      rw [joinStrings_cons, joinStrings_cons] at heq
      exact absurd heq (hlast line line' _ hline)
  | @cons line lines hline hlines ih =>
    cases h' with
    | nil => simp [joinStrings] at heq
    | @last line' hline' =>
      rw [joinStrings_cons, joinStrings_cons] at heq
      exact absurd heq.symm (hlast line' line _ hline')
    | @cons line' lines' hline' hlines' =>
      rw [joinStrings_cons, joinStrings_cons, append_assoc, append_assoc] at heq
      obtain ⟨rfl, hrest⟩ := append_break_inj hline hline' heq
      rw [ih hlines' (List.cons.inj hrest).2]

theorem isLines_readFile {files : Files} {info : FunctionSourceInfo}
    (h : readFile files info = some lines) : IsLines lines := by
  obtain ⟨text, -, rfl⟩ := Option.map_eq_some_iff.1 h
  exact ((isLines_fileLines text).take _).drop _

section Validation

variable {sha256 : Text → Text} {files files' : Files} {info : FunctionSourceInfo}

theorem readFile_getSourceInfo (func : SourceLines files) :
    ∃ lines, readFile files (getSourceInfo func) = some lines :=
  ⟨_, by rw [readFile, getSourceInfo, func.read]; rfl⟩

theorem validate_hashFunction_iff (hsha : Function.Injective sha256) {lines : List Text}
    (hlines : readFile files info = some lines) :
    validateHashedFunctionInfo sha256 files' ⟨info, hashIterableStrings sha256 lines⟩ = true ↔
      readFile files' info = readFile files info := by
  rw [hlines, validateHashedFunctionInfo, hashFunction]
  rcases hread : readFile files' info with _ | lines'
  · simp
  · simp only [Option.map_some, beq_iff_eq, Option.some.injEq]
    constructor
    · intro hhash
      exact (isLines_readFile hread).joinStrings_inj (isLines_readFile hlines) (hsha hhash)
    · rintro rfl
      rfl

theorem hashFunctions_edited (edits : List (Edited files files')) :
    hashFunctions sha256 files (edits.map fun e => getSourceInfo e.old) =
      some (edits.map fun e => ⟨getSourceInfo e.old,
        hashIterableStrings sha256 ((readFile files (getSourceInfo e.old)).getD [])⟩) := by
  rw [hashFunctions]
  induction edits with
  | nil => rfl
  | cons e edits ih =>
    obtain ⟨lines, hlines⟩ := readFile_getSourceInfo e.old
    rw [map_cons, mapM_cons, ih, hashFunction]
    simp [hlines]

variable {stored : List HashedFunctionSourceInfo}

theorem validate_edited_iff (hsha : Function.Injective sha256)
    (edits : List (Edited files files'))
    (hstored : hashFunctions sha256 files (edits.map fun e => getSourceInfo e.old) = some stored) :
    validateHashedFunctionInfos sha256 files' stored = false ↔ ∃ e ∈ edits, e.RangeChanged := by
  rw [hashFunctions_edited] at hstored
  cases hstored
  rw [← Bool.not_eq_true, validateHashedFunctionInfos, all_map, all_eq_true]
  push Not
  refine exists_congr fun e => and_congr_right fun _ => ?_
  obtain ⟨lines, hlines⟩ := readFile_getSourceInfo e.old
  have hiff := not_congr (@validate_hashFunction_iff sha256 files files' _ hsha lines hlines)
  rw [Edited.RangeChanged, Function.comp_apply, hlines]
  rw [hlines] at hiff
  exact hiff

def Rejected (sha256 : Text → Text) (files' : Files) (stored : List HashedFunctionSourceInfo) :
    Prop :=
  validateHashedFunctionInfos sha256 files' stored = false ∧
    (∀ (α : Type) (value : CacheValue α), loadEntry sha256 files' (some ⟨value, stored⟩) = none) ∧
    ∀ value, loadPruningEntry sha256 files' (some ⟨value, stored⟩) = none

theorem rejected_iff :
    Rejected sha256 files' stored ↔ validateHashedFunctionInfos sha256 files' stored = false := by
  refine ⟨fun h => h.1, fun h => ⟨h, fun α value => ?_, fun value => ?_⟩⟩
  · simp [loadEntry, serveValidated, h]
  · simp [loadPruningEntry, serveValidated, h]

end Validation

def helper (decorator after : String) : Files := fun path =>
  if path = "h.py".toList then
    some (decorator ++ "def f(x):\n    return x\n" ++ after).toList
  else none

def helperLines (decorator : String) (body : List String) : List Text :=
  (decorator :: body).map String.toList

def decoratorEdit :
    Edited (helper "@qd.func\n" "") (helper "@qd.func(is_real_function=True)\n" "") where
  old := ⟨"f".toList, "h.py".toList, 1,
    helperLines "@qd.func\n" ["def f(x):\n", "    return x\n"], _, rfl, by decide, by decide,
    ⟨[], rfl⟩⟩
  new := some ⟨"f".toList, "h.py".toList, 1,
    helperLines "@qd.func(is_real_function=True)\n" ["def f(x):\n", "    return x\n"], _, rfl,
    by decide, by decide, ⟨[], rfl⟩⟩
  same := by
    intro func hfunc
    cases hfunc
    exact ⟨rfl, rfl⟩

end Quadrants.FastCache
