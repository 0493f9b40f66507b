import Quadrants.FastCache.KeyCovers
import Quadrants.FastCache.SrcHasher

namespace Quadrants.FastCache

open Quadrants.Library.StatefulLoops List Option Function

section invariant

variable {α ι : Type} (sha256 : Text → Text) (k : Kernel α) (A : Set (List Obj))

def IsKey (args : List Obj) (pruningPaths : List Text) (key : Text) : Prop :=
  ∃ digest, hashArgs sha256 k.raiseOnTemplatedFloats args k.sig.argMetas pruningPaths = .ok digest ∧
    key = makeFullCacheKey sha256 (makeSourceConfigKey sha256 k) digest

def Compiles (args : List Obj) (value : CacheValue α) : Prop :=
  ∃ reads, k.compile.run args k.sig.argMetas = some (value.frontendCacheKey, reads) ∧
    value.usedPyDataclassParameters = usedNames reads

def Covers (args : List Obj) (value : CacheValue α) (key : Text) : Prop :=
  ∃ pruningPaths, value.usedPyDataclassParameters ⊆ pruningPaths ∧
    IsKey sha256 k args pruningPaths key

/-- Each entry was stored by a compilation whose reads its key covers. -/
def EntryOk (key : Text) (value : CacheValue α) : Prop :=
  ∃ args ∈ A, Compiles k args value ∧ Covers sha256 k args value key

def ChecksumOk (args : List Obj) (pruningPaths : Option (List Text)) (checksum : Option Text) :
    Prop :=
  ∀ key, checksum = some key → ∃ paths, pruningPaths = some paths ∧ IsKey sha256 k args paths key

def CallOk : Call α → Prop
  | .idle => True
  | .started args => args ∈ A
  | .loaded args _ => args ∈ A
  | .hit args paths checksum value =>
    args ∈ A ∧ ChecksumOk sha256 k args paths checksum ∧
      ∃ reads, k.compile.run args k.sig.argMetas = some (value.frontendCacheKey, reads)
  | .missed args paths checksum => args ∈ A ∧ ChecksumOk sha256 k args paths checksum
  | .compiled args paths checksum value =>
    args ∈ A ∧ ChecksumOk sha256 k args paths checksum ∧ Compiles k args value
  | .keyed args checksum value =>
    args ∈ A ∧ Compiles k args value ∧ ∀ key, checksum = some key → Covers sha256 k args value key

structure Inv (s : State α ι) : Prop where
  entries : ∀ key value, s.cache key = some (.l2 value) → EntryOk sha256 k A key value
  calls : ∀ i, CallOk sha256 k A (s.calls i)

end invariant

section steps

variable {α ι : Type} {sha256 : Text → Text} {k : Kernel α} {A : Set (List Obj)}

theorem inv_initial : Inv sha256 k A (initial : State α ι) := by
  constructor
  · intro key value h
    cases h
  · intro i
    trivial

variable {args : List Obj} {cache : PythonSideCache α} {s : State α ι}

theorem Inv.setCache (h : Inv sha256 k A s)
    (hcache : ∀ key value, cache key = some (.l2 value) → EntryOk sha256 k A key value) :
    Inv sha256 k A (⟨cache, s.calls⟩ : State α ι) := ⟨hcache, h.calls⟩

variable {checksum : Option Text} {digest : Text} {paths : Option (List Text)} {s' : State α ι}
variable {value : CacheValue α}

theorem makeFullCacheKey_inj (hsha : Function.Injective sha256) {l1Key digest' : Text}
    (h : makeFullCacheKey sha256 l1Key digest = makeFullCacheKey sha256 l1Key digest') :
    digest = digest' := by
  have hjoin := hsha h
  simp only [joinStrings, flatMap_cons, append_assoc] at hjoin
  have hcut := append_cancel_left (append_cancel_left (append_cancel_left
    (append_cancel_left hjoin)))
  exact append_cancel_right hcut

theorem EntryOk.compiles (hA : Legible k.sig A) (hsha : Function.Injective sha256) {key : Text}
    (h : EntryOk sha256 k A key value) (hargs : args ∈ A)
    {pruningPaths : List Text} (hkey : IsKey sha256 k args pruningPaths key) :
    ∃ reads, k.compile.run args k.sig.argMetas = some (value.frontendCacheKey, reads) := by
  obtain ⟨args', hargs', ⟨reads, hrun, hused⟩, paths', hcover, digest', hhash', hkey'⟩ := h
  obtain ⟨digest, hhash, rfl⟩ := hkey
  obtain rfl := makeFullCacheKey_inj hsha hkey'
  rw [hused] at hcover
  refine ⟨reads, Compile.run_congr hrun ?_⟩
  intro p hp obs hobs
  exact observeAt_eq_of_hashArgs hA hsha hargs' hargs hhash' hhash (usedNames_cover hcover hp) hobs

theorem computeNarrowArgsHash_eq_ok {paths : List Text}
    (h : computeNarrowArgsHash sha256 k args paths = .ok (some digest)) :
    IsKey sha256 k args paths (makeFullCacheKey sha256 (makeSourceConfigKey sha256 k) digest) := by
  unfold computeNarrowArgsHash at h
  split at h
  · rename_i argsHash hhash
    obtain rfl : argsHash = digest := Option.some.inj (Except.ok.inj h)
    exact ⟨argsHash, hhash, rfl⟩
  · cases Except.ok.inj h
  · cases h

theorem lookup_ok (hA : Legible k.sig A) (hsha : Function.Injective sha256) (hargs : args ∈ A)
    (hcache : ∀ key value, cache key = some (.l2 value) → EntryOk sha256 k A key value)
    (paths : Option (List Text)) : CallOk sha256 k A (lookup sha256 k args cache paths) := by
  cases paths with
  | none => exact ⟨hargs, fun key h => by cases h⟩
  | some paths =>
    simp only [lookup]
    cases hhash : computeNarrowArgsHash sha256 k args paths with
    | error e => trivial
    | ok digest =>
      cases digest with
      | none => exact ⟨hargs, fun key h => by cases h⟩
      | some digest =>
        have hkey := computeNarrowArgsHash_eq_ok hhash
        have hchecksum : ChecksumOk sha256 k args (some paths)
            (some (makeFullCacheKey sha256 (makeSourceConfigKey sha256 k) digest)) := by
          intro key heq
          cases heq
          exact ⟨paths, rfl, hkey⟩
        simp only [load]
        split
        · rename_i value hload
          split at hload
          · rename_i value' hentry
            obtain rfl : value' = value := Option.some.inj hload
            exact ⟨hargs, hchecksum, (hcache _ _ hentry).compiles hA hsha hargs hkey⟩
          · cases hload
        · exact ⟨hargs, hchecksum⟩

theorem growPaths_spec (hchecksum : ChecksumOk sha256 k args paths checksum) (used : List Text) :
    used ⊆ (growPaths used paths checksum).1 ∧
      ∀ key, (growPaths used paths checksum).2.2 = some key →
        IsKey sha256 k args (growPaths used paths checksum).1 key := by
  cases paths with
  | none =>
    refine ⟨List.Subset.refl _, ?_⟩
    intro key hkey
    obtain ⟨paths, hpaths, _⟩ := hchecksum key hkey
    cases hpaths
  | some paths =>
    simp only [growPaths]
    split_ifs with hsub
    · refine ⟨fun name hname => by simpa using all_eq_true.mp hsub name hname, ?_⟩
      intro key hkey
      obtain ⟨_, hpaths, hiskey⟩ := hchecksum key hkey
      cases hpaths
      exact hiskey
    · refine ⟨subset_append_right _ _, ?_⟩
      intro key hkey
      cases hkey

theorem persist_cache (h : Inv sha256 k A s) (used : List Text)
    (paths : Option (List Text)) (checksum : Option Text) (args : List Obj) :
    ∀ key value, (persistL1AndSetL2Key sha256 k used paths checksum args s.cache).1 key =
      some (.l2 value) → EntryOk sha256 k A key value := by
  intro key value hentry
  have hcache : (persistL1AndSetL2Key sha256 k used paths checksum args s.cache).1 =
      if (growPaths used paths checksum).2.1 then
        s.cache.store (makeSourceConfigKey sha256 k) (.l1 ⟨(growPaths used paths checksum).1⟩)
      else s.cache := by
    simp only [persistL1AndSetL2Key]
    split
    · rfl
    · split <;> rfl
  rw [hcache] at hentry
  split_ifs at hentry
  · rw [PythonSideCache.store, update_apply] at hentry
    split_ifs at hentry
    · cases hentry
    · exact h.entries key value hentry
  · exact h.entries key value hentry

theorem persist_checksum (hchecksum : ChecksumOk sha256 k args paths checksum)
    {checksum' : Option Text} {generated : Bool}
    (h : (persistL1AndSetL2Key sha256 k value.usedPyDataclassParameters paths checksum args
      cache).2 = .ok (checksum', generated)) :
    ∀ key, checksum' = some key → Covers sha256 k args value key := by
  rintro key rfl
  obtain ⟨hcover, hkept⟩ := growPaths_spec hchecksum value.usedPyDataclassParameters
  refine ⟨_, hcover, ?_⟩
  simp only [persistL1AndSetL2Key] at h
  split at h
  · rename_i kept heq
    cases h
    exact hkept _ heq
  · split at h
    · rename_i digest hhash
      cases h
      exact computeNarrowArgsHash_eq_ok hhash
    · cases h
    · cases h

variable [DecidableEq ι]

theorem Inv.setCall (h : Inv sha256 k A s) {i : ι} {c : Call α}
    (hc : CallOk sha256 k A c) : Inv sha256 k A (s.setCall i c) := by
  refine ⟨h.entries, ?_⟩
  intro j
  simp only [State.setCall, update_apply]
  split_ifs
  · exact hc
  · exact h.calls j

theorem Inv.step (hA : Legible k.sig A) (hsha : Function.Injective sha256)
    (h : Inv sha256 k A s) {e : Event ι} (he : ∀ i args, e = .call i args → args ∈ A)
    (hstep : step sha256 k s e = some s') : Inv sha256 k A s' := by
  cases e with
  | call i args =>
    simp only [FastCache.step] at hstep
    split at hstep <;> cases hstep
    exact h.setCall (he i args rfl)
  | loadPruningInfo i =>
    have hcall := h.calls i
    simp only [FastCache.step] at hstep
    split at hstep <;> cases hstep
    rename_i args heq
    rw [heq] at hcall
    exact h.setCall hcall
  | lookup i =>
    have hcall := h.calls i
    simp only [FastCache.step] at hstep
    split at hstep <;> cases hstep
    rename_i args paths heq
    rw [heq] at hcall
    exact h.setCall (lookup_ok hA hsha hcall h.entries paths)
  | artifactLost i =>
    have hcall := h.calls i
    simp only [FastCache.step] at hstep
    split at hstep <;> cases hstep
    rename_i args paths checksum value heq
    rw [heq] at hcall
    exact h.setCall ⟨hcall.1, hcall.2.1⟩
  | compile i =>
    have hcall := h.calls i
    simp only [FastCache.step] at hstep
    split at hstep
    · rename_i args paths checksum heq
      rw [heq] at hcall
      split at hstep <;> cases hstep
      · rename_i artifact reads hrun
        exact h.setCall ⟨hcall.1, hcall.2, reads, hrun, rfl⟩
      · exact h.setCall trivial
    · cases hstep
  | persist i =>
    have hcall := h.calls i
    simp only [FastCache.step] at hstep
    split at hstep
    · rename_i args paths checksum value heq
      rw [heq] at hcall
      obtain ⟨hargs, hchecksum, hcompiles⟩ := hcall
      split at hstep <;> cases hstep
      · rename_i checksum' generated hok
        exact (h.setCache (persist_cache h _ _ _ _)).setCall
          ⟨hargs, hcompiles, persist_checksum hchecksum hok⟩
      · exact (h.setCache (persist_cache h _ _ _ _)).setCall trivial
    · cases hstep
      exact (h.setCache (persist_cache h _ _ _ _)).setCall trivial
    · cases hstep
  | store i =>
    have hcall := h.calls i
    simp only [FastCache.step] at hstep
    split at hstep <;> cases hstep
    rename_i args checksum value heq
    rw [heq] at hcall
    obtain ⟨hargs, hcompiles, hcovers⟩ := hcall
    refine (h.setCache ?_).setCall trivial
    intro key value' hentry
    cases checksum with
    | none => exact h.entries key value' hentry
    | some key' =>
      rw [FastCache.store, PythonSideCache.store, update_apply] at hentry
      split_ifs at hentry with hkey
      · cases hentry
        exact ⟨args, hargs, hcompiles, hcovers key (by rw [hkey])⟩
      · exact h.entries key value' hentry
  | crash i =>
    cases hstep
    exact h.setCall trivial
  | evict key =>
    cases hstep
    apply h.setCache
    intro key' value hentry
    rw [update_apply] at hentry
    split_ifs at hentry
    exact h.entries key' value hentry

theorem Inv.run (hA : Legible k.sig A) (hsha : Function.Injective sha256) {events : List (Event ι)}
    (hevents : ∀ i args, .call i args ∈ events → args ∈ A)
    (h : Inv sha256 k A s) (hrun : run sha256 k s events = some s') : Inv sha256 k A s' := by
  induction events generalizing s with
  | nil =>
    cases hrun
    exact h
  | cons e events ih =>
    rw [FastCache.run, bind_eq_some_iff] at hrun
    obtain ⟨s₁, hstep, hrest⟩ := hrun
    refine ih (fun i args hmem => hevents i args (mem_cons_of_mem _ hmem)) ?_ hrest
    apply h.step hA hsha _ hstep
    rintro i args rfl
    exact hevents i args mem_cons_self

end steps

section served

variable {α ι : Type} [DecidableEq ι]

/-- Every lookup that has hit names the artifact that compiling its arguments gives. -/
def HitsCorrect (k : Kernel α) (s : State α ι) : Prop :=
  ∀ i args paths checksum value, s.calls i = .hit args paths checksum value →
    ∃ reads, k.compile.run args k.sig.argMetas = some (value.frontendCacheKey, reads)

end served

def ident (text : String) (hne : text.toList ≠ [])
    (hvalid : text.toList.all isIdentChar = true) : Name := ⟨text.toList, hne, hvalid⟩

def selfName : Name := ident "self" (by decide) (by decide)

def aName : Name := ident "a" (by decide) (by decide)

def xName : Name := ident "x" (by decide) (by decide)

def yName : Name := ident "y" (by decide) (by decide)

def pyInt (value : String) : Obj := .leaf (.number "class 'int'>".toList false value.toList)

def Call.served? {α : Type} (k : Kernel α) : Call α → Option (α × Option α)
  | .hit args _ _ value =>
    some (value.frontendCacheKey, (k.compile.run args k.sig.argMetas).map (·.1))
  | _ => none

def inner (x : String) : Obj :=
  .dataOriented ⟨"Inner".toList, false⟩ (.cons .plain xName (pyInt x) .nil)

def nested (x : String) : Obj :=
  .dataOriented ⟨"Outer".toList, false⟩ (.cons .plain aName (inner x) .nil)

def nestedKernel : Kernel Obs where
  sig := ⟨[⟨selfName, true⟩], by decide⟩
  raiseOnTemplatedFloats := false
  sourceConfig := []
  compile := .read [xName, aName, selfName] .done

theorem lookupPath_nested {x : String} : ∀ {p : Path} {h : Held},
    lookupPath [nested x] nestedKernel.sig.argMetas p = some h →
      (p = [selfName] ∧ h = .value true (nested x)) ∨ (p = [aName, selfName] ∧
        h = .value true (inner x)) ∨ (p = [xName, aName, selfName] ∧ h = .value true (pyInt x))
  | [], _, hp => by cases hp
  | [name], h, hp => by
    simp only [lookupPath, nestedKernel, findArg] at hp
    split_ifs at hp with hname
    cases hp
    exact Or.inl ⟨by rw [hname], rfl⟩
  | name :: parent :: p, h, hp => by
    rw [lookupPath_cons (cons_ne_nil _ _), bind_eq_some_iff] at hp
    obtain ⟨held, hparent, hchild⟩ := hp
    rcases lookupPath_nested hparent with ⟨hpath, rfl⟩ | ⟨hpath, rfl⟩ | ⟨hpath, rfl⟩
    · simp only [Held.child, nested, Obj.child, Members.find] at hchild
      split_ifs at hchild with hname
      cases hchild
      exact Or.inr (Or.inl ⟨by rw [hpath, ← hname.1], rfl⟩)
    · simp only [Held.child, inner, Obj.child, Members.find] at hchild
      split_ifs at hchild with hname
      cases hchild
      exact Or.inr (Or.inr ⟨by rw [hpath, ← hname.1], rfl⟩)
    · cases hchild

def nestedArgs : Set (List Obj) := fun args => args = [nested "1"] ∨ args = [nested "2"]

theorem nestedArgs_eq {args : List Obj} (h : args ∈ nestedArgs) :
    ∃ x, args = [nested x] ∧ (x = "1" ∨ x = "2") := by
  rcases h with rfl | rfl
  · exact ⟨"1", rfl, Or.inl rfl⟩
  · exact ⟨"2", rfl, Or.inr rfl⟩

variable {p : Path}

theorem placed_nested {h : Held} (hp : Placed nestedKernel.sig nestedArgs p h) :
    ∃ x, (x = "1" ∨ x = "2") ∧ ((p = [selfName] ∧ h = .value true (nested x)) ∨
      (p = [aName, selfName] ∧ h = .value true (inner x)) ∨
        (p = [xName, aName, selfName] ∧ h = .value true (pyInt x))) := by
  obtain ⟨args, hargs, hlookup⟩ := hp
  obtain ⟨x, rfl, hx⟩ := nestedArgs_eq hargs
  exact ⟨x, hx, lookupPath_nested hlookup⟩

theorem at_leaf_nested {t : Bool} {l : Leaf} (h : At nestedKernel.sig nestedArgs p t (.leaf l)) :
    t = true ∧ ∃ x, (x = "1" ∨ x = "2") ∧ l = .number "class 'int'>".toList false x.toList := by
  obtain ⟨held, hplaced, hobj⟩ := h
  obtain ⟨x, hx, ⟨_, rfl⟩ | ⟨_, rfl⟩ | ⟨_, rfl⟩⟩ := placed_nested hplaced
  · cases hobj
  · cases hobj
  · cases hobj
    exact ⟨rfl, x, hx, rfl⟩

theorem inNest_nested {r q : Path} (h : InNest nestedKernel.sig nestedArgs r q) :
    q = [aName, selfName] ∨ q = [xName, aName, selfName] := by
  have hmember : ∀ {p name}, HasMember nestedKernel.sig nestedArgs p name →
      name :: p = [aName, selfName] ∨ name :: p = [xName, aName, selfName] := by
    rintro p name ⟨args, hargs, h, t, cls, members, h', hp, _, hlookup⟩
    obtain ⟨x, _, ⟨hpath, _⟩ | ⟨hpath, _⟩ | ⟨hpath, _⟩⟩ := placed_nested ⟨args, hargs, hlookup⟩
    · obtain rfl : p = [] := (List.cons.inj hpath).2
      cases hp
    · exact Or.inl hpath
    · exact Or.inr hpath
  cases h with
  | member h => exact hmember h
  | inner _ h => exact hmember h

theorem legible_nested : Legible nestedKernel.sig nestedArgs where
  wf := by
    intro args hargs o ho
    obtain ⟨x, rfl, _⟩ := nestedArgs_eq hargs
    rw [List.mem_singleton] at ho
    rw [ho]
    simp [nested, inner, pyInt, Obj.WF, Members.WF, Members.names]
  leaf := by
    intro p t t' l l' h h' raiseOnTemplatedFloats s s' hs hs'
    obtain ⟨rfl, x, hx, rfl⟩ := at_leaf_nested h
    obtain ⟨rfl, x', hx', rfl⟩ := at_leaf_nested h'
    simp only [Leaf.stringify, if_true, Bool.and_false, if_neg Bool.false_ne_true] at hs hs'
    cases hs
    cases hs'
    have hplain : ∀ x, x = "1" ∨ x = "2" →
        ∀ c ∈ classText "class 'int'>".toList ++ '=' :: x.toList, ¬ isSep c := by
      intro x hx c hc hsep
      have hall : (classText "class 'int'>".toList ++ '=' :: x.toList).all
          (fun c => c != ',' && c != ')' && c != '_') = true := by
        rcases hx with rfl | rfl <;> decide
      have hne := all_eq_true.mp hall c hc
      rcases hsep with rfl | rfl | rfl <;> revert hne <;> decide
    refine ⟨Library.Decoding.clear_of_forall (hplain x hx) (hplain x' hx'), ?_⟩
    intro heq
    rw [(List.cons.inj (append_cancel_left heq)).2]
  dataclass := by
    rintro p t t' c c' fields fields' ⟨held, hplaced, hobj⟩ _
    obtain ⟨x, _, ⟨_, rfl⟩ | ⟨_, rfl⟩ | ⟨_, rfl⟩⟩ := placed_nested hplaced <;> cases hobj
  dataOriented := by
    rintro p t t' c c' members members' ⟨held, hplaced, hobj⟩ ⟨held', hplaced', hobj'⟩
    obtain ⟨x, _, ⟨rfl, rfl⟩ | ⟨rfl, rfl⟩ | ⟨rfl, rfl⟩⟩ := placed_nested hplaced <;>
      obtain ⟨x', _, ⟨hp, rfl⟩ | ⟨hp, rfl⟩ | ⟨hp, rfl⟩⟩ := placed_nested hplaced' <;>
      cases hobj <;> cases hobj' <;> first | rfl | (revert hp; decide)
  valued := by
    intro p text text' o o' hplaced _
    obtain ⟨x, _, ⟨_, h⟩ | ⟨_, h⟩ | ⟨_, h⟩⟩ := placed_nested hplaced <;> cases h
  final := by
    intro p key key' hplaced _
    obtain ⟨x, _, ⟨_, h⟩ | ⟨_, h⟩ | ⟨_, h⟩⟩ := placed_nested hplaced <;> cases h
  place := by
    intro r p q hp hq hhead
    rcases inNest_nested hp with rfl | rfl <;> rcases inNest_nested hq with rfl | rfl <;>
      first | rfl | (revert hhead; decide)

def warming : List (Event (Fin 2)) :=
  [.call 0 [nested "1"], .loadPruningInfo 0, .lookup 0, .compile 0, .persist 0, .store 0,
    .call 1 [nested "1"], .loadPruningInfo 1, .lookup 1]

def outer (x y y' : String) : Obj :=
  .dataOriented ⟨"Outer".toList, false⟩
    (.cons .plain aName (.dataOriented ⟨"Inner".toList, false⟩
        (.cons .plain xName (pyInt x) (.cons .plain yName (pyInt y) .nil)))
      (.cons .plain yName (pyInt y') .nil))

def branchingKernel : Kernel Obs where
  sig := ⟨[⟨selfName, true⟩], by decide⟩
  raiseOnTemplatedFloats := false
  sourceConfig := []
  compile := .read [xName, aName, selfName] fun obs =>
    if obs = (pyInt "1").observe true then .read [yName, aName, selfName] .done
    else .read [yName, selfName] .done

/-- Process 1 loads L1 before process 0 has stored it, and overwrites it with the paths of the other
branch. Process 2 then looks up with these paths. -/
def overwriting : List (Event (Fin 3)) :=
  [.call 0 [outer "1" "2" "7"], .call 1 [outer "0" "5" "4"], .loadPruningInfo 0,
    .loadPruningInfo 1, .lookup 0, .lookup 1, .compile 0, .compile 1, .persist 0, .persist 1,
    .store 0, .store 1, .call 2 [outer "1" "3" "2"], .loadPruningInfo 2, .lookup 2]

end Quadrants.FastCache

namespace Quadrants.FastCache

/-- Equal argument strings show the same arguments: every object, field and member the walk meets
stands at the same path and is of the same type, with the same baked value. -/
def KeyInjective (sig : Signature) (A : Set (List Obj)) : Prop :=
  ∀ raiseOnTemplatedFloats pruningPaths, ∀ args ∈ A, ∀ args' ∈ A, ∀ hashes hashes',
    args.length = sig.argMetas.length → args'.length = sig.argMetas.length →
    stringifyArgs raiseOnTemplatedFloats pruningPaths args sig.argMetas = .ok hashes →
    stringifyArgs raiseOnTemplatedFloats pruningPaths args' sig.argMetas = .ok hashes' →
    joinStrings hashes = joinStrings hashes' →
      argsVisits pruningPaths args sig.argMetas = argsVisits pruningPaths args' sig.argMetas

/-- An object with a member `a` that has a member `x`; `y` is a member of the one or the other. -/
def withInnerY (x y : String) : Obj :=
  .dataOriented ⟨"Outer".toList, false⟩
    (.cons .plain aName (.dataOriented ⟨"Inner".toList, false⟩
      (.cons .plain xName (pyInt x) (.cons .plain yName (pyInt y) .nil))) .nil)

def withOuterY (x y : String) : Obj :=
  .dataOriented ⟨"Outer".toList, false⟩
    (.cons .plain aName (inner x) (.cons .plain yName (pyInt y) .nil))

end Quadrants.FastCache
