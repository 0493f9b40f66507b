import Mathlib.Data.Int.Notation
import Mathlib.Data.List.Basic
import Mathlib.Logic.Function.Basic

/-!
# Access classification of a task

Which fields `detect_read_only` flags, which external arrays the access maps hold, and what runs of
the task touch besides.
-/

namespace Quadrants.Analysis.DetectReadOnly

/-- What a statement accesses memory through. A pointer of tensor type to the cell of `snode` also
reaches the components placed after it. -/
inductive Ptr (S : Type) where
  | globalPtr (snode : S) (components : List S)
  | externalPtr (argId : List ℤ) (isGrad : Bool)
  | matrixPtr (origin : Ptr S)
  | other

/-- `other` stands for the remaining statements: SNode operations, calls, and those that do not
touch memory. -/
inductive TaskStmt (S O : Type) where
  | globalLoad (src : Ptr S)
  | globalStore (dest : Ptr S)
  | atomicOp (dest : Ptr S)
  | other (op : O)

/-- A body with its nested blocks; a loop is of any kind. -/
inductive Block (S O : Type) where
  | done
  | stmt (s : TaskStmt S O) (rest : Block S O)
  | ifStmt (trueStatements falseStatements rest : Block S O)
  | loop (body rest : Block S O)

variable {S O V : Type}

def Block.statements : Block S O → List (TaskStmt S O)
  | done => []
  | stmt s rest => s :: rest.statements
  | ifStmt t f rest => t.statements ++ (f.statements ++ rest.statements)
  | loop body rest => body.statements ++ rest.statements

/-- The SNodes that are read. -/
def snodeReads (task : Block S O) : List S :=
  task.statements.filterMap fun
    | .globalLoad (.globalPtr s _) | .atomicOp (.globalPtr s _) => some s
    | _ => none

/-- The SNodes that are written. -/
def snodeWrites (task : Block S O) : List S :=
  task.statements.filterMap fun
    | .globalStore (.globalPtr s _) | .atomicOp (.globalPtr s _) => some s
    | _ => none

/-- The SNodes that `detect_read_only_in_task` flags `read_only`. -/
def detectReadOnlyInTask [DecidableEq S] (task : Block S O) : List S :=
  (snodeReads task).filter fun s => s ∉ snodeWrites task

structure ExternalPtrAccess where
  read : Bool
  write : Bool
  deriving DecidableEq

/-- What an access map has for the arguments. -/
abbrev AccessMap := List ℤ → Option ExternalPtrAccess

/-- The access `a` added to what the map has for `arg`. -/
def AccessMap.add (map : AccessMap) (arg : List ℤ) (a : ExternalPtrAccess) : AccessMap :=
  Function.update map arg <| some <| match map arg with
    | some b => ⟨b.read || a.read, b.write || a.write⟩
    | none => a

def visitExternalPtrAccess (gradOnly : Bool) (map : AccessMap) : TaskStmt S O → AccessMap
  | .globalLoad (.externalPtr arg isGrad) =>
    if gradOnly && !isGrad then map else map.add arg ⟨true, false⟩
  | .globalStore (.externalPtr arg isGrad) =>
    if gradOnly && !isGrad then map else map.add arg ⟨false, true⟩
  | .atomicOp (.externalPtr arg isGrad) =>
    if gradOnly && !isGrad then map else Function.update map arg (some ⟨true, true⟩)
  | _ => map

/-- `detect_external_ptr_access_in_task`, or its gradient variant. -/
def detectExternalPtrAccessInTask (gradOnly : Bool) (task : Block S O) : AccessMap :=
  task.statements.foldl (visitExternalPtrAccess gradOnly) fun _ => none

/-- The cells of fields, and the elements of external arrays and of their gradients. -/
inductive Loc (S : Type) where
  | field (snode : S) (cell : List ℤ)
  | external (argId : List ℤ) (isGrad : Bool) (element : List ℤ)
  deriving DecidableEq

inductive Access (S V : Type) where
  | read (l : Loc S)
  | write (l : Loc S) (v : V)

def Access.loc : Access S V → Loc S
  | read l | write l _ => l

def Access.isWrite : Access S V → Bool
  | read _ => false
  | write _ _ => true

/-- The locations that an access through a pointer can be to. `reach s` are the components that a
matrix pointer finds from the cell of `s`. -/
def Points (reach : S → List S) : Ptr S → Loc S → Prop
  | .globalPtr s components, .field s' _ => s' = s ∨ s' ∈ components
  | .externalPtr arg isGrad, .external arg' isGrad' _ => arg' = arg ∧ isGrad' = isGrad
  | .matrixPtr (.globalPtr s _), .field s' _ => s' ∈ reach s
  | .matrixPtr origin, .external arg isGrad element =>
    Points reach origin (.external arg isGrad element)
  | _, _ => False

/-- What one execution of a statement does. `effect` says what the other statements may do. -/
def Performs (reach : S → List S) (effect : O → List (Access S V) → Prop) :
    TaskStmt S O → List (Access S V) → Prop
  | .globalLoad src, accesses => ∀ a ∈ accesses, ∃ l, a = .read l ∧ Points reach src l
  | .globalStore dest, accesses => ∀ a ∈ accesses, ∃ l v, a = .write l v ∧ Points reach dest l
  | .atomicOp dest, accesses => ∀ a ∈ accesses, Points reach dest a.loc
  | .other op, accesses => effect op accesses

/-- The runs of a body, with what each executed statement did. -/
inductive Runs (reach : S → List S) (effect : O → List (Access S V) → Prop) :
    Block S O → List (TaskStmt S O × List (Access S V)) → Prop
  | done : Runs reach effect .done []
  | stmt {s accesses rest t} : Performs reach effect s accesses → Runs reach effect rest t →
      Runs reach effect (.stmt s rest) ((s, accesses) :: t)
  | ifTrue {b f rest t t'} : Runs reach effect b t → Runs reach effect rest t' →
      Runs reach effect (.ifStmt b f rest) (t ++ t')
  | ifFalse {b f rest t t'} : Runs reach effect f t → Runs reach effect rest t' →
      Runs reach effect (.ifStmt b f rest) (t ++ t')
  | loopEnd {body rest t} : Runs reach effect rest t → Runs reach effect (.loop body rest) t
  | loopRound {body rest t t'} : Runs reach effect body t →
      Runs reach effect (.loop body rest) t' → Runs reach effect (.loop body rest) (t ++ t')

/-- The memory after some accesses. -/
def perform [DecidableEq S] (m : Loc S → V) : List (Access S V) → Loc S → V
  | [] => m
  | .read _ :: rest => perform m rest
  | .write l v :: rest => perform (Function.update m l v) rest

/-- The map of the data or of the gradient has this kind of access to the array. -/
def Recorded (map : AccessMap) (arg : List ℤ) (isWrite : Bool) : Prop :=
  ∃ a, map arg = some a ∧ (if isWrite then a.write else a.read) = true

def TaskStmt.pointer : TaskStmt S O → Option (Ptr S)
  | globalLoad p | globalStore p | atomicOp p => some p
  | other _ => none

/-- The location belongs to the SNode or the array of the pointer itself. -/
def Direct (s : TaskStmt S O) : Loc S → Prop
  | .field snode _ => ∃ components, s.pointer = some (.globalPtr snode components)
  | .external arg isGrad _ => s.pointer = some (.externalPtr arg isGrad)

/-- The statement is a load, or a store, or an atomic that is both. -/
def TaskStmt.HasKind : TaskStmt S O → Bool → Prop
  | globalLoad _, isWrite => isWrite = false
  | globalStore _, isWrite => isWrite = true
  | atomicOp _, _ => True
  | other _, _ => False

/-- A statement of the task accesses the SNode or the array of the location by its own pointer. -/
def HasDirect (task : Block S O) (isWrite : Bool) (l : Loc S) : Prop :=
  ∃ s ∈ task.statements, s.HasKind isWrite ∧ Direct s l

/-- A write to a field that the task reads directly is to one that it also writes directly, and an
access to an array or a gradient is of a kind that the task has directly. -/
def Seen (task : Block S O) (a : Access S V) : Prop :=
  match a.loc with
  | .field s cell => a.isWrite → HasDirect task false (.field s cell) →
    HasDirect task true (.field s cell)
  | .external arg isGrad element =>
    ∃ g, HasDirect task a.isWrite (.external arg g element) ∧ (isGrad → g)

variable {reach : S → List S} {effect : O → List (Access S V) → Prop} {task : Block S O}
  {t : List (TaskStmt S O × List (Access S V))}

theorem Runs.performs (h : Runs reach effect task t) :
    ∀ x ∈ t, x.1 ∈ task.statements ∧ Performs reach effect x.1 x.2 := by
  induction h with
  | done => simp
  | stmt hs _ ih =>
    intro x hx
    rcases List.mem_cons.1 hx with rfl | hx
    · exact ⟨List.mem_cons_self, hs⟩
    · exact ⟨List.mem_cons_of_mem _ (ih x hx).1, (ih x hx).2⟩
  | ifTrue _ _ ih ih' =>
    intro x hx
    rcases List.mem_append.1 hx with hx | hx
    · exact ⟨List.mem_append_left _ (ih x hx).1, (ih x hx).2⟩
    · exact ⟨List.mem_append_right _ (List.mem_append_right _ (ih' x hx).1), (ih' x hx).2⟩
  | ifFalse _ _ ih ih' =>
    intro x hx
    rcases List.mem_append.1 hx with hx | hx
    · exact ⟨List.mem_append_right _ (List.mem_append_left _ (ih x hx).1), (ih x hx).2⟩
    · exact ⟨List.mem_append_right _ (List.mem_append_right _ (ih' x hx).1), (ih' x hx).2⟩
  | loopEnd _ ih => exact fun x hx => ⟨List.mem_append_right _ (ih x hx).1, (ih x hx).2⟩
  | loopRound _ _ ih ih' =>
    intro x hx
    rcases List.mem_append.1 hx with hx | hx
    · exact ⟨List.mem_append_left _ (ih x hx).1, (ih x hx).2⟩
    · exact ih' x hx

variable {accesses : List (Access S V)} {arg : List ℤ} {gradOnly w : Bool} {map : AccessMap}
variable {s : TaskStmt S O}

theorem recorded_add {arg' : List ℤ} {a : ExternalPtrAccess}
    (h : Recorded map arg w ∨ arg = arg' ∧ (if w then a.write else a.read) = true) :
    Recorded (map.add arg' a) arg w := by
  unfold Recorded AccessMap.add
  by_cases harg : arg = arg'
  · rcases h with ⟨b, hb, hw⟩ | ⟨-, hw⟩
    · cases w <;> simp_all
    · cases hmap : map arg <;> cases w <;> simp_all
  · obtain ⟨b, hb, hw⟩ := h.resolve_right fun h => harg h.1
    exact ⟨b, by simp [harg, hb], hw⟩

theorem recorded_visit (h : Recorded map arg w) (s : TaskStmt S O) :
    Recorded (visitExternalPtrAccess gradOnly map s) arg w := by
  unfold visitExternalPtrAccess
  split
  · split
    · exact h
    · exact recorded_add (.inl h)
  · split
    · exact h
    · exact recorded_add (.inl h)
  · split
    next => exact h
    next arg' _ _ =>
      by_cases harg : arg = arg'
      · exact ⟨⟨true, true⟩, by simp [harg], by cases w <;> rfl⟩
      · obtain ⟨a, ha, hw⟩ := h
        exact ⟨a, by simp [harg, ha], hw⟩
  · exact h

theorem recorded_foldl {l : List (TaskStmt S O)} (hs : s ∈ l)
    (h : ∀ map, Recorded (visitExternalPtrAccess gradOnly map s) arg w) (map : AccessMap) :
    Recorded (l.foldl (visitExternalPtrAccess gradOnly) map) arg w := by
  have hkeep : ∀ (l : List (TaskStmt S O)) (map : AccessMap), Recorded map arg w →
      Recorded (l.foldl (visitExternalPtrAccess gradOnly) map) arg w := by
    intro l
    induction l with
    | nil => exact fun map h => h
    | cons a l ih => exact fun map h => ih _ (recorded_visit h a)
  obtain ⟨l₁, l₂, rfl⟩ := List.append_of_mem hs
  rw [List.foldl_append]
  exact hkeep l₂ _ (h _)

theorem perform_of_not_written [DecidableEq S] {l : Loc S}
    (h : ∀ a ∈ accesses, a.isWrite → a.loc ≠ l) (m : Loc S → V) : perform m accesses l = m l := by
  induction accesses generalizing m with
  | nil => rfl
  | cons a rest ih =>
    have hrest := ih fun b hb => h b (List.mem_cons_of_mem _ hb)
    cases a with
    | read l' => exact hrest m
    | write l' v =>
      have hne : l' ≠ l := h _ List.mem_cons_self rfl
      rw [perform, hrest, Function.update_of_ne (Ne.symm hne)]

theorem mem_snodeReads {s : S} (h : s ∈ snodeReads task) (cell : List ℤ) :
    HasDirect task false (.field s cell) := by
  obtain ⟨stmt, hstmt, heq⟩ := List.mem_filterMap.1 h
  split at heq
  · obtain rfl := Option.some.inj heq
    exact ⟨_, hstmt, rfl, _, rfl⟩
  · obtain rfl := Option.some.inj heq
    exact ⟨_, hstmt, trivial, _, rfl⟩
  · cases heq

theorem snodeWrites_of_hasDirect {s : S} {cell : List ℤ}
    (h : HasDirect task true (.field s cell)) : s ∈ snodeWrites task := by
  obtain ⟨stmt, hstmt, hkind, components, hptr⟩ := h
  refine List.mem_filterMap.2 ⟨stmt, hstmt, ?_⟩
  cases stmt with
  | globalLoad src => cases hkind
  | globalStore dest => rw [Option.some.inj hptr]
  | atomicOp dest => rw [Option.some.inj hptr]
  | other op => cases hkind

theorem recorded_of_hasDirect {g : Bool} {element : List ℤ}
    (h : HasDirect task w (.external arg g element)) (hg : gradOnly → g) :
    Recorded (detectExternalPtrAccessInTask gradOnly task) arg w := by
  obtain ⟨stmt, hstmt, hkind, hptr⟩ := h
  have hskip : (gradOnly && !g) = false := by
    cases gradOnly <;> cases g <;> simp_all
  refine recorded_foldl hstmt (fun map => ?_) _
  cases stmt with
  | globalLoad src =>
    obtain rfl := Option.some.inj hptr
    obtain rfl : w = false := hkind
    simp only [visitExternalPtrAccess, hskip]
    exact recorded_add (.inr ⟨rfl, rfl⟩)
  | globalStore dest =>
    obtain rfl := Option.some.inj hptr
    obtain rfl : w = true := hkind
    simp only [visitExternalPtrAccess, hskip]
    exact recorded_add (.inr ⟨rfl, rfl⟩)
  | atomicOp dest =>
    obtain rfl := Option.some.inj hptr
    simp only [visitExternalPtrAccess, hskip]
    exact ⟨⟨true, true⟩, by simp, by cases w <;> rfl⟩
  | other op => cases hkind

/-- Accesses through direct pointers are seen. -/
theorem seen_of_direct
    (hs : s ∈ task.statements) (hp : Performs reach effect s accesses) {a : Access S V}
    (ha : a ∈ accesses) (hd : Direct s a.loc) : Seen task a := by
  have hkind : s.HasKind a.isWrite := by
    cases s with
    | globalLoad src =>
      obtain ⟨l, rfl, -⟩ := hp a ha
      rfl
    | globalStore dest =>
      obtain ⟨l, v, rfl, -⟩ := hp a ha
      rfl
    | atomicOp dest => trivial
    | other op => cases hloc : a.loc <;> simp [hloc, Direct, TaskStmt.pointer] at hd
  unfold Seen
  cases hloc : a.loc with
  | field snode cell => exact fun hw _ => ⟨s, hs, hw ▸ hkind, hloc ▸ hd⟩
  | external arg isGrad element => exact ⟨isGrad, ⟨s, hs, hkind, hloc ▸ hd⟩, id⟩

/-- A matrix field with the components `0` and `1` is loaded whole, its first component is stored
through a matrix pointer, and so is an element of an array of vectors. -/
def wholeThenComponent : Block ℤ Empty :=
  .stmt (.globalLoad (.globalPtr 0 [1])) (.stmt (.globalStore (.matrixPtr (.globalPtr 0 [1])))
    (.stmt (.globalStore (.matrixPtr (.externalPtr [0] false))) .done))

def wholeThenComponentRun : List (TaskStmt ℤ Empty × List (Access ℤ ℤ)) :=
  [(.globalLoad (.globalPtr 0 [1]), [.read (.field 0 []), .read (.field 1 [])]),
   (.globalStore (.matrixPtr (.globalPtr 0 [1])), [.write (.field 0 []) 7]),
   (.globalStore (.matrixPtr (.externalPtr [0] false)), [.write (.external [0] false [3]) 7])]

end Quadrants.Analysis.DetectReadOnly
