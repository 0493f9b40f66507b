import Quadrants.Offload.Regions
import Mathlib.Data.List.TakeWhile

namespace Quadrants.Offload

open Library.NestedLoops List

/-- The serial task that is being collected, seen from inside the nested program: pure statements
that wait for the next loop or side effect, a task with side effects, or a task that has already
been put where its side effects stand, together with the statements up to the next one. -/
inductive Bucket where
  | waiting (statements : List Stmt)
  | opened (statements : List Stmt) (tag : GraphRegionTag)
  | placed

def serialTask (statements : List Stmt) (tag : GraphRegionTag) : Task :=
  ⟨.serial statements, tag⟩

def serialTasks (statements : List Stmt) (tag : GraphRegionTag) : List Task :=
  if statements = [] then [] else [serialTask statements tag]

namespace Bucket

def feed (bucket : Bucket) (stmt : Stmt) : List Task × Bucket :=
  match bucket with
  | waiting statements =>
    if stmt.isFor then (serialTasks statements stmt.preForTag ++ forTasks stmt, waiting [])
    else if stmt.setsRegion then ([], opened (statements ++ [stmt]) stmt.regionTag)
    else ([], waiting (statements ++ [stmt]))
  | opened statements tag =>
    if stmt.isFor then (serialTask statements tag :: forTasks stmt, waiting [])
    else if stmt.setsRegion && !stmt.regionTag.same tag then
      ([serialTask statements tag], opened [stmt] stmt.regionTag)
    else ([], opened (statements ++ [stmt]) tag)
  | placed =>
    if stmt.isFor then (forTasks stmt, waiting [])
    else if stmt.setsRegion then ([], opened [stmt] stmt.regionTag)
    else ([], placed)

/-- Where a level begins or ends, a task with side effects is complete: it takes the statements up
to the next side effect or loop along. -/
def settle (bucket : Bucket) (upcoming : List Stmt) : List Task × Bucket :=
  match bucket with
  | opened statements tag =>
    ([serialTask (statements ++ upcoming.takeWhile Stmt.rides) tag], placed)
  | bucket => ([], bucket)

def finish (bucket : Bucket) : List Task :=
  match bucket with
  | waiting statements => serialTasks statements {}
  | opened statements tag => [serialTask statements tag]
  | placed => []

end Bucket

def tasksFrom : Bucket → List Stmt → List Task
  | bucket, [] => bucket.finish
  | bucket, stmt :: rest => (bucket.feed stmt).1 ++ tasksFrom (bucket.feed stmt).2 rest

def regroup : Nested Stmt → Bucket → List Stmt → Nested Task × Bucket
  | .done, bucket, upcoming =>
    (.emit (bucket.settle upcoming).1 .done, (bucket.settle upcoming).2)
  | .item stmt rest, bucket, upcoming =>
    (.emit (bucket.feed stmt).1 (regroup rest (bucket.feed stmt).2 upcoming).1,
      (regroup rest (bucket.feed stmt).2 upcoming).2)
  | .loop level body rest, bucket, upcoming =>
    let settled := bucket.settle (body.flatten ++ (rest.flatten ++ upcoming))
    let body' := regroup body settled.2 (rest.flatten ++ upcoming)
    let rest' := regroup rest body'.2 upcoming
    (.emit settled.1 (.loop level body'.1 rest'.1), rest'.2)

def Offloader.Collects (o : Offloader) (bucket : Bucket) : Prop :=
  match bucket with
  | .waiting statements => o.pendingSerialStatements = statements ∧ o.bucketHasSideEffect = false
  | .opened statements tag =>
    o.pendingSerialStatements = statements ∧ statements ≠ [] ∧ o.bucketHasSideEffect = true ∧
      o.bucketTag = tag
  | .placed => False

variable {o : Offloader}

theorem Offloader.Collects.assemble {bucket : Bucket} (h : o.Collects bucket)
    (tag : GraphRegionTag) : o.assembleSerialStatements tag =
      { rootBlock := o.rootBlock ++
          (match bucket with
            | .waiting statements => serialTasks statements tag
            | .opened statements tag => [serialTask statements tag]
            | .placed => []),
        pendingSerialStatements := [],
        bucketTag := if o.pendingSerialStatements = [] then o.bucketTag else {},
        bucketHasSideEffect := false } := by
  unfold assembleSerialStatements serialTasks
  cases bucket with
  | waiting statements =>
    obtain ⟨rfl, hside⟩ := h
    by_cases hempty : o.pendingSerialStatements = []
    · simp only [hempty, if_pos, append_nil]
      rw [← hempty, ← hside]
    · simp only [hempty, if_false, hside, Bool.false_eq_true]
      rfl
  | opened statements tag =>
    obtain ⟨rfl, hne, hside, rfl⟩ := h
    simp only [hne, if_false, hside, if_true]
    rfl
  | placed => exact h.elim

theorem Offloader.Collects.visit {bucket : Bucket} (h : o.Collects bucket)
    (stmt : Stmt) : (o.visit stmt).rootBlock = o.rootBlock ++ (bucket.feed stmt).1 ∧
      (o.visit stmt).Collects (bucket.feed stmt).2 := by
  unfold Offloader.visit
  cases hfor : stmt.isFor with
  | true =>
    simp only [if_true, h.assemble]
    cases bucket with
    | waiting statements =>
      simp only [Bucket.feed, hfor, if_true, Collects, and_self, and_true]
      rw [append_assoc]
    | opened statements tag =>
      simp only [Bucket.feed, hfor, if_true, Collects, and_self, and_true]
      rw [append_assoc]
      rfl
    | placed => exact h.elim
  | false =>
    unfold pushSerialStatement
    cases bucket with
    | waiting statements =>
      obtain ⟨hstatements, hside⟩ := h
      cases hsets : stmt.setsRegion with
      | true => simp [Bucket.feed, hfor, hsets, hside, hstatements, Collects]
      | false => simp [Bucket.feed, hfor, hsets, hside, hstatements, Collects]
    | opened statements tag =>
      obtain ⟨hstatements, hne, hside, htag⟩ := id h
      cases hsets : stmt.setsRegion with
      | false => simp [Bucket.feed, hfor, hsets, hside, hstatements, htag, Collects]
      | true =>
        cases hsame : stmt.regionTag.same tag with
        | true => simp [Bucket.feed, hfor, hsets, hside, hstatements, htag, hsame, Collects]
        | false =>
          simp [Bucket.feed, hfor, hsets, hside, htag, hsame, h.assemble, Collects]
    | placed => exact h.elim

theorem Offloader.Collects.foldl {bucket : Bucket} (h : o.Collects bucket)
    (rest : List Stmt) : ((rest.foldl Offloader.visit o).assembleSerialStatements {}).rootBlock =
      o.rootBlock ++ tasksFrom bucket rest := by
  induction rest generalizing o bucket with
  | nil =>
    rw [foldl_nil, h.assemble]
    cases bucket with
    | placed => exact h.elim
    | _ => rfl
  | cons stmt rest ih =>
    obtain ⟨hroot, hcollects⟩ := h.visit stmt
    rw [foldl_cons, ih hcollects, hroot, tasksFrom, append_assoc]

theorem offloader_run_eq (statements : List Stmt) :
    Offloader.run statements = tasksFrom (.waiting []) statements := by
  have h : Offloader.Collects {} (.waiting []) := ⟨rfl, rfl⟩
  exact h.foldl statements

section Flatten

/-- The statements that fill the serial task further do not stand behind a level boundary. -/
def Bucket.Closes (bucket : Bucket) (upcoming : List Stmt) : Prop :=
  ∀ statements tag, bucket = .opened statements tag →
    ∀ stmt ∈ (upcoming.dropWhile Stmt.rides).head?, stmt.setsRegion = true →
      stmt.regionTag.same tag = false

theorem tasksFrom_settle {bucket : Bucket} {upcoming : List Stmt} (h : bucket.Closes upcoming) :
    tasksFrom bucket upcoming =
      (bucket.settle upcoming).1 ++ tasksFrom (bucket.settle upcoming).2 upcoming := by
  cases bucket with
  | waiting statements => rfl
  | placed => rfl
  | opened statements tag =>
    replace h := h statements tag rfl
    rw [Bucket.settle, singleton_append]
    induction upcoming generalizing statements with
    | nil => simp [tasksFrom, Bucket.finish]
    | cons stmt rest ih =>
      cases hrides : stmt.rides with
      | true =>
        have hkind : stmt.isFor = false ∧ stmt.setsRegion = false := by
          simpa [Stmt.rides] using hrides
        rw [dropWhile_cons_of_pos hrides] at h
        have hrest := ih (statements ++ [stmt]) h
        simp only [tasksFrom, Bucket.feed, hkind, Bool.false_eq_true, if_false,
          Bool.false_and, nil_append, takeWhile_cons_of_pos hrides]
        rw [hrest, append_assoc, singleton_append]
      | false =>
        have hneg : ¬ stmt.rides = true := by
          rw [hrides]
          exact Bool.false_ne_true
        rw [takeWhile_cons_of_neg hneg]
        rw [dropWhile_cons_of_neg hneg] at h
        cases hfor : stmt.isFor with
        | true => simp [tasksFrom, Bucket.feed, hfor]
        | false =>
          have hsets : stmt.setsRegion = true := by
            simpa [Stmt.rides, hfor] using hrides
          have hsame := h stmt rfl hsets
          simp [tasksFrom, Bucket.feed, hfor, hsets, hsame]

variable {parent : ℤ}

def StmtsAt (p : Nested Stmt) (parent : ℤ) : Prop :=
  match p with
  | .done => True
  | .item stmt rest => (stmt.rides = false → stmt.level = parent) ∧ StmtsAt rest parent
  | .loop level body rest => StmtsAt body level ∧ StmtsAt rest parent

def LevelsActive : Nested Stmt → Prop
  | .done => True
  | .item _ rest => LevelsActive rest
  | .loop _ body rest =>
    (∃ stmt ∈ body.flatten, stmt.rides = false) ∧ LevelsActive body ∧ LevelsActive rest

variable {stmt : Stmt}

theorem level_of_mem_flatten {p : Nested Stmt} (h : StmtsAt p parent)
    (hstmt : stmt ∈ p.flatten) (hrides : stmt.rides = false) :
    stmt.level = parent ∨ ∃ level ∈ p.loops, stmt.level = level := by
  induction p generalizing parent with
  | done => cases hstmt
  | item stmt' rest ih =>
    rcases mem_cons.mp hstmt with rfl | hstmt
    · exact Or.inl (h.1 hrides)
    · exact ih h.2 hstmt
  | loop level body rest ihbody ihrest =>
    rcases mem_append.mp hstmt with hstmt | hstmt
    · rcases ihbody h.1 hstmt with hlevel | ⟨inner, hinner, hlevel⟩
      · exact Or.inr ⟨level, mem_append_left _ mem_cons_self, hlevel⟩
      · exact Or.inr ⟨inner, mem_append_left _ (mem_cons_of_mem _ hinner), hlevel⟩
    · rcases ihrest h.2 hstmt with hlevel | ⟨inner, hinner, hlevel⟩
      · exact Or.inl hlevel
      · exact Or.inr ⟨inner, mem_append_right _ hinner, hlevel⟩

theorem head_dropWhile {l : List Stmt}
    (hstmt : stmt ∈ (l.dropWhile Stmt.rides).head?) : stmt ∈ l ∧ stmt.rides = false := by
  constructor
  · exact (dropWhile_suffix _).subset (mem_of_mem_head? hstmt)
  · have hhead := List.head?_dropWhile_not Stmt.rides l
    rw [Option.mem_def.mp hstmt] at hhead
    simpa using hhead

theorem same_eq_false_of_level {tag other : GraphRegionTag}
    (h : tag.graphDoWhileLevelId ≠ other.graphDoWhileLevelId) : tag.same other = false := by
  simp [GraphRegionTag.same, h]

def Bucket.AtParent (bucket : Bucket) (parent : ℤ) : Prop :=
  ∀ statements tag, bucket = .opened statements tag → tag.graphDoWhileLevelId = parent

theorem Bucket.AtParent.closes {bucket : Bucket} (h : bucket.AtParent parent) {upcoming : List Stmt}
    (hupcoming : ∀ stmt ∈ (upcoming.dropWhile Stmt.rides).head?, stmt.level ≠ parent) :
    bucket.Closes upcoming := by
  intro statements tag hbucket stmt hstmt _
  apply same_eq_false_of_level
  rw [h statements tag hbucket]
  exact hupcoming stmt hstmt

theorem Bucket.AtParent.feed {bucket : Bucket} (h : bucket.AtParent parent)
    (hstmt : stmt.rides = false → stmt.level = parent) : (bucket.feed stmt).2.AtParent parent := by
  intro statements tag hbucket
  have hsets : stmt.setsRegion = true → stmt.level = parent := by
    intro hsets
    apply hstmt
    simp [Stmt.rides, hsets]
  unfold Bucket.feed at hbucket
  split at hbucket
  · split at hbucket
    · cases hbucket
    · split at hbucket
      · rename_i hsets'
        cases hbucket
        exact hsets hsets'
      · cases hbucket
  · split at hbucket
    · cases hbucket
    · split at hbucket
      · rename_i hsets'
        cases hbucket
        exact hsets (Bool.and_eq_true_iff.mp hsets').1
      · cases hbucket
        exact h _ _ rfl
  · split at hbucket
    · cases hbucket
    · split at hbucket
      · rename_i hsets'
        cases hbucket
        exact hsets hsets'
      · cases hbucket

theorem Bucket.settle_ne_opened (bucket : Bucket) (upcoming statements : List Stmt)
    (tag : GraphRegionTag) : (bucket.settle upcoming).2 ≠ .opened statements tag := by
  intro h
  cases bucket <;> cases h

theorem regroup_ne_opened (p : Nested Stmt) (bucket : Bucket) (upcoming statements : List Stmt)
    (tag : GraphRegionTag) : (regroup p bucket upcoming).2 ≠ .opened statements tag := by
  induction p generalizing bucket with
  | done => exact bucket.settle_ne_opened upcoming statements tag
  | item stmt rest ih => exact ih _
  | loop level body rest _ ih => exact ih _

theorem regroup_flatten {p : Nested Stmt} {bucket : Bucket} {upcoming : List Stmt}
    (hstmts : StmtsAt p parent) (hactive : LevelsActive p)
    (hnodup : p.loops.Nodup) (hparent : ∀ level ∈ p.loops, (level : ℤ) ≠ parent)
    (hupcoming : ∀ stmt ∈ upcoming, stmt.rides = false →
      stmt.level ≠ parent ∧ ∀ level ∈ p.loops, stmt.level ≠ level)
    (hbucket : bucket.AtParent parent) :
    (regroup p bucket upcoming).1.flatten ++ tasksFrom (regroup p bucket upcoming).2 upcoming =
      tasksFrom bucket (p.flatten ++ upcoming) := by
  induction p generalizing bucket upcoming parent with
  | done =>
    have hcloses : bucket.Closes upcoming := hbucket.closes fun stmt hstmt =>
      (hupcoming stmt (head_dropWhile hstmt).1 (head_dropWhile hstmt).2).1
    rw [regroup, Nested.flatten_emit, Nested.flatten, append_nil, Nested.flatten]
    exact (tasksFrom_settle hcloses).symm
  | item stmt rest ih =>
    rw [regroup, Nested.flatten_emit, append_assoc,
      ih hstmts.2 hactive hnodup hparent hupcoming (hbucket.feed hstmts.1), Nested.flatten,
      cons_append, tasksFrom]
  | loop level body rest ihbody ihrest =>
    obtain ⟨⟨active, hmem, hrides⟩, hactiveBody, hactiveRest⟩ := hactive
    have hnodup' : (level :: (body.loops ++ rest.loops)).Nodup := hnodup
    obtain ⟨hlevel, hnodup'⟩ := nodup_cons.mp hnodup'
    obtain ⟨hbody, hrest, hdisjoint⟩ := nodup_append.mp hnodup'
    have hmemLoops : ∀ l ∈ body.loops ++ rest.loops, l ∈ (Nested.loop level body rest).loops :=
      fun l hl => mem_cons_of_mem level hl
    -- what comes after the body stands neither in it nor in a loop of it
    have hafter : ∀ stmt ∈ rest.flatten ++ upcoming, stmt.rides = false →
        stmt.level ≠ level ∧ ∀ l ∈ body.loops, stmt.level ≠ l := by
      intro stmt hstmt hstmtRides
      rcases mem_append.mp hstmt with hstmt | hstmt
      · rcases level_of_mem_flatten hstmts.2 hstmt hstmtRides with heq | ⟨l, hl, heq⟩
        · rw [heq]
          exact ⟨(hparent level mem_cons_self).symm, fun l hl =>
            (hparent l (hmemLoops l (mem_append_left _ hl))).symm⟩
        · rw [heq]
          refine ⟨fun h => hlevel ?_, fun l' hl' h => hdisjoint l' hl' l hl ?_⟩
          · rw [← Int.ofNat.inj h]
            exact mem_append_right _ hl
          · exact (Int.ofNat.inj h).symm
      · have h := (hupcoming stmt hstmt hstmtRides).2
        exact ⟨h level mem_cons_self, fun l hl =>
          h l (hmemLoops l (mem_append_left _ hl))⟩
    have hfirst : bucket.Closes (body.flatten ++ (rest.flatten ++ upcoming)) := by
      apply hbucket.closes
      intro stmt hstmt
      have hhead : stmt ∈ body.flatten := by
        have hdrop : body.flatten.dropWhile Stmt.rides ≠ [] := by
          intro hnil
          have hall := dropWhile_eq_nil_iff.mp hnil active hmem
          rw [hrides] at hall
          cases hall
        rw [dropWhile_append, if_neg (by simpa using hdrop),
          List.head?_append_of_ne_nil _ hdrop] at hstmt
        exact (dropWhile_suffix _).subset (mem_of_mem_head? hstmt)
      have hnotRides := (head_dropWhile hstmt).2
      rcases level_of_mem_flatten hstmts.1 hhead hnotRides with heq | ⟨l, hl, heq⟩
      · rw [heq]
        exact hparent level mem_cons_self
      · rw [heq]
        exact hparent l (hmemLoops l (mem_append_left _ hl))
    have hbodyTasks := @ihbody level
      (bucket.settle (body.flatten ++ (rest.flatten ++ upcoming))).2 (rest.flatten ++ upcoming)
      hstmts.1 hactiveBody hbody
      (fun l hl h => hlevel (by rw [← Int.ofNat.inj h]; exact mem_append_left _ hl)) hafter
      (fun statements tag h => absurd h (bucket.settle_ne_opened _ _ _))
    have hrestTasks := @ihrest parent
      (regroup body (bucket.settle (body.flatten ++ (rest.flatten ++ upcoming))).2
        (rest.flatten ++ upcoming)).2 upcoming
      hstmts.2 hactiveRest hrest
      (fun l hl => hparent l (hmemLoops l (mem_append_right _ hl)))
      (fun stmt hstmt hstmtRides => ⟨(hupcoming stmt hstmt hstmtRides).1, fun l hl =>
        (hupcoming stmt hstmt hstmtRides).2 l (hmemLoops l (mem_append_right _ hl))⟩)
      (fun statements tag h => absurd h (regroup_ne_opened _ _ _ _ _))
    rw [regroup]
    simp only [Nested.flatten_emit, Nested.flatten]
    rw [append_assoc, append_assoc, hrestTasks, hbodyTasks, append_assoc]
    exact (tasksFrom_settle hfirst).symm

end Flatten

end Quadrants.Offload
