import Quadrants.Offload.RegroupRuns

namespace Quadrants.Offload

open Library.NestedLoops List

variable {Mem Val : Type} {m : Meaning Mem Val}

def heldAfter (held : Option (List Stmt)) (stmt : Stmt) : Option (List Stmt) :=
  if stmt.isFor then some []
  else if stmt.setsRegion then none
  else held.map (· ++ [stmt])

/-- The pure statements that the offloader moves over the beginning of a level: those that wait
for a loop move in, and those at its beginning move out into the task that is being collected. -/
def moved (held : Option (List Stmt)) (body : Nested Stmt) : List Stmt :=
  match held with
  | some statements => statements
  | none => body.flatten.takeWhile Stmt.rides

/-- What the statements of a level do to the memory does not change a value. -/
def Unchanged (m : Meaning Mem Val) (p : Stmt) (body : Nested Stmt) : Prop :=
  ∀ stmt ∈ body.flatten, stmt.isPure = false → ∀ mem args args',
    m.value p.id (m.effect stmt.id mem args) args' = m.value p.id mem args'

/-- No level changes a pure statement that is moved over its beginning. -/
def Steady (m : Meaning Mem Val) : Nested Stmt → Option (List Stmt) → Prop
  | .done, _ => True
  | .item stmt rest, held => Steady m rest (heldAfter held stmt)
  | .loop _ body rest, held =>
    (∀ p ∈ moved held body, Unchanged m p body) ∧ Steady m body held ∧
      Steady m rest (body.flatten.foldl heldAfter held)

theorem Bucket.held_feed (bucket : Bucket) (stmt : Stmt) :
    (bucket.feed stmt).2.held = heldAfter bucket.held stmt := by
  unfold Bucket.feed heldAfter
  cases bucket with
  | waiting statements => cases stmt.isFor <;> cases stmt.setsRegion <;> simp [held]
  | placed => cases stmt.isFor <;> cases stmt.setsRegion <;> simp [held]
  | opened statements tag =>
    cases stmt.isFor with
    | true => simp [held]
    | false =>
      simp only [Bool.false_eq_true, if_false]
      split
      · rename_i hnew
        rw [if_pos (Bool.and_eq_true_iff.mp hnew).1]
        rfl
      · cases stmt.setsRegion <;> rfl

theorem Bucket.held_settle (bucket : Bucket) (upcoming : List Stmt) :
    (bucket.settle upcoming).2.held = bucket.held := by
  cases bucket <;> rfl

theorem held_regroup (p : Nested Stmt) (bucket : Bucket) (upcoming : List Stmt) :
    (regroup p bucket upcoming).2.held = p.flatten.foldl heldAfter bucket.held := by
  induction p generalizing bucket upcoming with
  | done => exact bucket.held_settle upcoming
  | item stmt rest ih => exact (ih _ _).trans (by rw [bucket.held_feed stmt]; rfl)
  | loop level body rest ihbody ihrest =>
    have hrest := ihrest (regroup body (bucket.settle (body.flatten ++ (rest.flatten ++
      upcoming))).2 (rest.flatten ++ upcoming)).2 upcoming
    rw [ihbody, Bucket.held_settle, ← foldl_append] at hrest
    exact hrest

theorem takeWhile_append_of_exists {front : List Stmt} (back : List Stmt)
    (h : ∃ stmt ∈ front, stmt.rides = false) :
    (front ++ back).takeWhile Stmt.rides = front.takeWhile Stmt.rides := by
  induction front with
  | nil =>
    obtain ⟨stmt, hstmt, -⟩ := h
    cases hstmt
  | cons stmt front ih =>
    cases hrides : stmt.rides with
    | true =>
      have hrest : ∃ stmt ∈ front, stmt.rides = false := by
        obtain ⟨other, hother, hfalse⟩ := h
        rcases mem_cons.mp hother with rfl | hother
        · rw [hrides] at hfalse
          cases hfalse
        · exact ⟨other, hother, hfalse⟩
      rw [cons_append, takeWhile_cons_of_pos hrides, takeWhile_cons_of_pos hrides, ih hrest]
    | false =>
      have hneg : ¬ stmt.rides = true := by
        rw [hrides]
        exact Bool.false_ne_true
      rw [cons_append, takeWhile_cons_of_neg hneg, takeWhile_cons_of_neg hneg]

section Frames

variable {n : ℕ}

theorem runNested_vals {p : Nested Stmt} {s : State Mem Val} {id : ℕ} (h : id ∉ ids p.flatten) :
    (runNested m n p s).1.vals id = s.vals id := by
  refine Nested.run_keeps (I := fun s' : State Mem Val => s'.vals id = s.vals id) ?_ rfl
  intro stmt hstmt s' hs'
  have hne : id ≠ stmt.id := fun heq => h (heq ▸ mem_map_of_mem hstmt)
  exact (Stmt.exec_vals_of_ne hne s').trans hs'

theorem runNested_value {body : Nested Stmt} {p : Stmt} (h : Unchanged m p body)
    (s : State Mem Val) (args : List Val) :
    m.value p.id (runNested m n body s).1.mem args = m.value p.id s.mem args := by
  refine Nested.run_keeps
    (I := fun s' : State Mem Val => m.value p.id s'.mem args = m.value p.id s.mem args) ?_ rfl
  intro stmt hstmt s' hs'
  cases hpure : stmt.isPure with
  | true => rwa [(Stmt.exec_mem_of_pure hpure s').1]
  | false =>
    rw [← hs']
    simp only [Stmt.exec, hpure, Bool.false_eq_true, if_false]
    exact h stmt hstmt hpure _ _ _

def runTasks (m : Meaning Mem Val) (n : ℕ) (p : Nested Task) (s : State Mem Val) :
    State Mem Val × Bool :=
  p.run (fun task s => task.exec m s) m.again n s

theorem runTasks_emit (tasks : List Task) (p : Nested Task) (s : State Mem Val) :
    runTasks m n (.emit tasks p) s = runTasks m n p (execTasks m tasks s) :=
  Nested.run_emit tasks p s

theorem runTasks_loop (level : ℕ) (body rest : Nested Task) (s : State Mem Val) :
    runTasks m n (.loop level body rest) s =
      if (repeatWhile (runTasks m n body) (m.again level) n s).2 then
        runTasks m n rest (repeatWhile (runTasks m n body) (m.again level) n s).1
      else ((repeatWhile (runTasks m n body) (m.again level) n s).1, false) :=
  rfl

theorem runNested_loop (level : ℕ) (body rest : Nested Stmt) (s : State Mem Val) :
    runNested m n (.loop level body rest) s =
      if (repeatWhile (runNested m n body) (m.again level) n s).2 then
        runNested m n rest (repeatWhile (runNested m n body) (m.again level) n s).1
      else ((repeatWhile (runNested m n body) (m.again level) n s).1, false) :=
  rfl

theorem runTasks_vals {p : Nested Task} {s : State Mem Val} {id : ℕ}
    (h : ∀ task ∈ p.flatten, id ∉ ids task.statements) :
    (runTasks m n p s).1.vals id = s.vals id := by
  refine Nested.run_keeps (I := fun s' : State Mem Val => s'.vals id = s.vals id) ?_ rfl
  intro task htask s' hs'
  exact (execAll_vals_of_notMem (h task htask) s').trans hs'

end Frames

theorem Ordered.append_comm_left {front back : List Stmt} {stmt : Stmt}
    (h : Ordered (front ++ stmt :: back)) : Ordered (front ++ [stmt] ++ back) := by
  rwa [append_assoc]

variable {bucket : Bucket} {upcoming : List Stmt}

theorem Bucket.ordered_feed {stmt : Stmt} (h : Ordered (bucket.statements ++ stmt :: upcoming)) :
    Ordered ((bucket.feed stmt).2.statements ++ upcoming) := by
  have hright : Ordered (stmt :: upcoming) := h.right
  unfold Bucket.feed
  cases bucket with
  | waiting statements =>
    cases stmt.isFor with
    | true => exact hright.2.2
    | false => cases stmt.setsRegion <;> exact h.append_comm_left
  | opened statements tag =>
    cases stmt.isFor with
    | true => exact hright.2.2
    | false =>
      simp only [Bool.false_eq_true, if_false]
      split
      · exact hright
      · exact h.append_comm_left
  | placed =>
    cases stmt.isFor with
    | true => exact hright.2.2
    | false =>
      cases stmt.setsRegion with
      | true => exact hright
      | false => exact hright.2.2

theorem Bucket.ordered_settle (h : Ordered (bucket.statements ++ upcoming)) :
    Ordered ((bucket.settle upcoming).2.statements ++ upcoming) := by
  cases bucket with
  | waiting statements => exact h
  | opened statements tag => exact h.right
  | placed => exact h

theorem ordered_regroup {p : Nested Stmt}
    (h : Ordered (bucket.statements ++ (p.flatten ++ upcoming))) :
    Ordered ((regroup p bucket upcoming).2.statements ++ upcoming) := by
  induction p generalizing bucket upcoming with
  | done => exact Bucket.ordered_settle h
  | item stmt rest ih => exact ih (Bucket.ordered_feed h)
  | loop level body rest ihbody ihrest =>
    rw [Nested.flatten, append_assoc] at h
    exact ihrest (ihbody (Bucket.ordered_settle h))

theorem Bucket.Rel.back {body : Nested Stmt} {after : List Stmt}
    {s t s' t' : State Mem Val} (h : bucket.Rel m (body.flatten ++ after) s t)
    (hopened : ∀ statements tag, bucket ≠ .opened statements tag) (hwaits : bucket.WaitsPure)
    (hordered : Ordered (bucket.statements ++ (body.flatten ++ after)))
    (hpure : ∀ p ∈ body.flatten ++ after, p.rides = true → p.isPure = true)
    (hactive : ∃ stmt ∈ body.flatten, stmt.rides = false)
    (hsteady : ∀ p ∈ moved bucket.held body, ∀ args,
      m.value p.id s'.mem args = m.value p.id s.mem args)
    (hs : ∀ id ∉ ids body.flatten, s'.vals id = s.vals id)
    (ht : ∀ id ∉ ids (bucket.unplaced (body.flatten ++ after)), t'.vals id = t.vals id)
    (hmem : s'.mem = t'.mem) (hlog : s'.log = t'.log) :
    bucket.Rel m (body.flatten ++ after) s' t' := by
  have hsbody : ∀ id ∉ ids (body.flatten ++ after), s'.vals id = s.vals id := by
    intro id hid
    apply hs
    intro hmem'
    apply hid
    rw [ids, map_append]
    exact mem_append_left _ hmem'
  cases bucket with
  | opened statements tag => exact absurd rfl (hopened statements tag)
  | waiting statements =>
    have hstatements := hwaits statements rfl
    have hexec := execAll_mem_of_pure (m := m) hstatements t
    have hexec' := execAll_mem_of_pure (m := m) hstatements t'
    have hstart : AgreeOff (ids (body.flatten ++ after)) s (execAll m statements t) := h
    refine ⟨hmem.trans hexec'.1.symm, hlog.trans hexec'.2.symm, fun id hid => ?_⟩
    rw [hsbody id hid, hstart.vals id hid]
    refine execAll_vals_again hordered hstatements (fun id hid => (ht id hid).symm) ?_ id hid
    intro p hp args
    rw [← hmem, hsteady p hp args, hstart.mem, hexec.1]
  | placed =>
    have htake := takeWhile_append_of_exists after hactive
    have hlead : ∀ p ∈ (body.flatten ++ after).takeWhile Stmt.rides, p.isPure = true :=
      fun p hp => hpure p ((List.takeWhile_prefix _).subset hp) (mem_takeWhile_imp hp)
    have hstart : AgreeOff (ids ((body.flatten ++ after).dropWhile Stmt.rides))
      (execAll m ((body.flatten ++ after).takeWhile Stmt.rides) s) t := h
    have hexec := execAll_mem_of_pure (m := m) hlead s'
    refine ⟨hexec.1.trans hmem, hexec.2.trans hlog, fun id hid => ?_⟩
    rw [ht id hid, ← hstart.vals id hid]
    refine execAll_vals_again ?_ hlead ?_ ?_ id hid
    · rw [takeWhile_append_dropWhile]
      exact hordered
    · rw [takeWhile_append_dropWhile]
      exact hsbody
    · rw [htake]
      exact hsteady

theorem runTasks_regroup {n : ℕ} {p : Nested Stmt}
    {s t : State Mem Val} (hactive : LevelsActive p) (hsteady : Steady m p bucket.held)
    (hordered : Ordered (bucket.statements ++ (p.flatten ++ upcoming)))
    (hpure : ∀ stmt ∈ p.flatten ++ upcoming, stmt.rides = true → stmt.isPure = true)
    (hwaits : bucket.WaitsPure) (h : bucket.Rel m (p.flatten ++ upcoming) s t) :
    (runNested m n p s).2 = (runTasks m n (regroup p bucket upcoming).1 t).2 ∧
    ((runNested m n p s).2 = true →
      (regroup p bucket upcoming).2.Rel m upcoming (runNested m n p s).1
        (runTasks m n (regroup p bucket upcoming).1 t).1) ∧
    ((runNested m n p s).2 = false →
      (runNested m n p s).1.mem = (runTasks m n (regroup p bucket upcoming).1 t).1.mem ∧
      (runNested m n p s).1.log = (runTasks m n (regroup p bucket upcoming).1 t).1.log) := by
  induction p generalizing bucket upcoming s t with
  | done =>
    rw [regroup, runTasks_emit]
    exact ⟨rfl, fun _ => h.settle hordered.right, by rintro ⟨⟩⟩
  | item stmt rest ih =>
    rw [regroup, runTasks_emit]
    have hstmt : Ordered (stmt :: (rest.flatten ++ upcoming)) := hordered.right
    refine ih hactive ?_ (Bucket.ordered_feed hordered)
      (fun p hp => hpure p (mem_cons_of_mem _ hp))
      (hwaits.feed (hpure stmt mem_cons_self)) (h.feed hstmt.1)
    rw [bucket.held_feed]
    exact hsteady
  | loop level body rest ihbody ihrest =>
    obtain ⟨hexists, hactiveBody, hactiveRest⟩ := hactive
    obtain ⟨hmoved, hsteadyBody, hsteadyRest⟩ := hsteady
    have hflat : (Nested.loop level body rest).flatten ++ upcoming =
        body.flatten ++ (rest.flatten ++ upcoming) := by
      rw [Nested.flatten, append_assoc]
    rw [hflat] at hordered hpure h
    have hset := h.settle hordered.right
    have hopened := bucket.settle_ne_opened (body.flatten ++ (rest.flatten ++ upcoming))
    have hheld := bucket.held_settle (body.flatten ++ (rest.flatten ++ upcoming))
    have hwaits' := hwaits.settle (body.flatten ++ (rest.flatten ++ upcoming))
    have hordered' := Bucket.ordered_settle hordered
    rw [regroup]
    simp only [runTasks_emit]
    generalize bucket.settle (body.flatten ++ (rest.flatten ++ upcoming)) = settled at *
    have hpureRest : ∀ stmt ∈ rest.flatten ++ upcoming, stmt.rides = true → stmt.isPure = true :=
      fun p hp => hpure p (mem_append_right _ hp)
    have hpureBody : ∀ stmt ∈ body.flatten, stmt.rides = true → stmt.isPure = true :=
      fun p hp => hpure p (mem_append_left _ hp)
    have hwaitsBody := waitsPure_regroup hwaits' hpureBody (rest.flatten ++ upcoming)
    have hopenedBody := regroup_ne_opened body settled.2 (rest.flatten ++ upcoming)
    have hlevel := @repeatWhile_rel _ _ (runNested m n body)
      (runTasks m n (regroup body settled.2 (rest.flatten ++ upcoming)).1)
      (m.again level) (m.again level)
      (fun s' t' => settled.2.Rel m (body.flatten ++ (rest.flatten ++ upcoming)) s' t')
      (fun s' t' => (regroup body settled.2 (rest.flatten ++ upcoming)).2.Rel m
          (rest.flatten ++ upcoming) s' t' ∧
        settled.2.Rel m (body.flatten ++ (rest.flatten ++ upcoming)) s' t')
      (fun s' t' => s'.mem = t'.mem ∧ s'.log = t'.log) ?_ ?_ ?_ ?_ n s _ hset
    · obtain ⟨hflag, hdone, hcut⟩ := hlevel
      rw [runNested_loop, runTasks_loop, ← hflag]
      cases hfinished : (repeatWhile (runNested m n body) (m.again level) n s).2 with
      | false => exact ⟨rfl, by rintro ⟨⟩, fun _ => hcut hfinished⟩
      | true =>
        have hend := (hdone hfinished).1
        refine ihrest hactiveRest ?_ (ordered_regroup hordered') hpureRest hwaitsBody hend
        rw [held_regroup, hheld]
        exact hsteadyRest
    · exact fun s' t' hst => hst.mem_log hopened hwaits' hpure
    · intro s' t' hst
      have hbody := @ihbody settled.2 (rest.flatten ++ upcoming) s' t' hactiveBody
        (hheld ▸ hsteadyBody) hordered' hpure hwaits' hst
      refine ⟨hbody.1, fun hfinished => ⟨hbody.2.1 hfinished, ?_⟩, hbody.2.2⟩
      have hend := (hbody.2.1 hfinished).mem_log hopenedBody hwaitsBody hpureRest
      refine hst.back hopened hwaits' hordered' hpure hexists ?_ ?_ ?_ hend.1 hend.2
      · intro p hp args
        rw [hheld] at hp
        exact runNested_value (hmoved p hp) s' args
      · exact fun id hid => runNested_vals hid
      · intro id hid
        refine runTasks_vals fun task htask hmem => hid ?_
        obtain ⟨p, hp, rfl⟩ := mem_map.mp hmem
        exact mem_map_of_mem (statements_regroup htask hp)
    · intro s' t' hst
      rw [Meaning.again, Meaning.again, (hst.2.mem_log hopened hwaits' hpure).1]
    · exact fun s' t' hst => hst.2

end Quadrants.Offload
