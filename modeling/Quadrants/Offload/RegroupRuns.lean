import Quadrants.Offload.Regroup

namespace Quadrants.Offload

open Library.NestedLoops List

variable {Mem Val : Type} {m : Meaning Mem Val}

def ids (statements : List Stmt) : List ℕ :=
  statements.map Stmt.id

variable {bucket : Bucket} {id : ℕ} {p : Nested Stmt} {rest : List Stmt} {s t : State Mem Val}
variable {stmt : Stmt}

theorem notMem_ids_cons : id ∉ ids (stmt :: rest) ↔ id ≠ stmt.id ∧ id ∉ ids rest := by
  simp [ids]

/-- No statement reads itself or a later one, and no two have the same number. -/
def Ordered : List Stmt → Prop
  | [] => True
  | stmt :: rest =>
    (∀ operand ∈ stmt.operands, operand ∉ ids (stmt :: rest)) ∧ stmt.id ∉ ids rest ∧ Ordered rest

theorem Ordered.right {front back : List Stmt} (h : Ordered (front ++ back)) : Ordered back := by
  induction front with
  | nil => exact h
  | cons stmt front ih => exact ih h.2.2

structure AgreeOff (except : List ℕ) (s t : State Mem Val) : Prop where
  mem : s.mem = t.mem
  log : s.log = t.log
  vals : ∀ id ∉ except, s.vals id = t.vals id

theorem Stmt.exec_vals_of_ne (h : id ≠ stmt.id) (s : State Mem Val) :
    (stmt.exec m s).vals id = s.vals id := by
  simp [exec, h]

theorem Stmt.exec_mem_of_pure (h : stmt.isPure = true) (s : State Mem Val) :
    (stmt.exec m s).mem = s.mem ∧ (stmt.exec m s).log = s.log := by
  simp [exec, h]

theorem execAll_append (front back : List Stmt) (s : State Mem Val) :
    execAll m (front ++ back) s = execAll m back (execAll m front s) :=
  foldl_append

theorem execAll_vals_of_notMem {statements : List Stmt} (h : id ∉ ids statements)
    (s : State Mem Val) : (execAll m statements s).vals id = s.vals id := by
  induction statements generalizing s with
  | nil => rfl
  | cons stmt rest ih =>
    obtain ⟨hne, hrest⟩ := notMem_ids_cons.mp h
    exact (ih hrest _).trans (Stmt.exec_vals_of_ne hne s)

theorem execAll_mem_of_pure {statements : List Stmt} (h : ∀ stmt ∈ statements, stmt.isPure = true)
    (s : State Mem Val) :
    (execAll m statements s).mem = s.mem ∧ (execAll m statements s).log = s.log := by
  induction statements generalizing s with
  | nil => exact ⟨rfl, rfl⟩
  | cons stmt rest ih =>
    obtain ⟨hmem, hlog⟩ := ih (fun p hp => h p (mem_cons_of_mem _ hp)) (stmt.exec m s)
    obtain ⟨hmem', hlog'⟩ := Stmt.exec_mem_of_pure (m := m) (h stmt mem_cons_self) s
    exact ⟨hmem.trans hmem', hlog.trans hlog'⟩

theorem AgreeOff.args {except : List ℕ} (h : ∀ id ∉ except, s.vals id = t.vals id)
    (hoperands : ∀ operand ∈ stmt.operands, operand ∉ except) :
    stmt.operands.map s.vals = stmt.operands.map t.vals :=
  map_congr_left fun operand hoperand => h operand (hoperands operand hoperand)

theorem AgreeOff.exec (h : AgreeOff (ids (stmt :: rest)) s t)
    (hoperands : ∀ operand ∈ stmt.operands, operand ∉ ids (stmt :: rest)) :
    AgreeOff (ids rest) (stmt.exec m s) (stmt.exec m t) := by
  have hargs := AgreeOff.args h.vals hoperands
  constructor
  · simp only [Stmt.exec, hargs, h.mem]
  · simp only [Stmt.exec, hargs, h.log]
  · intro id hid
    simp only [Stmt.exec, hargs, h.mem]
    split
    · rfl
    · rename_i hne
      exact h.vals id (notMem_ids_cons.mpr ⟨hne, hid⟩)

theorem AgreeOff.execAll {front back : List Stmt}
    (h : AgreeOff (ids (front ++ back)) s t) (hordered : Ordered (front ++ back)) :
    AgreeOff (ids back) (execAll m front s) (execAll m front t) := by
  induction front generalizing s t with
  | nil => exact h
  | cons stmt front ih => exact ih (h.exec hordered.1) hordered.2.2

theorem execAll_vals_again {carried : List Stmt}
    (hordered : Ordered (carried ++ rest)) (hpure : ∀ p ∈ carried, p.isPure = true)
    (hvals : ∀ id ∉ ids (carried ++ rest), s.vals id = t.vals id)
    (hmem : ∀ p ∈ carried, ∀ args, m.value p.id s.mem args = m.value p.id t.mem args) :
    ∀ id ∉ ids rest, (execAll m carried s).vals id = (execAll m carried t).vals id := by
  induction carried generalizing s t with
  | nil => exact hvals
  | cons stmt carried ih =>
    have hargs := AgreeOff.args hvals hordered.1
    have hstmt := hpure stmt mem_cons_self
    refine ih hordered.2.2 (fun p hp => hpure p (mem_cons_of_mem _ hp)) ?_ ?_
    · intro id hid
      by_cases heq : id = stmt.id
      · simp only [Stmt.exec, if_pos heq, hargs]
        exact hmem stmt mem_cons_self _
      · rw [Stmt.exec_vals_of_ne heq, Stmt.exec_vals_of_ne heq]
        exact hvals id (notMem_ids_cons.mpr ⟨heq, hid⟩)
    · intro p hp args
      rw [(Stmt.exec_mem_of_pure hstmt s).1, (Stmt.exec_mem_of_pure hstmt t).1]
      exact hmem p (mem_cons_of_mem _ hp) args

def execTasks (m : Meaning Mem Val) (tasks : List Task) (s : State Mem Val) : State Mem Val :=
  tasks.foldl (fun s task => task.exec m s) s

theorem execTasks_append (front back : List Task) (s : State Mem Val) :
    execTasks m (front ++ back) s = execTasks m back (execTasks m front s) :=
  foldl_append

theorem execTasks_serialTasks (statements : List Stmt) (tag : GraphRegionTag)
    (s : State Mem Val) : execTasks m (serialTasks statements tag) s = execAll m statements s := by
  unfold serialTasks
  split
  · rename_i hempty
    rw [hempty]
    rfl
  · rfl

theorem execTasks_of_no_statements (tasks : List Task) (h : ∀ task ∈ tasks, task.statements = [])
    (s : State Mem Val) : execTasks m tasks s = s := by
  induction tasks generalizing s with
  | nil => rfl
  | cons task tasks ih =>
    have hexec : task.exec m s = s := by
      rw [Task.exec, h task mem_cons_self]
      rfl
    change execTasks m tasks (task.exec m s) = s
    rw [hexec]
    exact ih (fun t ht => h t (mem_cons_of_mem _ ht)) s

theorem listTasks_spec {level : ℤ} {path : List SNode} {isBitVectorized demotable : Bool}
    {task : Task} (htask : task ∈ listTasks level path isBitVectorized demotable) :
    task.statements = [] ∧ task.graphDoWhileLevelId = level := by
  unfold listTasks at htask
  split at htask
  · cases htask
  · obtain ⟨snode, -, htask⟩ := mem_flatMap.mp htask
    split at htask
    · cases htask
    · rcases mem_cons.mp htask with rfl | htask
      · exact ⟨rfl, rfl⟩
      · rw [mem_singleton.mp htask]
        exact ⟨rfl, rfl⟩

theorem execTasks_forTasks (hfor : stmt.isFor = true) (s : State Mem Val) :
    execTasks m (forTasks stmt) s = stmt.exec m s := by
  unfold Stmt.isFor at hfor
  unfold forTasks
  split at hfor
  · rfl
  · rename_i tag path isBitVectorized demotable _ _
    have hlists := execTasks_of_no_statements (m := m)
      (listTasks tag.graphDoWhileLevelId path isBitVectorized demotable)
      (fun task htask => (listTasks_spec htask).1) s
    simp only [emitStructFor]
    rw [execTasks_append, hlists]
    rfl
  · rfl
  · cases hfor

namespace Bucket

/-- How the state of the tasks stands to the state of the program while a bucket is collected. -/
def Rel (m : Meaning Mem Val) (bucket : Bucket) (upcoming : List Stmt) (s t : State Mem Val) :
    Prop :=
  match bucket with
  | waiting statements | opened statements _ => AgreeOff (ids upcoming) s (execAll m statements t)
  | placed =>
    AgreeOff (ids (upcoming.dropWhile Stmt.rides))
      (execAll m (upcoming.takeWhile Stmt.rides) s) t

def statements : Bucket → List Stmt
  | waiting statements | opened statements _ => statements
  | placed => []

def unplaced (bucket : Bucket) (upcoming : List Stmt) : List Stmt :=
  match bucket with
  | waiting statements | opened statements _ => statements ++ upcoming
  | placed => upcoming.dropWhile Stmt.rides

def held : Bucket → Option (List Stmt)
  | waiting statements => some statements
  | _ => none

def WaitsPure (bucket : Bucket) : Prop :=
  ∀ statements, bucket = waiting statements → ∀ p ∈ statements, p.isPure = true

variable {bucket : Bucket} {stmt : Stmt} {upcoming : List Stmt} {s t : State Mem Val}

theorem Rel.feed (h : bucket.Rel m (stmt :: upcoming) s t)
    (hoperands : ∀ operand ∈ stmt.operands, operand ∉ ids (stmt :: upcoming)) :
    (bucket.feed stmt).2.Rel m upcoming (stmt.exec m s) (execTasks m (bucket.feed stmt).1 t) := by
  cases bucket with
  | waiting statements =>
    have hexec := AgreeOff.exec (m := m) h hoperands
    unfold Bucket.feed
    cases hfor : stmt.isFor with
    | true =>
      simp only [if_true]
      rw [execTasks_append, execTasks_serialTasks, execTasks_forTasks hfor]
      exact hexec
    | false =>
      cases stmt.setsRegion with
      | true =>
        change AgreeOff _ _ (Offload.execAll m (statements ++ [stmt]) t)
        rw [execAll_append]
        exact hexec
      | false =>
        change AgreeOff _ _ (Offload.execAll m (statements ++ [stmt]) t)
        rw [execAll_append]
        exact hexec
  | opened statements tag =>
    have hexec := AgreeOff.exec (m := m) h hoperands
    unfold Bucket.feed
    cases hfor : stmt.isFor with
    | true =>
      simp only [if_true]
      rw [← singleton_append, execTasks_append, execTasks_forTasks hfor]
      exact hexec
    | false =>
      cases hnew : (stmt.setsRegion && !stmt.regionTag.same tag) with
      | true =>
        simp only [hnew, Bool.false_eq_true, if_false, if_true]
        exact hexec
      | false =>
        simp only [hnew, Bool.false_eq_true, if_false]
        change AgreeOff _ _ (Offload.execAll m (statements ++ [stmt]) t)
        rw [execAll_append]
        exact hexec
  | placed =>
    unfold Bucket.feed
    cases hrides : stmt.rides with
    | true =>
      have hkind : stmt.isFor = false ∧ stmt.setsRegion = false := by
        simpa [Stmt.rides] using hrides
      simp only [hkind, Bool.false_eq_true, if_false]
      unfold Rel at h
      simp only [dropWhile_cons_of_pos hrides, takeWhile_cons_of_pos hrides] at h
      exact h
    | false =>
      have hneg : ¬ stmt.rides = true := by
        rw [hrides]
        exact Bool.false_ne_true
      unfold Rel at h
      simp only [dropWhile_cons_of_neg hneg, takeWhile_cons_of_neg hneg] at h
      have hexec := AgreeOff.exec (m := m) h hoperands
      cases hfor : stmt.isFor with
      | true =>
        simp only [if_true]
        rw [execTasks_forTasks hfor]
        exact hexec
      | false =>
        have hsets : stmt.setsRegion = true := by
          simpa [Stmt.rides, hfor] using hrides
        simp only [hsets, Bool.false_eq_true, if_false, if_true]
        exact hexec

theorem Rel.settle (h : bucket.Rel m upcoming s t) (hordered : Ordered upcoming) :
    (bucket.settle upcoming).2.Rel m upcoming s (execTasks m (bucket.settle upcoming).1 t) := by
  cases bucket with
  | waiting statements => exact h
  | placed => exact h
  | opened statements tag =>
    change AgreeOff _ _ (Offload.execAll m (statements ++ upcoming.takeWhile Stmt.rides) t)
    rw [execAll_append]
    have hsplit : upcoming.takeWhile Stmt.rides ++ upcoming.dropWhile Stmt.rides = upcoming :=
      takeWhile_append_dropWhile
    have h' : AgreeOff (ids upcoming) s (Offload.execAll m statements t) := h
    rw [← hsplit] at h' hordered
    exact h'.execAll hordered

theorem Rel.mem_log (h : bucket.Rel m upcoming s t)
    (hopened : ∀ statements tag, bucket ≠ .opened statements tag) (hwaits : bucket.WaitsPure)
    (hupcoming : ∀ p ∈ upcoming, p.rides = true → p.isPure = true) :
    s.mem = t.mem ∧ s.log = t.log := by
  cases bucket with
  | opened statements tag => exact absurd rfl (hopened statements tag)
  | waiting statements =>
    have hpure := execAll_mem_of_pure (m := m) (hwaits statements rfl) t
    exact ⟨h.mem.trans hpure.1, h.log.trans hpure.2⟩
  | placed =>
    have hlead : ∀ p ∈ upcoming.takeWhile Stmt.rides, p.isPure = true := fun p hp =>
      hupcoming p ((List.takeWhile_prefix _).subset hp) (mem_takeWhile_imp hp)
    have hpure := execAll_mem_of_pure (m := m) hlead s
    exact ⟨hpure.1.symm.trans h.mem, hpure.2.symm.trans h.log⟩

theorem WaitsPure.feed (h : bucket.WaitsPure) (hstmt : stmt.rides = true → stmt.isPure = true) :
    (bucket.feed stmt).2.WaitsPure := by
  have hpure : stmt.isFor = false → stmt.setsRegion = false → stmt.isPure = true := by
    intro hfor hsets
    apply hstmt
    simp [Stmt.rides, hfor, hsets]
  intro statements hbucket
  unfold Bucket.feed at hbucket
  cases bucket with
  | waiting before =>
    cases hfor : stmt.isFor with
    | true =>
      simp only [hfor, if_true, waiting.injEq] at hbucket
      subst hbucket
      rintro p ⟨⟩
    | false =>
      cases hsets : stmt.setsRegion with
      | true => simp [hfor, hsets] at hbucket
      | false =>
        simp only [hfor, hsets, Bool.false_eq_true, if_false, waiting.injEq] at hbucket
        subst hbucket
        intro p hp
        rcases mem_append.mp hp with hp | hp
        · exact h before rfl p hp
        · rw [mem_singleton.mp hp]
          exact hpure hfor hsets
  | opened before tag =>
    cases hfor : stmt.isFor with
    | true =>
      simp only [hfor, if_true, waiting.injEq] at hbucket
      subst hbucket
      rintro p ⟨⟩
    | false =>
      simp only [hfor, Bool.false_eq_true, if_false] at hbucket
      split at hbucket <;> cases hbucket
  | placed =>
    cases hfor : stmt.isFor with
    | true =>
      simp only [hfor, if_true, waiting.injEq] at hbucket
      subst hbucket
      rintro p ⟨⟩
    | false =>
      simp only [hfor, Bool.false_eq_true, if_false] at hbucket
      split at hbucket <;> cases hbucket

theorem WaitsPure.settle (h : bucket.WaitsPure) (upcoming : List Stmt) :
    (bucket.settle upcoming).2.WaitsPure := by
  cases bucket with
  | waiting statements => exact h
  | opened statements tag => exact fun _ hbucket => nomatch hbucket
  | placed => exact h

theorem unplaced_feed : (bucket.feed stmt).2.unplaced upcoming ⊆
    bucket.unplaced (stmt :: upcoming) := by
  unfold Bucket.feed
  cases bucket with
  | waiting statements =>
    cases stmt.isFor <;> cases stmt.setsRegion <;> simp [unplaced]
  | opened statements tag =>
    cases stmt.isFor with
    | true => simp [unplaced]
    | false =>
      cases hnew : (stmt.setsRegion && !stmt.regionTag.same tag) with
      | true => simp only [hnew, unplaced]; simp
      | false => simp only [hnew, unplaced]; simp
  | placed =>
    cases hrides : stmt.rides with
    | true =>
      have hkind : stmt.isFor = false ∧ stmt.setsRegion = false := by
        simpa [Stmt.rides] using hrides
      simp [hkind, unplaced, dropWhile_cons_of_pos hrides]
    | false =>
      have hneg : ¬ stmt.rides = true := by
        rw [hrides]
        exact Bool.false_ne_true
      cases hfor : stmt.isFor with
      | true => simp [unplaced, dropWhile_cons_of_neg hneg]
      | false =>
        have hsets : stmt.setsRegion = true := by
          simpa [Stmt.rides, hfor] using hrides
        simp [hsets, unplaced, dropWhile_cons_of_neg hneg]

theorem unplaced_settle : (bucket.settle upcoming).2.unplaced upcoming ⊆
    bucket.unplaced upcoming := by
  cases bucket with
  | waiting statements => exact List.Subset.refl _
  | placed => exact List.Subset.refl _
  | opened statements tag =>
    intro p hp
    exact mem_append_right _ ((dropWhile_suffix _).subset hp)

variable {task : Task}

theorem statements_forTasks (htask : task ∈ forTasks stmt) : ∀ p ∈ task.statements, p = stmt := by
  unfold forTasks at htask
  intro p hp
  split at htask
  · rw [mem_singleton.mp htask] at hp
    exact mem_singleton.mp hp
  · rcases mem_append.mp htask with htask | htask
    · rw [(listTasks_spec htask).1] at hp
      cases hp
    · rw [mem_singleton.mp htask] at hp
      exact mem_singleton.mp hp
  · rw [mem_singleton.mp htask] at hp
    exact mem_singleton.mp hp
  · cases htask

theorem statements_serialTasks {statements : List Stmt} {tag : GraphRegionTag}
    (htask : task ∈ serialTasks statements tag) : task.statements = statements := by
  unfold serialTasks at htask
  split at htask
  · cases htask
  · rw [mem_singleton.mp htask]
    rfl

theorem statements_feed (htask : task ∈ (bucket.feed stmt).1) :
    task.statements ⊆ bucket.unplaced (stmt :: upcoming) := by
  intro p hp
  cases bucket with
  | waiting statements =>
    simp only [Bucket.feed] at htask
    split at htask
    · rcases mem_append.mp htask with htask | htask
      · rw [statements_serialTasks htask] at hp
        exact mem_append_left _ hp
      · rw [statements_forTasks htask p hp]
        exact mem_append_right _ mem_cons_self
    · split at htask <;> cases htask
  | opened statements tag =>
    simp only [Bucket.feed] at htask
    split at htask
    · rcases mem_cons.mp htask with rfl | htask
      · exact mem_append_left _ hp
      · rw [statements_forTasks htask p hp]
        exact mem_append_right _ mem_cons_self
    · split at htask
      · rw [mem_singleton.mp htask] at hp
        exact mem_append_left _ hp
      · cases htask
  | placed =>
    simp only [Bucket.feed] at htask
    split at htask
    · rename_i hfor
      have hneg : ¬ stmt.rides = true := by simp [Stmt.rides, hfor]
      rw [statements_forTasks htask p hp, unplaced, dropWhile_cons_of_neg hneg]
      exact mem_cons_self
    · split at htask <;> cases htask

theorem statements_settle (htask : task ∈ (bucket.settle upcoming).1) :
    task.statements ⊆ bucket.unplaced upcoming := by
  cases bucket with
  | waiting statements => cases htask
  | placed => cases htask
  | opened statements tag =>
    rw [mem_singleton.mp htask]
    intro p hp
    rcases mem_append.mp hp with hp | hp
    · exact mem_append_left _ hp
    · exact mem_append_right _ ((List.takeWhile_prefix _).subset hp)

end Bucket

theorem unplaced_regroup {upcoming : List Stmt} :
    (regroup p bucket upcoming).2.unplaced upcoming ⊆ bucket.unplaced (p.flatten ++ upcoming) := by
  induction p generalizing bucket upcoming with
  | done => exact Bucket.unplaced_settle
  | item stmt rest ih => exact List.Subset.trans ih Bucket.unplaced_feed
  | loop level body rest ihbody ihrest =>
    rw [Nested.flatten, append_assoc]
    exact List.Subset.trans ihrest (List.Subset.trans ihbody Bucket.unplaced_settle)

theorem statements_regroup {upcoming : List Stmt} {task : Task}
    (htask : task ∈ (regroup p bucket upcoming).1.flatten) :
    task.statements ⊆ bucket.unplaced (p.flatten ++ upcoming) := by
  induction p generalizing bucket upcoming with
  | done =>
    rw [regroup, Nested.flatten_emit, Nested.flatten, append_nil] at htask
    exact Bucket.statements_settle htask
  | item stmt rest ih =>
    rw [regroup, Nested.flatten_emit] at htask
    rcases mem_append.mp htask with htask | htask
    · exact Bucket.statements_feed htask
    · exact List.Subset.trans (ih htask) Bucket.unplaced_feed
  | loop level body rest ihbody ihrest =>
    rw [regroup] at htask
    simp only [Nested.flatten_emit, Nested.flatten] at htask
    rw [Nested.flatten, append_assoc]
    rcases mem_append.mp htask with htask | htask
    · exact Bucket.statements_settle htask
    · rcases mem_append.mp htask with htask | htask
      · exact List.Subset.trans (ihbody htask) Bucket.unplaced_settle
      · exact List.Subset.trans (ihrest htask)
          (List.Subset.trans unplaced_regroup Bucket.unplaced_settle)

theorem waitsPure_regroup (h : bucket.WaitsPure)
    (hpure : ∀ stmt ∈ p.flatten, stmt.rides = true → stmt.isPure = true) (upcoming : List Stmt) :
    (regroup p bucket upcoming).2.WaitsPure := by
  induction p generalizing bucket upcoming with
  | done => exact h.settle upcoming
  | item stmt rest ih =>
    exact ih (h.feed (hpure stmt mem_cons_self))
      (fun p hp => hpure p (mem_cons_of_mem _ hp)) upcoming
  | loop level body rest ihbody ihrest =>
    exact ihrest (ihbody (h.settle _) (fun p hp => hpure p (mem_append_left _ hp)) _)
      (fun p hp => hpure p (mem_append_right _ hp)) upcoming

end Quadrants.Offload
