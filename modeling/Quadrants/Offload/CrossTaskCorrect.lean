import Mathlib.Data.List.Nodup
import Quadrants.Offload.LinkedRuns

/-!
In a well-formed kernel every statement finds its operands, in its own task or from an earlier one.
-/

namespace Quadrants.CrossTask

open Library.StructuredRuns

variable {block : Block} {defs : Defs} {id : ℕ} {stmt : Stmt Instr ℕ}

theorem mem_idsOf_append {rest : Block} :
    id ∈ idsOf (block ++ rest) ↔ id ∈ idsOf block ∨ id ∈ idsOf rest := by
  simp only [idsOf, blockLeaves_append, blockLoops_append, List.map_append, List.mem_append]
  tauto

theorem idsOf_append_perm (block rest : Block) :
    (idsOf (block ++ rest)).Perm (idsOf block ++ idsOf rest) := by
  simp only [idsOf, blockLeaves_append, blockLoops_append, List.map_append, List.append_assoc]
  exact (List.perm_append_comm_assoc _ _ _).append_left _

theorem not_mem_idsOf_of_nodup {rest : Block} (h : (idsOf (block ++ rest)).Nodup)
    (hid : id ∈ idsOf block) : id ∉ idsOf rest := by
  have hdisjoint := (List.nodup_append.1 ((idsOf_append_perm block rest).nodup_iff.1 h)).2.2
  exact fun hrest => hdisjoint id hid id hrest rfl

theorem mem_blockLeaves (h : stmt ∈ block) {instr : Instr}
    (hinstr : instr ∈ stmt.leaves) : instr ∈ blockLeaves block := by
  obtain ⟨front, back, rfl⟩ := List.append_of_mem h
  rw [blockLeaves_append, blockLeaves]
  simp [hinstr]

theorem mem_idsOf_of_leaf (h : stmt ∈ block) {instr : Instr}
    (hinstr : instr ∈ stmt.leaves) : instr.id ∈ idsOf block :=
  List.mem_append_left _ (List.mem_map_of_mem (mem_blockLeaves h hinstr))

theorem mem_idsOf_of_loop (h : stmt ∈ block) (hid : id ∈ stmt.loops) : id ∈ idsOf block := by
  obtain ⟨front, back, rfl⟩ := List.append_of_mem h
  refine List.mem_append_right _ ?_
  rw [blockLoops_append, blockLoops]
  simp [hid]

theorem mem_usesOf (h : stmt ∈ block) (hid : id ∈ usesOf [stmt]) : id ∈ usesOf block := by
  obtain ⟨front, back, rfl⟩ := List.append_of_mem h
  simp only [usesOf, blockLeaves_append, blockTests_append, blockLeaves, blockTests,
    List.flatMap_append, List.mem_append, List.append_nil] at hid ⊢
  tauto

theorem addDefs_append (block rest : Block) : ∀ defs,
    addDefs defs (block ++ rest) = addDefs (addDefs defs block) rest := by
  induction block with
  | nil => exact fun defs => rfl
  | cons stmt block ih => cases stmt <;> exact fun defs => ih _

theorem mem_addDefs {instr : Instr} : ∀ {defs : Defs},
    instr ∈ addDefs defs block ↔ .leaf instr ∈ block ∨ instr ∈ defs := by
  induction block with
  | nil => simp [addDefs]
  | cons stmt block ih =>
    intro defs
    cases stmt with
    | leaf other =>
      rw [addDefs, ih, List.mem_cons, List.mem_cons, Stmt.leaf.injEq]
      tauto
    | branch | loop | forever => simp [addDefs, ih]

theorem addDefs_sublist (block : Block) : ∀ defs,
    List.Sublist (addDefs defs block) ((blockLeaves block).reverse ++ defs) := by
  induction block with
  | nil => exact fun defs => List.Sublist.refl _
  | cons stmt block ih =>
    intro defs
    rw [blockLeaves, List.reverse_append, List.append_assoc]
    cases stmt with
    | leaf instr => simpa [addDefs, Stmt.leaves] using ih (instr :: defs)
    | branch | loop | forever =>
      exact (ih defs).trans (List.Sublist.append_left (List.sublist_append_right _ _) _)

theorem isScoped_append (block rest : Block) : ∀ defs,
    isScoped defs (block ++ rest) =
      (isScoped defs block && isScoped (addDefs defs block) rest) := by
  induction block with
  | nil => intro defs; simp [isScoped, addDefs]
  | cons stmt block ih =>
    intro defs
    have hdefs : addDefs defs (stmt :: block) = addDefs (addDefs defs [stmt]) block :=
      addDefs_append [stmt] block defs
    simp [isScoped, ih, hdefs, Bool.and_assoc]

theorem lookup_of_mem (hnodup : (defs.map Instr.id).Nodup) {instr : Instr}
    (h : instr ∈ defs) : lookup defs instr.id = some instr := by
  induction defs with
  | nil => cases h
  | cons other defs ih =>
    rw [List.map_cons, List.nodup_cons] at hnodup
    rcases List.mem_cons.1 h with rfl | h
    · exact lookup_cons_self _ _
    · have hne : other.id ≠ instr.id := fun heq => hnodup.1 (heq ▸ List.mem_map_of_mem h)
      rw [lookup_cons_of_ne hne]
      exact ih hnodup.2 h

theorem operands_of_isOrdered {front back : Defs} {instr : Instr}
    (h : isOrdered (front ++ instr :: back) = true) :
    ∀ id ∈ instr.operands, id ∈ back.map Instr.id := by
  induction front with
  | nil =>
    intro id hid
    have hall := (Bool.and_eq_true_iff.1 h).1
    exact of_decide_eq_true (List.all_eq_true.1 hall id hid)
  | cons other front ih => exact ih (Bool.and_eq_true_iff.1 h).2

theorem Closed.of_isOrdered (h : isOrdered defs = true) : Closed defs := by
  intro instr hinstr id hid
  obtain ⟨front, back, rfl⟩ := List.append_of_mem hinstr
  have hback := operands_of_isOrdered h id hid
  rw [List.map_append]
  exact List.mem_append_right _ (List.mem_cons_of_mem _ hback)

theorem squash_mem (h : isOrdered defs = true) :
    ∀ {id : ℕ}, id ∈ defs.map Instr.id → squash defs id ∈ defs.map Instr.id := by
  induction defs with
  | nil => exact fun hid => hid
  | cons instr defs ih =>
    intro id hid
    have hops := @operands_of_isOrdered [] defs instr h
    have ih := @ih (Bool.and_eq_true_iff.1 h).2
    unfold squash
    split
    · split
      · rename_i origin rest _ hoperands
        refine List.mem_cons_of_mem _ (ih (hops origin ?_))
        rw [hoperands]
        exact List.mem_cons_self ..
      · exact hid
    · rename_i hne
      refine List.mem_cons_of_mem _ (ih ?_)
      rcases List.mem_cons.1 hid with heq | hmem
      · exact absurd heq.symm hne
      · exact hmem

theorem squash_append {front : Defs} (h : id ∉ front.map Instr.id) (back : Defs) :
    squash (front ++ back) id = squash back id := by
  induction front with
  | nil => rfl
  | cons instr front ih =>
    rw [List.map_cons, List.mem_cons, not_or] at h
    rw [List.cons_append, squash, if_neg fun heq => h.1 heq.symm, ih h.2]

theorem OwnerKnown.of_table {table : Defs} (hnodup : (table.map Instr.id).Nodup)
    (hordered : isOrdered table = true) {instr : Instr} (h : instr ∈ table) :
    OwnerKnown table instr := by
  have hcode : codeOf table instr.id = some instr.code := by
    rw [codeOf, lookup_of_mem hnodup h]
    rfl
  obtain ⟨front, back, rfl⟩ := List.append_of_mem h
  have hops := operands_of_isOrdered hordered
  rw [List.map_append] at hnodup
  obtain ⟨-, hback, hdisjoint⟩ := List.nodup_append.1 hnodup
  have hfront : instr.id ∉ front.map Instr.id :=
    fun hmem => hdisjoint _ hmem _ (List.mem_cons_self ..) rfl
  have hself : instr.code ≠ .matrixPtr → squash (front ++ instr :: back) instr.id = instr.id := by
    intro hne
    rw [squash_append hfront, squash, if_pos rfl]
    split
    · rename_i hmatrix _
      exact absurd hmatrix hne
    · rfl
  refine ⟨?_, ?_, ?_, ?_⟩
  · intro halloca
    rw [ownerOf, hself (by rw [halloca]; exact Code.noConfusion), hcode, halloca]
  · intro field activate hptr
    rw [ownerOf, hself (by rw [hptr]; exact Code.noConfusion), hcode, hptr]
  · intro arg hptr
    rw [ownerOf, hself (by rw [hptr]; exact Code.noConfusion), hcode, hptr]
  · intro hmatrix origin rest hoperands
    have horigin : origin ∈ back.map Instr.id := by
      apply hops
      rw [hoperands]
      exact List.mem_cons_self ..
    have hskip : origin ∉ (front ++ [instr]).map Instr.id := by
      rw [List.map_append, List.mem_append]
      rintro (hmem | hmem)
      · exact hdisjoint _ hmem _ (List.mem_cons_of_mem _ horigin) rfl
      · rw [List.map_singleton, List.mem_singleton] at hmem
        exact (List.nodup_cons.1 hback).1 (hmem ▸ horigin)
    have hsquash : squash (front ++ instr :: back) instr.id =
        squash (front ++ instr :: back) origin := by
      calc squash (front ++ instr :: back) instr.id = squash back origin := by
            rw [squash_append hfront, squash, if_pos rfl, hmatrix, hoperands]
        _ = squash ((front ++ [instr]) ++ back) origin := (squash_append hskip back).symm
        _ = squash (front ++ instr :: back) origin := by
            rw [List.append_assoc, List.singleton_append]
    rw [ownerOf, ownerOf, hsquash]

theorem uses_of_isScoped : ∀ {defs : Defs}, isScoped defs block = true →
    ∀ id ∈ usesOf block, id ∈ defs.map Instr.id ∨ id ∈ idsOf block := by
  induction block with
  | nil => intro defs _ id hid; cases hid
  | cons stmt block ih =>
    intro defs h id hid
    simp only [isScoped, Bool.and_eq_true] at h
    have hcons : ∀ id, id ∈ usesOf (stmt :: block) → id ∈ usesOf [stmt] ∨ id ∈ usesOf block := by
      simp only [usesOf, blockLeaves, blockTests, List.flatMap_append, List.mem_append,
        List.append_nil]
      tauto
    rcases hcons id hid with hid | hid
    · have hscope := List.all_eq_true.1 h.1.1 id hid
      simp only [Bool.or_eq_true, decide_eq_true_eq] at hscope
      rcases hscope with hdefs | hown
      · exact .inl hdefs
      · obtain ⟨instr, hinstr, rfl⟩ := List.mem_map.1 hown
        exact .inr (mem_idsOf_of_leaf (List.mem_cons_self ..) hinstr)
    · rcases ih h.2 id hid with hdefs | hown
      · obtain ⟨instr, hinstr, rfl⟩ := List.mem_map.1 hdefs
        rcases mem_addDefs.1 hinstr with hleaf | hinstr
        · have hown : instr ∈ stmt.leaves := by
            rw [← List.mem_singleton.1 hleaf]
            exact List.mem_singleton_self _
          exact .inr (mem_idsOf_of_leaf (List.mem_cons_self ..) hown)
        · exact .inl (List.mem_map_of_mem hinstr)
      · exact .inr (mem_idsOf_append.2 (.inr hown) : id ∈ idsOf ([stmt] ++ block))

theorem isOrdered_addDefs : ∀ {defs : Defs}, isScoped defs block = true →
    (∀ instr, .leaf instr ∈ block → instr.id ∉ instr.operands) → isOrdered defs = true →
    isOrdered (addDefs defs block) = true := by
  induction block with
  | nil => exact fun _ _ hordered => hordered
  | cons stmt block ih =>
    intro defs h hself hordered
    simp only [isScoped, Bool.and_eq_true] at h
    have hself' : ∀ instr, .leaf instr ∈ block → instr.id ∉ instr.operands :=
      fun instr hinstr => hself instr (List.mem_cons_of_mem _ hinstr)
    cases stmt with
    | branch | loop | forever => exact ih h.2 hself' hordered
    | leaf instr =>
      refine ih h.2 hself' ?_
      rw [isOrdered, hordered, Bool.and_true, List.all_eq_true]
      intro id hid
      have huse : id ∈ usesOf [Stmt.leaf instr] := by
        simpa [usesOf, blockLeaves, Stmt.leaves] using Or.inl hid
      have hscope := List.all_eq_true.1 h.1.1 id huse
      simp only [Stmt.leaves, List.map_singleton, List.mem_singleton, Bool.or_eq_true,
        decide_eq_true_eq] at hscope
      rcases hscope with hdefs | heq
      · exact decide_eq_true hdefs
      · exact absurd hid (heq ▸ hself instr (List.mem_cons_self ..))

theorem after_append {instr : Instr} (h : .leaf instr ∈ block) (rest : Block) :
    ∃ front, after instr.id (block ++ rest) = front ++ rest := by
  induction block with
  | nil => cases h
  | cons stmt block ih =>
    cases stmt with
    | leaf other =>
      rw [List.cons_append, after]
      by_cases heq : other.id = instr.id
      · exact ⟨block, if_pos heq⟩
      · rw [if_neg heq]
        refine ih ((List.mem_cons.1 h).resolve_left fun hleaf => heq ?_)
        rw [Stmt.leaf.inj hleaf]
    | branch | loop | forever =>
      exact ih ((List.mem_cons.1 h).resolve_left fun heq => (nomatch heq))

theorem Pending.flatten_assemble (pending : Pending) :
    pending.assemble.flatten = pending.block := by
  unfold assemble
  cases pending.block <;> simp

theorem Pending.flatten_push (pending : Pending) (root : RootStmt) :
    (pending.push root).1.flatten ++ (pending.push root).2.block =
      pending.block ++ [root.stmt] := by
  unfold push
  split
  · split
    · split
      · simp
      · rw [flatten_assemble]
    · simp
  · simp

theorem flatten_offloaderRun (root : List RootStmt) : ∀ pending,
    (offloaderRun pending root).flatten = pending.block ++ root.map RootStmt.stmt := by
  induction root with
  | nil =>
    intro pending
    rw [offloaderRun, Pending.flatten_assemble, List.map_nil, List.append_nil]
  | cons stmt root ih =>
    intro pending
    rw [offloaderRun]
    split
    · rw [List.flatten_append, List.flatten_cons, ih, Pending.flatten_assemble]
      rfl
    · rw [List.flatten_append, ih, ← List.append_assoc, Pending.flatten_push, List.append_assoc,
        List.map_cons, List.singleton_append]

theorem testAndAllocate_eq_some {current : List ℕ} {operand : ℕ}
    (h : testAndAllocate defs current operand = some id) :
    operand ∉ current ∧ id = squash defs operand := by
  unfold testAndAllocate at h
  split at h
  · cases h
  · rename_i hcurrent
    refine ⟨hcurrent, ?_⟩
    split at h
    · cases h
    · cases h
    · split at h
      · cases h
      · exact (Option.some.inj h).symm

theorem squash_of_lookup {instr : Instr}
    (h : lookup defs id = some instr) (hcode : instr.code ≠ .matrixPtr) : squash defs id = id := by
  induction defs with
  | nil => cases h
  | cons other defs ih =>
    unfold squash
    rcases lookup_cons h with ⟨rfl, heq⟩ | ⟨hne, h⟩
    · rw [if_pos heq]
      split
      · rename_i hmatrix _
        exact absurd hmatrix hcode
      · rfl
    · rw [if_neg hne]
      exact ih h

theorem testAndAllocate_of_value {current : List ℕ} {instr : Instr}
    (hother : id ∉ current) (h : lookup defs id = some instr)
    (hpointer : instr.code.isPointer = false) (hconst : ∀ value, instr.code ≠ .const value) :
    testAndAllocate defs current id = some id := by
  have hmatrix : instr.code ≠ .matrixPtr := by
    intro heq
    rw [heq] at hpointer
    cases hpointer
  have hcode : codeOf defs id = some instr.code := by
    rw [codeOf, h]
    rfl
  rw [testAndAllocate, if_neg hother, squash_of_lookup h hmatrix, hcode]
  cases heq : instr.code with
  | const value => exact absurd heq (hconst value)
  | globalPtr | externalPtr =>
    rw [heq] at hpointer
    cases hpointer
  | argLoad | arith | localLoad | globalLoad | localStore | globalStore | atomicOp | loopIndex
  | whileControl | alloca | matrixPtr => rfl

theorem identify_mem {tasks : List Block} : ∀ {defs : Defs},
    isScoped defs tasks.flatten = true →
    (∀ instr, .leaf instr ∈ tasks.flatten → instr.id ∉ instr.operands) → isOrdered defs = true →
    ∀ id ∈ identify defs tasks, id ∈ (addDefs defs tasks.flatten).map Instr.id := by
  induction tasks with
  | nil => intro defs _ _ _ id hid; cases hid
  | cons task tasks ih =>
    intro defs hscoped hself hordered id hid
    rw [List.flatten_cons, isScoped_append, Bool.and_eq_true] at hscoped
    rw [List.flatten_cons, addDefs_append]
    rcases List.mem_append.1 hid with hid | hid
    · obtain ⟨operand, huse, hid⟩ := List.mem_filterMap.1 hid
      obtain ⟨hcurrent, rfl⟩ := testAndAllocate_eq_some hid
      have hdefs := (uses_of_isScoped hscoped.1 operand huse).resolve_right hcurrent
      obtain ⟨instr, hinstr, heq⟩ := List.mem_map.1 (squash_mem hordered hdefs)
      rw [← heq]
      exact List.mem_map_of_mem (mem_addDefs.2 (.inr (mem_addDefs.2 (.inr hinstr))))
    · refine ih hscoped.2 (fun instr hinstr => hself instr (List.mem_append_right _ hinstr)) ?_
        id hid
      exact isOrdered_addDefs hscoped.1
        (fun instr hinstr => hself instr (List.mem_append_left _ hinstr)) hordered

namespace WellFormed

variable {root : List RootStmt}

theorem nodup_table (hwf : WellFormed root) : ((tableOf root).map Instr.id).Nodup := by
  rw [tableOf, List.map_reverse, List.nodup_reverse]
  exact (List.nodup_append.1 hwf.nodup).1

theorem not_mem_operands (hwf : WellFormed root) {instr : Instr} (h : instr ∈ tableOf root) :
    instr.id ∉ instr.operands := by
  intro hself
  have hordered := hwf.ordered
  have hnodup := hwf.nodup_table
  obtain ⟨front, back, heq⟩ := List.append_of_mem h
  rw [heq] at hordered hnodup
  rw [List.map_append] at hnodup
  have hback := operands_of_isOrdered hordered _ hself
  exact (List.nodup_cons.1 (List.nodup_append.1 hnodup).2.1).1 hback

theorem leaf_mem_table {instr : Instr} (h : .leaf instr ∈ root.map RootStmt.stmt) :
    instr ∈ tableOf root := by
  refine List.mem_reverse.2 (mem_blockLeaves h ?_)
  exact List.mem_singleton_self _

variable {front back : Block}

theorem scoped_back (hwf : WellFormed root) (h : root.map RootStmt.stmt = front ++ back) :
    isScoped (addDefs [] front) back = true := by
  have hscope := hwf.inScope
  rw [h, isScoped_append, Bool.and_eq_true] at hscope
  exact hscope.2

theorem isOrdered_defs (hwf : WellFormed root) (h : root.map RootStmt.stmt = front ++ back) :
    isOrdered (addDefs [] front) = true := by
  have hscope := hwf.inScope
  rw [h, isScoped_append, Bool.and_eq_true] at hscope
  refine isOrdered_addDefs hscope.1 (fun instr hinstr => ?_) rfl
  refine hwf.not_mem_operands (leaf_mem_table ?_)
  rw [h]
  exact List.mem_append_left _ hinstr

theorem defs_mem_table (h : root.map RootStmt.stmt = front ++ back) {instr : Instr}
    (hinstr : instr ∈ addDefs [] front) : instr ∈ tableOf root := by
  refine leaf_mem_table ?_
  rw [h]
  exact List.mem_append_left _ ((mem_addDefs.1 hinstr).resolve_right fun hmem => (nomatch hmem))

theorem nodup_defs (hwf : WellFormed root) (h : root.map RootStmt.stmt = front ++ back) :
    ((addDefs [] front).map Instr.id).Nodup := by
  have hsublist := addDefs_sublist front []
  rw [List.append_nil] at hsublist
  refine List.Nodup.sublist (hsublist.map Instr.id) ?_
  have hnodup := hwf.nodup_table
  rw [tableOf, h, blockLeaves_append, List.reverse_append, List.map_append] at hnodup
  exact (List.nodup_append.1 hnodup).2.1

theorem defs_ids {id : ℕ} (hid : id ∈ (addDefs [] front).map Instr.id) : id ∈ idsOf front := by
  obtain ⟨instr, hinstr, rfl⟩ := List.mem_map.1 hid
  refine mem_idsOf_of_leaf ((mem_addDefs.1 hinstr).resolve_right fun hmem => (nomatch hmem)) ?_
  exact List.mem_singleton_self _

theorem const_operands (hwf : WellFormed root) (h : root.map RootStmt.stmt = front ++ back) :
    ∀ instr ∈ addDefs [] front, ∀ value, instr.code = .const value → instr.operands = [] := by
  intro instr hinstr value hcode
  have hleaf := (mem_addDefs.1 hinstr).resolve_right fun hmem => (nomatch hmem)
  obtain ⟨before, after, rfl⟩ := List.append_of_mem hleaf
  rw [List.append_assoc, List.cons_append] at h
  have hscoped := hwf.scoped_back h
  simp only [isScoped, Bool.and_eq_true, Stmt.leaves] at hscoped
  have hempty := List.all_eq_true.1 hscoped.1.2 instr (List.mem_singleton_self _)
  rw [hcode] at hempty
  exact List.isEmpty_iff.1 hempty

theorem not_promoted (hwf : WellFormed root) {stmt : Stmt Instr ℕ}
    (h : root.map RootStmt.stmt = front ++ stmt :: back) (hstmt : ∀ instr, stmt ≠ .leaf instr)
    {instr : Instr} (hinstr : instr ∈ stmt.leaves) : instr.id ∉ promotedOf root := by
  intro hpromoted
  have htasks : (offloaderRun {} root).flatten = root.map RootStmt.stmt :=
    flatten_offloaderRun root {}
  have hmem : instr.id ∈ (addDefs [] (root.map RootStmt.stmt)).map Instr.id := by
    rw [← htasks]
    refine identify_mem ?_ ?_ rfl _ hpromoted
    · rw [htasks]
      exact hwf.inScope
    · rw [htasks]
      exact fun other hother => hwf.not_mem_operands (leaf_mem_table hother)
  obtain ⟨other, hother, hid⟩ := List.mem_map.1 hmem
  have hleaf := (mem_addDefs.1 hother).resolve_right fun hmem => (nomatch hmem)
  have hothers : ∀ {block : Block}, .leaf other ∈ block → instr.id ∈ idsOf block := by
    intro block hblock
    rw [← hid]
    refine mem_idsOf_of_leaf hblock ?_
    exact List.mem_singleton_self _
  have hown : instr.id ∈ idsOf (stmt :: back) :=
    mem_idsOf_of_leaf (List.mem_cons_self ..) hinstr
  have hnodup := hwf.nodup
  rw [h] at hnodup hleaf
  rcases List.mem_append.1 hleaf with hfront | hback
  · exact not_mem_idsOf_of_nodup hnodup (hothers hfront) hown
  · rcases List.mem_cons.1 hback with heq | hback
    · exact hstmt other heq.symm
    · have hnodup' : (idsOf ([stmt] ++ back)).Nodup :=
        (List.nodup_append.1 ((idsOf_append_perm front _).nodup_iff.1 hnodup)).2.1
      exact not_mem_idsOf_of_nodup hnodup'
        (mem_idsOf_of_leaf (List.mem_singleton_self stmt) hinstr) (hothers hback)

theorem spares (c : Setting) {stmt : Stmt Instr ℕ}
    (h : root.map RootStmt.stmt = front ++ stmt :: back) {instr : Instr}
    (hinstr : instr ∈ stmt.leaves) : ∀ owner ∈ instr.writes (tableOf root),
      Linked.Spares ⟨c, promotedOf root, tableOf root, notWrittenAfter root⟩ (addDefs [] front)
        owner := by
  intro owner howner load hlookup _ hkept id hid
  have hleaf := (mem_addDefs.1 (lookup_mem hlookup).1).resolve_right fun hmem => (nomatch hmem)
  obtain ⟨between, hafter⟩ := after_append hleaf (stmt :: back)
  have hlater : instr ∈ blockLeaves (after load.id (root.map RootStmt.stmt)) := by
    rw [h, hafter]
    exact mem_blockLeaves (List.mem_append_right _ (List.mem_cons_self ..)) hinstr
  have hall := List.all_eq_true.1 (List.all_eq_true.1 hkept instr hlater) owner howner
  exact of_decide_eq_true (List.all_eq_true.1 hall id hid)

end WellFormed

def contextOf (c : Setting) (root : List RootStmt) : Context :=
  ⟨c, promotedOf root, tableOf root, notWrittenAfter root⟩

section Runs

variable {root : List RootStmt} (c : Setting) {done task rest front back : Block}

variable {id : ℕ}

theorem recomputes_of_lookup {promoted : List ℕ} {kept : Instr → Bool} {defs : Defs}
    {instr : Instr} (h : lookup defs id = some instr) (hcloned : isCloned promoted instr = true →
      instr.isRepeatable kept = true ∧ instr.operands = [])
    (hslot : isCloned promoted instr = false → instr.code.isPointer = false) :
    recomputes promoted kept defs id = true := by
  induction defs with
  | nil => cases h
  | cons other defs ih =>
    unfold recomputes
    rcases lookup_cons h with ⟨rfl, heq⟩ | ⟨hne, h⟩
    · rw [if_pos heq]
      cases hcase : isCloned promoted other with
      | true =>
        obtain ⟨hrepeat, hops⟩ := hcloned hcase
        simp [hrepeat, hops]
      | false => simp [hslot hcase]
    · rw [if_neg hne]
      exact ih h

theorem recomputes_of_use {promoted : List ℕ} {kept : Instr → Bool} {defs : Defs}
    (hscoped : isScoped defs task = true)
    (hconst : ∀ instr ∈ defs, ∀ value, instr.code = .const value → instr.operands = [])
    (hpromoted : ∀ id ∈ identify defs [task], id ∈ promoted)
    (hpointers : ∀ id ∈ usesOf task, id ∉ idsOf task →
      (codeOf defs id).any Code.isPointer = true → recomputes promoted kept defs id = true) (huse : id ∈ usesOf task) (hother : id ∉ idsOf task) :
    recomputes promoted kept defs id = true := by
  have hdefs := (uses_of_isScoped hscoped id huse).resolve_right hother
  obtain ⟨instr, hlookup⟩ : ∃ instr, lookup defs id = some instr := by
    obtain ⟨instr, hinstr, hid⟩ := List.mem_map.1 hdefs
    exact Option.isSome_iff_exists.1 (List.find?_isSome.2 ⟨instr, hinstr, decide_eq_true hid⟩)
  have hcode : codeOf defs id = some instr.code := by
    rw [codeOf, hlookup]
    rfl
  by_cases hpointer : instr.code.isPointer = true
  · refine hpointers id huse hother ?_
    rw [hcode]
    exact hpointer
  have hpointer : instr.code.isPointer = false := by simpa using hpointer
  refine recomputes_of_lookup hlookup (fun hcloned => ?_) fun _ => hpointer
  have hnot : instr.id ∉ promoted := by
    unfold isCloned at hcloned
    split at hcloned
    · rename_i hptr
      rw [hptr] at hpointer
      cases hpointer
    · simpa using hcloned
  by_cases hconst' : ∃ value, instr.code = .const value
  · obtain ⟨value, hvalue⟩ := hconst'
    exact ⟨by rw [Instr.isRepeatable, hvalue], hconst instr (lookup_mem hlookup).1 value hvalue⟩
  refine absurd (hpromoted id (List.mem_append_left _ (List.mem_filterMap.2 ⟨id, huse, ?_⟩))) ?_
  · exact testAndAllocate_of_value hother hlookup hpointer fun value hvalue =>
      hconst' ⟨value, hvalue⟩
  · rwa [← (lookup_mem hlookup).2]

theorem arranged (hwf : WellFormed root)
    (h : root.map RootStmt.stmt = done ++ (front ++ back) ++ rest) :
    Arranged (addDefs [] done) (addDefs (addDefs [] done) front) (front ++ back)
      (idsOf rest) := by
  have hfront : root.map RootStmt.stmt = (done ++ front) ++ (back ++ rest) := by
    rw [h, List.append_assoc, List.append_assoc, List.append_assoc]
  rw [← addDefs_append]
  have hnodup := hwf.nodup
  rw [h] at hnodup
  refine ⟨Closed.of_isOrdered (hwf.isOrdered_defs hfront), ?_, ?_, ?_⟩
  · intro instr hinstr
    refine lookup_of_mem (hwf.nodup_defs hfront) ?_
    rw [addDefs_append]
    exact mem_addDefs.2 (.inr hinstr)
  · intro id hid
    exact not_mem_idsOf_of_nodup hnodup (mem_idsOf_append.2 (.inr hid))
  · intro id hid
    refine not_mem_idsOf_of_nodup hnodup ?_
    rcases mem_idsOf_append.1 (WellFormed.defs_ids hid) with hdone | hfront
    · exact mem_idsOf_append.2 (.inl hdone)
    · exact mem_idsOf_append.2 (.inr (mem_idsOf_append.2 (.inl hfront)))

theorem available (hwf : WellFormed root) {stmt : Stmt Instr ℕ}
    (h : root.map RootStmt.stmt = done ++ (front ++ stmt :: back) ++ rest)
    (hrecompute : ∀ id ∈ usesOf (front ++ stmt :: back), id ∉ idsOf (front ++ stmt :: back) →
      recomputes (promotedOf root) (notWrittenAfter root) (addDefs [] done) id = true) (hid : id ∈ usesOf [stmt])
    (hself : ∀ instr, stmt = .leaf instr → instr.id ≠ id) :
    Available (contextOf c root) (addDefs [] done) (addDefs (addDefs [] done) front)
      (front ++ stmt :: back) id := by
  have hstmt : root.map RootStmt.stmt = (done ++ front) ++ stmt :: (back ++ rest) := by
    rw [h]
    simp
  by_cases hown : id ∈ idsOf (front ++ stmt :: back)
  · refine .inl ⟨hown, fun halloca hpromoted => ?_⟩
    have hscoped := hwf.scoped_back hstmt
    simp only [isScoped, Bool.and_eq_true] at hscoped
    have hscope := List.all_eq_true.1 hscoped.1.1 id hid
    simp only [Bool.or_eq_true, decide_eq_true_eq] at hscope
    rw [← addDefs_append]
    rcases hscope with hdefs | hinner
    · obtain ⟨instr, hinstr, rfl⟩ := List.mem_map.1 hdefs
      obtain ⟨other, hlookup, hcode⟩ := Option.map_eq_some_iff.1 halloca
      obtain ⟨hother, heq⟩ := lookup_mem hlookup
      have htable : other ∈ tableOf root := by
        refine List.mem_reverse.2 ?_
        rw [h, blockLeaves_append, blockLeaves_append]
        exact List.mem_append_left _ (List.mem_append_right _ hother)
      have hsame : instr = other :=
        List.inj_on_of_nodup_map hwf.nodup_table (WellFormed.defs_mem_table hstmt hinstr) htable
          heq.symm
      rw [codeOf, lookup_of_mem (hwf.nodup_defs hstmt) hinstr, hsame]
      exact congrArg some hcode
    · obtain ⟨instr, hinstr, rfl⟩ := List.mem_map.1 hinner
      by_cases hleaf : ∃ top, stmt = .leaf top
      · obtain ⟨top, rfl⟩ := hleaf
        rw [Stmt.leaves, List.mem_singleton] at hinstr
        exact absurd (congrArg Instr.id hinstr.symm) (hself top rfl)
      · exact absurd hpromoted
          (hwf.not_promoted hstmt (fun top htop => hleaf ⟨top, htop⟩) hinstr)
  · refine .inr ⟨hown, hrecompute id ?_ hown⟩
    exact mem_usesOf (List.mem_append_right _ (List.mem_cons_self ..)) hid

theorem ready (hwf : WellFormed root) {stmt : Stmt Instr ℕ}
    (h : root.map RootStmt.stmt = done ++ (front ++ stmt :: back) ++ rest)
    (hrecompute : ∀ id ∈ usesOf (front ++ stmt :: back), id ∉ idsOf (front ++ stmt :: back) →
      recomputes (promotedOf root) (notWrittenAfter root) (addDefs [] done) id = true)
    {instr : Instr} (hinstr : instr ∈ stmt.leaves) :
    Ready (contextOf c root) (addDefs [] done) (addDefs (addDefs [] done) front)
      (front ++ stmt :: back) (idsOf rest) instr := by
  have hstmt : root.map RootStmt.stmt = (done ++ front) ++ stmt :: (back ++ rest) := by
    rw [h]
    simp
  have hmem : stmt ∈ front ++ stmt :: back := List.mem_append_right _ (List.mem_cons_self ..)
  have htable : instr ∈ tableOf root := by
    refine List.mem_reverse.2 (mem_blockLeaves ?_ hinstr)
    rw [hstmt]
    exact List.mem_append_right _ (List.mem_cons_self ..)
  have hscoped := hwf.scoped_back hstmt
  simp only [isScoped, Bool.and_eq_true] at hscoped
  have hleaf := List.all_eq_true.1 hscoped.1.2 instr hinstr
  refine ⟨mem_idsOf_of_leaf hmem hinstr, ?_, ?_, ?_, ?_, ?_, ?_⟩
  · rw [← addDefs_append]
    intro hdefs
    have hnodup := hwf.nodup
    rw [hstmt] at hnodup
    exact not_mem_idsOf_of_nodup hnodup (WellFormed.defs_ids hdefs)
      (mem_idsOf_of_leaf (List.mem_cons_self ..) hinstr)
  · intro id hid
    refine available c hwf h hrecompute ?_ ?_
    · refine List.mem_append_left _ (List.mem_flatMap.2 ⟨instr, ?_, hid⟩)
      rwa [blockLeaves, blockLeaves, List.append_nil]
    · rintro top rfl rfl
      rw [Stmt.leaves, List.mem_singleton] at hinstr
      exact hwf.not_mem_operands htable (hinstr ▸ hid)
  · intro hcode
    rw [hcode] at hleaf
    exact List.isEmpty_iff.1 hleaf
  · intro loop hcode
    rw [hcode] at hleaf
    exact mem_idsOf_of_loop hmem (of_decide_eq_true hleaf)
  · rw [← addDefs_append]
    exact WellFormed.spares c hstmt hinstr
  · exact OwnerKnown.of_table hwf.nodup_table hwf.ordered htable

theorem runs_block (hwf : WellFormed root) (back : Block) : ∀ front : Block,
    root.map RootStmt.stmt = done ++ (front ++ back) ++ rest →
    (∀ id ∈ usesOf (front ++ back), id ∉ idsOf (front ++ back) →
      recomputes (promotedOf root) (notWrittenAfter root) (addDefs [] done) id = true) →
    Runs (contextOf c root) (addDefs [] done) (front ++ back) (idsOf rest)
      (addDefs (addDefs [] done) front) back := by
  induction back with
  | nil => intro front _ _; trivial
  | cons stmt back ih =>
    intro front h hrecompute
    have hmem : stmt ∈ front ++ stmt :: back := List.mem_append_right _ (List.mem_cons_self ..)
    have hassoc : front ++ stmt :: back = (front ++ [stmt]) ++ back := by simp
    have hrest := ih (front ++ [stmt]) (hassoc ▸ h) (hassoc ▸ hrecompute)
    rw [← hassoc, addDefs_append] at hrest
    have ha := arranged hwf h
    have hcontainer : (∀ instr, stmt ≠ .leaf instr) → stmt.Within
        (fun instr => Ready (contextOf c root) (addDefs [] done)
          (addDefs (addDefs [] done) front) (front ++ stmt :: back) (idsOf rest) instr ∧
          instr.id ∉ (contextOf c root).promoted)
        (Available (contextOf c root) (addDefs [] done) (addDefs (addDefs [] done) front)
          (front ++ stmt :: back))
        (fun id => id ∈ idsOf (front ++ stmt :: back) ∧
          id ∉ (addDefs (addDefs [] done) front).map Instr.id) := by
      intro hne
      have hstmt : root.map RootStmt.stmt = (done ++ front) ++ stmt :: (back ++ rest) := by
        rw [h]
        simp
      refine ⟨?_, ?_, ?_⟩
      · intro instr hinstr
        exact ⟨ready c hwf h hrecompute hinstr, hwf.not_promoted hstmt hne hinstr⟩
      · intro id hid
        refine available c hwf h hrecompute (List.mem_append_right _ ?_) ?_
        · rwa [blockTests, blockTests, List.append_nil]
        · exact fun instr heq => absurd heq (hne instr)
      · intro id hid
        refine ⟨mem_idsOf_of_loop hmem hid, ?_⟩
        rw [← addDefs_append]
        intro hdefs
        have hnodup := hwf.nodup
        rw [hstmt] at hnodup
        exact not_mem_idsOf_of_nodup hnodup (WellFormed.defs_ids hdefs)
          (mem_idsOf_of_loop (List.mem_cons_self ..) hid)
    cases stmt with
    | branch | loop | forever => exact ⟨ha, hcontainer fun _ heq => (nomatch heq), hrest⟩
    | leaf instr =>
      have hinstr : instr ∈ (Stmt.leaf instr : Stmt Instr ℕ).leaves := by
        exact List.mem_singleton_self _
      refine ⟨ha, ready c hwf h hrecompute hinstr, ?_, hrest⟩
      refine hwf.not_mem_operands (WellFormed.leaf_mem_table ?_)
      rw [h]
      exact List.mem_append_left _ (List.mem_append_right _ hmem)

theorem runs_tasks (hwf : WellFormed root) (tasks : List Block) : ∀ done : Block,
    root.map RootStmt.stmt = done ++ tasks.flatten →
    pointersRecompute (promotedOf root) (notWrittenAfter root) (addDefs [] done) tasks = true →
    (∀ id ∈ identify (addDefs [] done) tasks, id ∈ promotedOf root) →
    RunsTasks (contextOf c root) (addDefs [] done) tasks := by
  induction tasks with
  | nil => intro done _ _ _; trivial
  | cons task tasks ih =>
    intro done h hpointers hpromoted
    rw [List.flatten_cons] at h
    rw [pointersRecompute, Bool.and_eq_true] at hpointers
    have hassoc : root.map RootStmt.stmt = done ++ ([] ++ task) ++ tasks.flatten := by
      rw [h, List.nil_append, List.append_assoc]
    have hscoped := hwf.scoped_back h
    rw [isScoped_append, Bool.and_eq_true] at hscoped
    have hrecompute : ∀ id ∈ usesOf task, id ∉ idsOf task →
        recomputes (promotedOf root) (notWrittenAfter root) (addDefs [] done) id = true := by
      intro id huse hother
      refine recomputes_of_use hscoped.1 ?_ ?_ ?_ huse hother
      · exact hwf.const_operands h
      · intro id hid
        refine hpromoted id (List.mem_append_left _ ?_)
        rwa [identify, identify, List.append_nil] at hid
      · intro id huse hother hpointer
        have hcase := List.all_eq_true.1 hpointers.1 id huse
        simpa [hother, hpointer] using hcase
    refine ⟨runs_block c hwf task [] hassoc hrecompute, ?_⟩
    rw [← addDefs_append]
    refine ih (done ++ task) (by rw [h, List.append_assoc]) ?_ ?_
    · rw [addDefs_append]
      exact hpointers.2
    · intro id hid
      rw [addDefs_append] at hid
      exact hpromoted id (List.mem_append_right _ hid)

end Runs

end Quadrants.CrossTask

/-!
Where the pointers that tasks share only repeat statements, the tasks compute what the kernel
computes.
-/

namespace Quadrants.CrossTask

open Library.StructuredRuns

theorem linked_start (k : Context) (ids : List ℕ) (mem : Memory) :
    Linked k [] [] ids (start mem) (start mem) := by
  refine ⟨fun id hid => (nomatch hid), fun id hid => (nomatch hid), ?_,
    fun instr hlookup => (nomatch hlookup), fun instr hlookup => (nomatch hlookup),
    fun id loc hloc => (nomatch hloc), fun id _ => ⟨rfl, fun element => rfl⟩, rfl, rfl⟩
  intro loc hloc
  cases loc with
  | global space indices element => rfl
  | tmp | fresh => exact hloc.elim
  | stack alloca element =>
    rcases hloc with ⟨hids, -⟩ | ⟨-, hcode⟩
    · cases hids
    · cases hcode

/-- `i = a[0]; x[i] = 1; for j in range(2): b[0] = 5; x[i] = 2`, with one pointer to `x[i]`, where
`b` is the field of that number and `a` is field 0. -/
def indexedKernel (field : ℕ) : List RootStmt :=
  [{ stmt := .leaf ⟨0, .const 0, []⟩ }, { stmt := .leaf ⟨1, .const 1, []⟩ },
    { stmt := .leaf ⟨2, .const 2, []⟩ }, { stmt := .leaf ⟨3, .const 5, []⟩ },
    { stmt := .leaf ⟨4, .globalPtr 0 false, [0]⟩ }, { stmt := .leaf ⟨5, .globalLoad, [4]⟩ },
    { stmt := .leaf ⟨6, .globalPtr 1 false, [5]⟩ }, { stmt := .leaf ⟨7, .globalStore, [6, 1]⟩ },
    { stmt := .loop 8 0 2 [.leaf ⟨9, .globalPtr field false, [0]⟩,
        .leaf ⟨10, .globalStore, [9, 3]⟩] },
    { stmt := .leaf ⟨11, .globalStore, [6, 2]⟩ }]

def plainSetting : Setting where
  args := fun _ => 0
  arith := fun _ _ => 0
  atomic := fun a b => a + b
  rounds := 1

end Quadrants.CrossTask
