import Quadrants.Simplify.LoopInvariant
import Mathlib.Data.List.Perm.Basic

/-!
What one visit of loop-invariant code motion does to a program: nothing is lost, operands stay
defined before their uses, and what is moved comes nearer to the outside.
-/

namespace Quadrants.Simplify.LoopInvariant

open List

open Library.TracedLoops Library.SsaBlocks

variable {S C : Type} (config : CompileConfig)

section Moved

variable [DecidableEq S]

mutual

theorem sweepStmt_moved (names : List S) (depth : ℕ) : ∀ (stmt : Stmt S (Kind C))
    (blocked nested : Option (List S)), (∀ other, blocked = some other → names ⊆ other) →
    (∀ other, nested = some other → names ⊆ other) →
    ∀ moved ∈ (sweepStmt config depth blocked nested stmt).moved,
      ∃ name kind operands, moved = .plain name kind operands ∧ kind.movable config = true ∧
        names.Disjoint operands
  | .plain name kind operands, blocked, nested, hblocked, _, moved, hmoved => by
    cases blocked with
    | none =>
      rw [sweepStmt] at hmoved
      cases hmoved
    | some other =>
      simp only [sweepStmt] at hmoved
      split at hmoved
      · next h =>
          rw [Bool.and_eq_true_iff, all_eq_true] at h
          obtain rfl := mem_singleton.1 hmoved
          refine ⟨name, kind, operands, rfl, h.1, fun x hx hoperand => ?_⟩
          have hout := h.2 x hoperand
          rw [decide_eq_true_iff] at hout
          exact hout (hblocked other rfl hx)
      · cases hmoved
  | .loopIndex name loop axis, blocked, nested, _, _, moved, hmoved => by
    rw [sweepStmt] at hmoved
    cases hmoved
  | .ifStmt name cond t f, blocked, nested, _, hnested, moved, hmoved => by
    rw [sweepStmt] at hmoved
    rcases mem_append.1 hmoved with hmoved | hmoved
    · exact sweepBlock_moved names depth t nested nested hnested hnested moved hmoved
    · exact sweepBlock_moved names depth f nested nested hnested hnested moved hmoved
  | .loop name kind operands body, blocked, nested, _, _, moved, hmoved => by
    rw [sweepStmt] at hmoved
    cases hmoved

theorem sweepBlock_moved (names : List S) (depth : ℕ) : ∀ (block : List (Stmt S (Kind C)))
    (blocked nested : Option (List S)), (∀ other, blocked = some other → names ⊆ other) →
    (∀ other, nested = some other → names ⊆ other) →
    ∀ moved ∈ (sweepBlock config depth blocked nested block).moved,
      ∃ name kind operands, moved = .plain name kind operands ∧ kind.movable config = true ∧
        names.Disjoint operands
  | [], _, _, _, _, moved, hmoved => by
    rw [sweepBlock] at hmoved
    cases hmoved
  | stmt :: rest, blocked, nested, hblocked, hnested, moved, hmoved => by
    rw [sweepBlock] at hmoved
    rcases mem_append.1 hmoved with hmoved | hmoved
    · exact sweepStmt_moved names depth stmt blocked nested hblocked hnested moved hmoved
    · exact sweepBlock_moved names depth rest blocked nested hblocked hnested moved hmoved

end

theorem sweepBlock_plain (depth : ℕ) (block : List (Stmt S (Kind C)))
    (blocked nested : Option (List S)) :
    ∀ moved ∈ (sweepBlock config depth blocked nested block).moved,
      ∃ name kind operands, moved = .plain name kind operands ∧ kind.movable config = true := by
  intro moved hmoved
  obtain ⟨name, kind, operands, rfl, hmovable, -⟩ := sweepBlock_moved config [] depth block blocked
    nested (fun _ _ => nil_subset _) (fun _ _ => nil_subset _) moved hmoved
  exact ⟨name, kind, operands, rfl, hmovable⟩

mutual

theorem sweepStmt_none (depth : ℕ) : ∀ stmt : Stmt S (Kind C),
    (sweepStmt config depth none none stmt).moved = []
  | .plain _ _ _ => by rw [sweepStmt]
  | .loopIndex _ _ _ => by rw [sweepStmt]
  | .ifStmt _ _ t f => by
    rw [sweepStmt]
    simp only [sweepBlock_none depth t, sweepBlock_none depth f, append_nil]
  | .loop _ _ _ _ => by rw [sweepStmt]

theorem sweepBlock_none (depth : ℕ) : ∀ block : List (Stmt S (Kind C)),
    (sweepBlock config depth none none block).moved = []
  | [] => by rw [sweepBlock]
  | stmt :: rest => by
    rw [sweepBlock]
    simp only [Swept.append, sweepStmt_none depth stmt, sweepBlock_none depth rest, append_nil]

end

omit [DecidableEq S] in
theorem perm_shuffle (first second third fourth : List S) :
    List.Perm (first ++ second ++ (third ++ fourth)) (first ++ third ++ (second ++ fourth)) := by
  rw [append_assoc, append_assoc]
  refine List.Perm.append_left _ ?_
  rw [← append_assoc, ← append_assoc]
  exact List.Perm.append_right _ perm_append_comm

mutual

theorem sweepStmt_names (depth : ℕ) : ∀ (stmt : Stmt S (Kind C)) (blocked nested : Option (List S)),
    List.Perm (blockNames (sweepStmt config depth blocked nested stmt).moved ++
      blockNames (sweepStmt config depth blocked nested stmt).kept) stmt.names
  | .plain name kind operands, blocked, nested => by
    cases blocked with
    | none => simp [sweepStmt, blockNames, Stmt.names]
    | some other =>
      simp only [sweepStmt]
      split <;> simp [blockNames, Stmt.names]
  | .loopIndex name loop axis, blocked, nested => by
    simp [sweepStmt, blockNames, Stmt.names]
  | .ifStmt name cond t f, blocked, nested => by
    have ht := sweepBlock_names depth t nested nested
    have hf := sweepBlock_names depth f nested nested
    rw [sweepStmt, Stmt.names]
    simp only [blockNames_append, blockNames, Stmt.names, append_nil]
    exact (perm_shuffle _ _ _ _).trans (ht.append hf)
  | .loop name kind operands body, blocked, nested => by
    rw [sweepStmt, Stmt.names]
    simp only [blockNames_append, blockNames, Stmt.names, append_nil, nil_append]
    refine perm_middle.trans (List.Perm.cons name ?_)
    exact sweepBlock_names (depth + 1) body _ _

theorem sweepBlock_names (depth : ℕ) : ∀ (block : List (Stmt S (Kind C)))
    (blocked nested : Option (List S)),
    List.Perm (blockNames (sweepBlock config depth blocked nested block).moved ++
      blockNames (sweepBlock config depth blocked nested block).kept) (blockNames block)
  | [], _, _ => by simp [sweepBlock, blockNames]
  | stmt :: rest, blocked, nested => by
    have hstmt := sweepStmt_names depth stmt blocked nested
    have hrest := sweepBlock_names depth rest blocked nested
    rw [sweepBlock, blockNames]
    simp only [Swept.append, blockNames_append]
    exact (perm_shuffle _ _ _ _).trans (hstmt.append hrest)

end

end Moved

section Scopes

/-- What cannot be moved past: the statements of the block, or of the loop for the blocks inside. -/
structure Blocks (block : List (Stmt S (Kind C))) (blocked nested : Option (List S)) : Prop where
  direct : ∀ names, blocked = some names → directNames block ⊆ names
  inside : ∀ names, nested = some names → blockNames block ⊆ names

variable (depth : ℕ)

theorem blocks_body (body : List (Stmt S (Kind C))) :
    Blocks body (if 1 ≤ depth then some (directNames body) else none)
      (if 1 ≤ depth ∧ config.moveLoopInvariantOutsideIf then some (blockNames body) else none) where
  direct names h := by
    split at h
    · rw [Option.some.inj h]
      exact List.Subset.refl _
    · cases h
  inside names h := by
    split at h
    · rw [Option.some.inj h]
      exact List.Subset.refl _
    · cases h

variable {blocked nested : Option (List S)} {rest : List (Stmt S (Kind C))}

variable {block : List (Stmt S (Kind C))} {loops values : List S} {stmt : Stmt S (Kind C)}

theorem Blocks.branch (h : Blocks block blocked nested) {branch : List (Stmt S (Kind C))}
    (hbranch : blockNames branch ⊆ blockNames block) : Blocks branch nested nested where
  direct names hnames :=
    List.Subset.trans (directNames_subset branch)
      (List.Subset.trans hbranch (h.inside names hnames))
  inside names hnames := List.Subset.trans hbranch (h.inside names hnames)

theorem Blocks.tail (h : Blocks (stmt :: rest) blocked nested) : Blocks rest blocked nested where
  direct names hnames := by
    have hsubset := h.direct names hnames
    exact fun x hx => hsubset (mem_append_right _ hx)
  inside names hnames := by
    have hsubset := h.inside names hnames
    exact fun x hx => hsubset (mem_append_right _ hx)

theorem Blocks.value (h : Blocks (stmt :: rest) blocked nested) :
    (∀ names, blocked = some names → stmt.value ⊆ names) ∧
      ∀ names, nested = some names → stmt.value ⊆ names := by
  constructor
  · intro names hnames x hx
    apply h.direct names hnames
    exact mem_append_left _ hx
  · intro names hnames x hx
    apply h.inside names hnames
    exact mem_append_left _ (stmt.value_subset hx)

theorem Blocks.branches {name cond : S} {t f : List (Stmt S (Kind C))}
    (h : Blocks (.ifStmt name cond t f :: rest) blocked nested) :
    Blocks t nested nested ∧ Blocks f nested nested := by
  constructor
  · apply h.branch
    intro x hx
    exact mem_append_left _ (mem_append_left _ hx)
  · apply h.branch
    intro x hx
    exact mem_append_left _ (mem_append_right _ hx)

variable [DecidableEq S]

mutual

theorem sweepStmt_operands (depth : ℕ) : ∀ (stmt : Stmt S (Kind C)) (rest : List (Stmt S (Kind C)))
    (blocked nested : Option (List S)) (values loops : List S),
    Blocks (stmt :: rest) blocked nested → stmt.Scoped values loops →
    ∀ name kind operands, Stmt.plain name kind operands ∈
      (sweepStmt config depth blocked nested stmt).moved → operands ⊆ values
  | .plain name kind operands, rest, blocked, nested, values, loops, _, hscope, name', kind',
      operands', hmoved => by
      cases blocked with
      | none =>
        rw [sweepStmt] at hmoved
        cases hmoved
      | some other =>
        simp only [sweepStmt] at hmoved
        split at hmoved
        · have heq := mem_singleton.1 hmoved
          injection heq with _ _ hoperands
          rw [Stmt.Scoped] at hscope
          rw [hoperands]
          exact hscope
        · cases hmoved
  | .loopIndex name loop axis, rest, blocked, nested, values, loops, _, _, _, _, _, hmoved => by
    rw [sweepStmt] at hmoved
    cases hmoved
  | .ifStmt name cond t f, rest, blocked, nested, values, loops, hblocks, hscope, name', kind',
      operands', hmoved => by
      rw [sweepStmt] at hmoved
      rw [Stmt.Scoped] at hscope
      rcases mem_append.1 hmoved with hmoved | hmoved
      · exact sweepBlock_operands depth t nested nested values loops hblocks.branches.1 hscope.2.1
          name' kind' operands' hmoved
      · exact sweepBlock_operands depth f nested nested values loops hblocks.branches.2 hscope.2.2
          name' kind' operands' hmoved
  | .loop name kind operands body, rest, blocked, nested, values, loops, _, _, _, _, _, hmoved => by
    rw [sweepStmt] at hmoved
    cases hmoved

theorem sweepBlock_operands (depth : ℕ) : ∀ (block : List (Stmt S (Kind C)))
    (blocked nested : Option (List S)) (values loops : List S), Blocks block blocked nested →
    BlockScoped values loops block → ∀ name kind operands, Stmt.plain name kind operands ∈
      (sweepBlock config depth blocked nested block).moved → operands ⊆ values
  | [], _, _, _, _, _, _, _, _, _, hmoved => by
    rw [sweepBlock] at hmoved
    cases hmoved
  | stmt :: rest, blocked, nested, values, loops, hblocks, hscope, name, kind, operands,
      hmoved => by
      rw [BlockScoped] at hscope
      rw [sweepBlock] at hmoved
      rcases mem_append.1 hmoved with hmoved | hmoved
      · exact sweepStmt_operands depth stmt rest blocked nested values loops hblocks hscope.1 name
          kind operands hmoved
      · have hsubset := sweepBlock_operands depth rest blocked nested _ loops hblocks.tail hscope.2
          name kind operands hmoved
        have hvalue := hblocks.value
        obtain ⟨name', kind', operands', heq, -, hdisjoint⟩ := sweepBlock_moved config stmt.value
          depth rest blocked nested hvalue.1 hvalue.2 _ hmoved
        injection heq with _ _ hoperands
        intro x hx
        rcases mem_append.1 (hsubset hx) with hx' | hx'
        · exact absurd (hoperands ▸ hx) (hdisjoint hx')
        · exact hx'

end

omit [DecidableEq S] in
theorem plains_scoped {outer : List S} (hsubset : values ⊆ outer)
    (block : List (Stmt S (Kind C))) (h : ∀ stmt ∈ block, ∃ name kind operands,
      stmt = .plain name kind operands ∧ operands ⊆ values) : BlockScoped outer loops block := by
  induction block generalizing outer with
  | nil =>
    trivial
  | cons stmt block ih =>
    obtain ⟨name, kind, operands, rfl, hoperands⟩ := h stmt mem_cons_self
    refine ⟨List.Subset.trans hoperands hsubset, ?_⟩
    exact ih (List.Subset.trans hsubset (subset_append_right _ _))
      fun other hother => h other (mem_cons_of_mem _ hother)

theorem sweepStmt_value (stmt : Stmt S (Kind C)) (blocked nested : Option (List S)) :
    stmt.value ⊆ directNames (sweepStmt config depth blocked nested stmt).kept ++
      directNames (sweepStmt config depth blocked nested stmt).moved := by
  cases stmt with
  | plain name kind operands =>
    cases blocked with
    | none => simp [sweepStmt, Stmt.value, directNames]
    | some names =>
      simp only [sweepStmt]
      split <;> simp [Stmt.value, directNames]
  | loopIndex name loop axis => simp [sweepStmt, Stmt.value, directNames]
  | ifStmt name cond t f => exact nil_subset _
  | loop name kind operands body => exact nil_subset _

theorem sweepBlock_value (block : List (Stmt S (Kind C))) (blocked nested : Option (List S)) :
    directNames block ⊆ directNames (sweepBlock config depth blocked nested block).kept ++
      directNames (sweepBlock config depth blocked nested block).moved := by
  induction block with
  | nil => exact nil_subset _
  | cons stmt rest ih =>
    have hstmt := sweepStmt_value config depth stmt blocked nested
    rw [sweepBlock]
    simp only [Swept.append, directNames, flatMap_append]
    refine append_subset.2 ⟨fun x hx => ?_, fun x hx => ?_⟩
    · rcases mem_append.1 (hstmt hx) with hx | hx
      · exact mem_append_left _ (mem_append_left _ hx)
      · exact mem_append_right _ (mem_append_left _ hx)
    · rcases mem_append.1 (ih hx) with hx | hx
      · exact mem_append_left _ (mem_append_right _ hx)
      · exact mem_append_right _ (mem_append_right _ hx)

theorem moved_plains (hblocks : Blocks block blocked nested)
    (hscope : BlockScoped values loops block) :
    ∀ moved ∈ (sweepBlock config depth blocked nested block).moved, ∃ name kind operands,
      moved = .plain name kind operands ∧ operands ⊆ values := by
  intro moved hmoved
  obtain ⟨name, kind, operands, rfl, -⟩ := sweepBlock_plain config depth block blocked nested moved
    hmoved
  exact ⟨name, kind, operands, rfl, sweepBlock_operands config depth block blocked nested values
    loops hblocks hscope name kind operands hmoved⟩

mutual

theorem sweepStmt_scoped (depth : ℕ) : ∀ (stmt : Stmt S (Kind C)) (rest : List (Stmt S (Kind C)))
    (blocked nested : Option (List S)) (values loops extra : List S),
    Blocks (stmt :: rest) blocked nested → stmt.Scoped values loops →
    directNames (sweepStmt config depth blocked nested stmt).moved ⊆ extra →
    BlockScoped (extra ++ values) loops (sweepStmt config depth blocked nested stmt).kept
  | .plain name kind operands, rest, blocked, nested, values, loops, extra, _, hscope, _ => by
    have hkept : BlockScoped (extra ++ values) loops
        [(.plain name kind operands : Stmt S (Kind C))] := by
      rw [BlockScoped, BlockScoped]
      exact ⟨hscope.mono (subset_append_right _ _) (List.Subset.refl _), trivial⟩
    cases blocked with
    | none =>
      rw [sweepStmt]
      exact hkept
    | some names =>
      simp only [sweepStmt]
      split
      · rw [BlockScoped]
        trivial
      · exact hkept
  | .loopIndex name loop axis, rest, blocked, nested, values, loops, extra, _, hscope, _ => by
    rw [sweepStmt, BlockScoped, BlockScoped]
    exact ⟨hscope.mono (subset_append_right _ _) (List.Subset.refl _), trivial⟩
  | .ifStmt name cond t f, rest, blocked, nested, values, loops, extra, hblocks, hscope,
      hextra => by
      rw [Stmt.Scoped] at hscope
      rw [sweepStmt] at hextra ⊢
      simp only [directNames, flatMap_append, append_subset] at hextra
      rw [BlockScoped, BlockScoped, Stmt.Scoped]
      refine ⟨⟨mem_append_right _ hscope.1, ?_, ?_⟩, trivial⟩
      · exact sweepBlock_scoped depth t nested nested values loops extra hblocks.branches.1
          hscope.2.1 hextra.1
      · exact sweepBlock_scoped depth f nested nested values loops extra hblocks.branches.2
          hscope.2.2 hextra.2
  | .loop name kind operands body, rest, blocked, nested, values, loops, extra, _, hscope, _ => by
    rw [Stmt.Scoped] at hscope
    have hblocks := blocks_body config depth body
    have hmoved := moved_plains config (depth + 1) hblocks hscope.2
    have hkept := sweepBlock_scoped (depth + 1) body _ _ values (name :: loops) _ hblocks hscope.2
      (List.Subset.refl _)
    rw [sweepStmt, blockScoped_append, BlockScoped, BlockScoped, Stmt.Scoped]
    refine ⟨plains_scoped (subset_append_right _ _) _ hmoved, ⟨?_, ?_⟩, trivial⟩
    · exact fun x hx => mem_append_right _ (mem_append_right _ (hscope.1 hx))
    · refine hkept.mono ?_ (List.Subset.refl _)
      intro x hx
      rcases mem_append.1 hx with hx | hx
      · exact mem_append_left _ hx
      · exact mem_append_right _ (mem_append_right _ hx)

theorem sweepBlock_scoped (depth : ℕ) : ∀ (block : List (Stmt S (Kind C)))
    (blocked nested : Option (List S)) (values loops extra : List S), Blocks block blocked nested →
    BlockScoped values loops block →
    directNames (sweepBlock config depth blocked nested block).moved ⊆ extra →
    BlockScoped (extra ++ values) loops (sweepBlock config depth blocked nested block).kept
  | [], _, _, _, _, _, _, _, _ => by
    rw [sweepBlock, BlockScoped]
    trivial
  | stmt :: rest, blocked, nested, values, loops, extra, hblocks, hscope, hextra => by
    rw [BlockScoped] at hscope
    rw [sweepBlock] at hextra ⊢
    simp only [Swept.append, directNames, flatMap_append, append_subset] at hextra
    have hstmt := sweepStmt_scoped depth stmt rest blocked nested values loops extra hblocks
      hscope.1 hextra.1
    have hrest := sweepBlock_scoped depth rest blocked nested _ loops extra hblocks.tail hscope.2
      hextra.2
    simp only [Swept.append, blockScoped_append]
    refine ⟨hstmt, hrest.mono ?_ (List.Subset.refl _)⟩
    have hvalue := sweepStmt_value config depth stmt blocked nested
    intro x hx
    rcases mem_append.1 hx with hx | hx
    · exact mem_append_right _ (mem_append_left _ hx)
    · rcases mem_append.1 hx with hx | hx
      · rcases mem_append.1 (hvalue hx) with hx | hx
        · exact mem_append_left _ hx
        · exact mem_append_right _ (mem_append_left _ (hextra.1 hx))
      · exact mem_append_right _ (mem_append_right _ hx)

end

end Scopes

section Depths

variable [DecidableEq S]

omit [DecidableEq S] in
theorem blockDepths_append (depth : ℕ) (block rest : List (Stmt S (Kind C))) :
    blockDepths depth (block ++ rest) = blockDepths depth block + blockDepths depth rest := by
  induction block with
  | nil => simp [blockDepths]
  | cons stmt block ih =>
    rw [cons_append, blockDepths, blockDepths, ih, Nat.add_assoc]

omit [DecidableEq S] in
theorem blockDepths_plains (depth : ℕ) (block : List (Stmt S (Kind C)))
    (h : ∀ stmt ∈ block, ∃ name kind operands, stmt = .plain name kind operands ∧
      kind.movable config = true) :
    blockDepths (depth + 1) block = blockDepths depth block + (directNames block).length := by
  induction block with
  | nil => rfl
  | cons stmt block ih =>
    obtain ⟨name, kind, operands, rfl, -⟩ := h stmt mem_cons_self
    have hrest := ih fun other hother => h other (mem_cons_of_mem _ hother)
    rw [blockDepths, blockDepths, directNames_cons, stmtDepths, stmtDepths]
    simp only [Stmt.value, length_append, length_singleton]
    omega

mutual

theorem sweepStmt_depths (depth : ℕ) : ∀ (stmt : Stmt S (Kind C))
    (blocked nested : Option (List S)),
    blockDepths depth (sweepStmt config depth blocked nested stmt).moved +
      blockDepths depth (sweepStmt config depth blocked nested stmt).kept +
      (sweepStmt config depth blocked nested stmt).inner.length = stmtDepths depth stmt
  | .plain name kind operands, blocked, nested => by
    cases blocked with
    | none => simp [sweepStmt, blockDepths, stmtDepths]
    | some names =>
      simp only [sweepStmt]
      split <;> simp [blockDepths, stmtDepths]
  | .loopIndex name loop axis, blocked, nested => by
    simp [sweepStmt, blockDepths, stmtDepths]
  | .ifStmt name cond t f, blocked, nested => by
    have ht := sweepBlock_depths depth t nested nested
    have hf := sweepBlock_depths depth f nested nested
    simp only [sweepStmt, blockDepths_append, blockDepths, stmtDepths, length_append]
    omega
  | .loop name kind operands body, blocked, nested => by
    have hbody := sweepBlock_depths (depth + 1) body
      (if 1 ≤ depth then some (directNames body) else none)
      (if 1 ≤ depth ∧ config.moveLoopInvariantOutsideIf then some (blockNames body) else none)
    have hmoved := blockDepths_plains config depth _ (sweepBlock_plain config (depth + 1) body
      (if 1 ≤ depth then some (directNames body) else none)
      (if 1 ≤ depth ∧ config.moveLoopInvariantOutsideIf then some (blockNames body) else none))
    rw [hmoved] at hbody
    simp only [sweepStmt, blockDepths_append, blockDepths, stmtDepths, length_append]
    omega

theorem sweepBlock_depths (depth : ℕ) : ∀ (block : List (Stmt S (Kind C)))
    (blocked nested : Option (List S)),
    blockDepths depth (sweepBlock config depth blocked nested block).moved +
      blockDepths depth (sweepBlock config depth blocked nested block).kept +
      (sweepBlock config depth blocked nested block).inner.length = blockDepths depth block
  | [], _, _ => by simp [sweepBlock, blockDepths]
  | stmt :: rest, blocked, nested => by
    have hstmt := sweepStmt_depths depth stmt blocked nested
    have hrest := sweepBlock_depths depth rest blocked nested
    simp only [sweepBlock, Swept.append, blockDepths_append, blockDepths, length_append]
    omega

end

end Depths

section Deep

theorem deepNames_append (depth : ℕ) (block rest : List (Stmt S (Kind C))) :
    deepNames config depth (block ++ rest) = deepNames config depth block ++
      deepNames config depth rest := by
  induction block with
  | nil => simp [deepNames]
  | cons stmt block ih => rw [cons_append, deepNames, deepNames, ih, append_assoc]

theorem deepNames_plains (depth : ℕ) (block : List (Stmt S (Kind C)))
    (h : ∀ stmt ∈ block, ∃ name kind operands, stmt = .plain name kind operands ∧
      kind.movable config = true) : deepNames config depth block ⊆ directNames block := by
  induction block with
  | nil => exact nil_subset _
  | cons stmt block ih =>
    obtain ⟨name, kind, operands, rfl, -⟩ := h stmt mem_cons_self
    have hrest := ih fun other hother => h other (mem_cons_of_mem _ hother)
    rw [deepNames, stmtDeepNames, directNames_cons, append_subset]
    refine ⟨?_, List.Subset.trans hrest (subset_append_right _ _)⟩
    split
    · exact subset_append_left _ _
    · exact nil_subset _

variable [DecidableEq S]

mutual

theorem sweepStmt_movedNames {depth : ℕ} (hdepth : 2 ≤ depth) : ∀ (stmt : Stmt S (Kind C))
    (blocked nested : Option (List S)),
    directNames (sweepStmt config depth blocked nested stmt).moved ⊆ stmtDeepNames config depth stmt
  | .plain name kind operands, blocked, nested => by
    cases blocked with
    | none => simp [sweepStmt, directNames]
    | some names =>
      simp only [sweepStmt]
      split
      · next h =>
          rw [Bool.and_eq_true_iff] at h
          rw [stmtDeepNames, if_pos ⟨hdepth, h.1⟩]
          exact List.Subset.refl _
      · exact nil_subset _
  | .loopIndex name loop axis, blocked, nested => by
    rw [sweepStmt]
    exact nil_subset _
  | .ifStmt name cond t f, blocked, nested => by
    have ht := sweepBlock_movedNames hdepth t nested nested
    have hf := sweepBlock_movedNames hdepth f nested nested
    rw [sweepStmt, stmtDeepNames]
    simp only [directNames, flatMap_append]
    exact append_subset.2 ⟨fun x hx => mem_append_left _ (ht hx),
      fun x hx => mem_append_right _ (hf hx)⟩
  | .loop name kind operands body, blocked, nested => by
    rw [sweepStmt]
    exact nil_subset _

theorem sweepBlock_movedNames {depth : ℕ} (hdepth : 2 ≤ depth) : ∀ (block : List (Stmt S (Kind C)))
    (blocked nested : Option (List S)),
    directNames (sweepBlock config depth blocked nested block).moved ⊆ deepNames config depth block
  | [], _, _ => by
    rw [sweepBlock]
    exact nil_subset _
  | stmt :: rest, blocked, nested => by
    have hstmt := sweepStmt_movedNames hdepth stmt blocked nested
    have hrest := sweepBlock_movedNames hdepth rest blocked nested
    rw [sweepBlock, deepNames]
    simp only [Swept.append, directNames, flatMap_append]
    exact append_subset.2 ⟨fun x hx => mem_append_left _ (hstmt hx),
      fun x hx => mem_append_right _ (hrest hx)⟩

end

theorem body_movedNames (depth : ℕ) (body : List (Stmt S (Kind C))) :
    directNames (sweepBlock config (depth + 1) (if 1 ≤ depth then some (directNames body) else none)
      (if 1 ≤ depth ∧ config.moveLoopInvariantOutsideIf then some (blockNames body) else none)
      body).moved ⊆ deepNames config (depth + 1) body := by
  by_cases hdepth : 1 ≤ depth
  · exact sweepBlock_movedNames config (by omega) body _ _
  · rw [if_neg hdepth, if_neg fun h => hdepth h.1, sweepBlock_none]
    exact nil_subset _

mutual

theorem sweepStmt_deepNames (depth : ℕ) : ∀ (stmt : Stmt S (Kind C))
    (blocked nested : Option (List S)),
    deepNames config depth (sweepStmt config depth blocked nested stmt).kept ⊆
        stmtDeepNames config depth stmt ∧
      (sweepStmt config depth blocked nested stmt).inner ⊆ stmtDeepNames config depth stmt
  | .plain name kind operands, blocked, nested => by
    cases blocked with
    | none => simp [sweepStmt, deepNames]
    | some names =>
      simp only [sweepStmt]
      split <;> simp [deepNames]
  | .loopIndex name loop axis, blocked, nested => by
    simp [sweepStmt, deepNames]
  | .ifStmt name cond t f, blocked, nested => by
    have ht := sweepBlock_deepNames depth t nested nested
    have hf := sweepBlock_deepNames depth f nested nested
    rw [sweepStmt, deepNames, deepNames, append_nil, stmtDeepNames, stmtDeepNames]
    constructor
    · exact append_subset.2 ⟨fun x hx => mem_append_left _ (ht.1 hx),
        fun x hx => mem_append_right _ (hf.1 hx)⟩
    · exact append_subset.2 ⟨fun x hx => mem_append_left _ (ht.2 hx),
        fun x hx => mem_append_right _ (hf.2 hx)⟩
  | .loop name kind operands body, blocked, nested => by
    have hbody := sweepBlock_deepNames (depth + 1) body
      (if 1 ≤ depth then some (directNames body) else none)
      (if 1 ≤ depth ∧ config.moveLoopInvariantOutsideIf then some (blockNames body) else none)
    have hmoved := body_movedNames config depth body
    have hplains := deepNames_plains config depth _ (sweepBlock_plain config (depth + 1) body
      (if 1 ≤ depth then some (directNames body) else none)
      (if 1 ≤ depth ∧ config.moveLoopInvariantOutsideIf then some (blockNames body) else none))
    rw [sweepStmt, deepNames_append, deepNames, deepNames, append_nil, stmtDeepNames, stmtDeepNames]
    exact ⟨append_subset.2 ⟨List.Subset.trans hplains hmoved, hbody.1⟩,
      append_subset.2 ⟨hbody.2, hmoved⟩⟩

theorem sweepBlock_deepNames (depth : ℕ) : ∀ (block : List (Stmt S (Kind C)))
    (blocked nested : Option (List S)),
    deepNames config depth (sweepBlock config depth blocked nested block).kept ⊆
        deepNames config depth block ∧
      (sweepBlock config depth blocked nested block).inner ⊆ deepNames config depth block
  | [], _, _ => by
    rw [sweepBlock]
    exact ⟨List.Subset.refl _, nil_subset _⟩
  | stmt :: rest, blocked, nested => by
    have hstmt := sweepStmt_deepNames depth stmt blocked nested
    have hrest := sweepBlock_deepNames depth rest blocked nested
    rw [sweepBlock, deepNames]
    simp only [Swept.append, deepNames_append]
    constructor
    · exact append_subset.2 ⟨fun x hx => mem_append_left _ (hstmt.1 hx),
        fun x hx => mem_append_right _ (hrest.1 hx)⟩
    · exact append_subset.2 ⟨fun x hx => mem_append_left _ (hstmt.2 hx),
        fun x hx => mem_append_right _ (hrest.2 hx)⟩

end

end Deep

end Quadrants.Simplify.LoopInvariant
