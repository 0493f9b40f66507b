import Quadrants.AutoDiff.IndependentBlocks

/-!
Which blocks `identify_independent_blocks` returns, and when they cover the code once.
-/

namespace Quadrants.AutoDiff.IndependentBlocks

open Library.BlockTree List

variable {root : List (Stmt Access)}

section Verdicts

theorem metaData_cases (p : Path) (block : List (Stmt Access)) :
    (metaData p block).isSmallestIb = true ∧ (metaData p block).isIb = true ∨
      (metaData p block).isSmallestIb = false := by
  rw [metaData]
  split_ifs
  · exact Or.inl ⟨rfl, rfl⟩
  · rw [judge]
    cases hib : !((visitFrom p 0 block).foldl Judger.visit {}).touchedAllocas.any
      fun home => decide (home <+: p ∧ home ≠ p) with
    | false => exact Or.inr (by rw [Bool.false_and])
    | true => exact (Bool.eq_false_or_eq_true _).imp (fun h => ⟨h, rfl⟩) id

variable {p : Path}

theorem Smallest.not_open (h : Smallest root p) : ¬ Open root p := by
  rintro ⟨block, hblock, hnot, -⟩
  obtain ⟨block', hblock', hsmallest⟩ := h
  obtain rfl := Option.some.inj (hblock.symm.trans hblock')
  rw [hsmallest] at hnot
  exact absurd hnot (by decide)

theorem NotIb.not_open (h : NotIb root p) : ¬ Open root p := by
  rintro ⟨block, hblock, -, hib⟩
  obtain ⟨block', hblock', hnot⟩ := h
  obtain rfl := Option.some.inj (hblock.symm.trans hblock')
  rw [hib] at hnot
  exact absurd hnot (by decide)

theorem Smallest.not_notIb (h : Smallest root p) : ¬ NotIb root p := by
  rintro ⟨block, hblock, hnot⟩
  obtain ⟨block', hblock', hsmallest⟩ := h
  obtain rfl := Option.some.inj (hblock.symm.trans hblock')
  rcases metaData_cases p block with ⟨-, hib⟩ | hsmallest'
  · rw [hib] at hnot
    exact absurd hnot (by decide)
  · rw [hsmallest] at hsmallest'
    exact absurd hsmallest' (by decide)

theorem verdict_cases {block : List (Stmt Access)} (h : blockAt root p = some block) :
    Smallest root p ∨ Open root p ∨ NotIb root p := by
  cases hsmallest : (metaData p block).isSmallestIb with
  | true => exact Or.inl ⟨block, h, hsmallest⟩
  | false =>
    cases hib : (metaData p block).isIb with
    | true => exact Or.inr (Or.inl ⟨block, h, hsmallest, hib⟩)
    | false => exact Or.inr (Or.inr ⟨block, h, hib⟩)

end Verdicts

section Walk

def Handed (root : List (Stmt Access)) (q p : Path) : Prop :=
  Smallest root q ∧ p = q ∨
    NotIb root q ∧ (loopDepth q = 1 ∧ p = q ∨ 1 < loopDepth q ∧ ∃ step, q = p ++ [step])

variable {depth : ℕ} {path : Path} {block : List (Stmt Access)} {e : ℕ × Path}

theorem mem_identifyFrom {index : ℕ} : e ∈ identifyFrom depth path index block ↔
      ∃ (i : ℕ) (s : Stmt Access), block[i]? = some s ∧
        e ∈ identifyStmt depth path (index + i) s := by
  induction block generalizing index with
  | nil => simp [identifyFrom]
  | cons s rest ih =>
    rw [identifyFrom, mem_append, ih]
    constructor
    · rintro (h | ⟨i, t, ht, h⟩)
      · exact ⟨0, s, rfl, h⟩
      · exact ⟨i + 1, t, ht, by rwa [← Nat.add_assoc, Nat.add_right_comm]⟩
    · rintro ⟨i, t, ht, h⟩
      cases i with
      | zero =>
        rw [List.getElem?_cons_zero] at ht
        exact Or.inl (Option.some.inj ht ▸ h)
      | succ i => exact Or.inr ⟨i, t, ht, by rwa [Nat.add_right_comm, Nat.add_assoc]⟩

def visitLoopBody (depth : ℕ) (path inner : Path) (body : List (Stmt Access)) : List (ℕ × Path) :=
  if (metaData inner body).isSmallestIb then [(depth + 1, inner)]
  else if (metaData inner body).isIb then identifyFrom (depth + 1) inner 0 body
  else if depth + 1 ≤ 1 then [(depth, inner)]
  else [(depth, path)]

theorem mem_identify_iff : e ∈ identifyFrom depth path 0 block ↔
      ∃ step inner, child block step = some inner ∧
        (step.branch = .body ∧ e ∈ visitLoopBody depth path (path ++ [step]) inner ∨
          step.branch ≠ .body ∧ e ∈ identifyFrom depth (path ++ [step]) 0 inner) := by
  rw [mem_identifyFrom]
  simp only [Nat.zero_add]
  constructor
  · rintro ⟨i, s, hs, h⟩
    have hpart : ∀ branch inner, s.part branch = some inner →
        child block ⟨i, branch⟩ = some inner := by
      intro branch inner hinner
      simp [child, hs, hinner]
    cases s with
    | leaf a => exact absurd h not_mem_nil
    | ifStmt trueStatements falseStatements =>
      rw [identifyStmt, mem_append] at h
      rcases h with h | h
      · exact ⟨⟨i, .trueStatements⟩, _, hpart _ _ rfl, Or.inr ⟨by simp, h⟩⟩
      · exact ⟨⟨i, .falseStatements⟩, _, hpart _ _ rfl, Or.inr ⟨by simp, h⟩⟩
    | loop body => exact ⟨⟨i, .body⟩, body, hpart _ _ rfl, Or.inl ⟨rfl, h⟩⟩
  · rintro ⟨⟨i, branch⟩, inner, hchild, h⟩
    obtain ⟨s, hs, hpart⟩ := Option.bind_eq_some_iff.1 hchild
    refine ⟨i, s, hs, ?_⟩
    cases s with
    | leaf a => cases branch <;> cases hpart
    | ifStmt trueStatements falseStatements =>
      rw [identifyStmt, mem_append]
      cases branch with
      | trueStatements =>
        obtain rfl := Option.some.inj hpart
        exact Or.inl (h.resolve_left fun h => absurd h.1 (by simp)).2
      | falseStatements =>
        obtain rfl := Option.some.inj hpart
        exact Or.inr (h.resolve_left fun h => absurd h.1 (by simp)).2
      | body => cases hpart
    | loop body =>
      cases branch with
      | body =>
        obtain rfl := Option.some.inj hpart
        exact (h.resolve_right fun h => absurd rfl h.1).2
      | trueStatements => cases hpart
      | falseStatements => cases hpart

theorem mem_visitLoopBody {step : Step} {inner : List (Stmt Access)} {p : Path}
    (hbody : step.branch = .body) (hinner : blockAt root (path ++ [step]) = some inner)
    (hdepth : depth = loopDepth path) :
    (∃ d, (d, p) ∈ visitLoopBody depth path (path ++ [step]) inner) ↔
      Handed root (path ++ [step]) p ∨
        Open root (path ++ [step]) ∧
          ∃ d, (d, p) ∈ identifyFrom (depth + 1) (path ++ [step]) 0 inner := by
  have hdepth' : loopDepth (path ++ [step]) = depth + 1 := by
    rw [loopDepth_append, loopDepth_singleton, if_pos hbody, hdepth]
  rw [visitLoopBody]
  split_ifs with hsmallest hib htop
  · have hs : Smallest root (path ++ [step]) := ⟨inner, hinner, hsmallest⟩
    simp [Handed, hs, hs.not_notIb, hs.not_open]
  · have ho : Open root (path ++ [step]) := ⟨inner, hinner, by simpa using hsmallest, hib⟩
    have hs : ¬ Smallest root (path ++ [step]) := fun h => h.not_open ho
    have hn : ¬ NotIb root (path ++ [step]) := fun h => h.not_open ho
    simp [Handed, hs, hn, ho]
  · have hn : NotIb root (path ++ [step]) := ⟨inner, hinner, by simpa using hib⟩
    have hs : ¬ Smallest root (path ++ [step]) := fun h => h.not_notIb hn
    have hone : loopDepth (path ++ [step]) = 1 := by omega
    simp [Handed, hn, hn.not_open, hone]
  · have hn : NotIb root (path ++ [step]) := ⟨inner, hinner, by simpa using hib⟩
    have hs : ¬ Smallest root (path ++ [step]) := fun h => h.not_notIb hn
    have hone : loopDepth (path ++ [step]) ≠ 1 := by omega
    have hlt : 1 < loopDepth (path ++ [step]) := by omega
    have hlast : (∃ last, path ++ [step] = p ++ [last]) ↔ p = path := by
      constructor
      · rintro ⟨last, heq⟩
        exact (append_inj' heq rfl).1.symm
      · rintro rfl
        exact ⟨step, rfl⟩
    simp only [mem_singleton, Prod.mk.injEq, exists_eq_left, Handed, hs, hn, hn.not_open,
      hone, hlt, hlast, true_and, false_and, or_false, false_or]

theorem identifyFrom_iff {p : Path} (hblock : blockAt root path = some block)
    (hopen : ∀ q, q <+: path → IsBody q → Open root q) (hdepth : depth = loopDepth path) :
    (∃ d, (d, p) ∈ identifyFrom depth path 0 block) ↔
      ∃ q, path <+: q ∧ q ≠ path ∧ Reached root q ∧ Handed root q p := by
  induction block using block_induction generalizing path depth with
  | h block ih =>
    have hchildAt : ∀ step inner, child block step = some inner →
        blockAt root (path ++ [step]) = some inner := by
      intro step inner hchild
      rw [blockAt_append, hblock, Option.bind_some, blockAt_cons, hchild]
      rfl
    have hnext : ∀ step, (step.branch = .body → Open root (path ++ [step])) →
        ∀ q, q <+: path ++ [step] → IsBody q → Open root q := by
      intro step hstep q hq hbody
      rcases prefix_concat_iff.1 hq with rfl | hq
      · exact hstep (isBody_append_singleton.1 hbody)
      · exact hopen q hq hbody
    have hdepth' : ∀ step, step.branch = .body → depth + 1 = loopDepth (path ++ [step]) := by
      intro step hbody
      rw [loopDepth_append, loopDepth_singleton, if_pos hbody, hdepth]
    have hdepth'' : ∀ step, step.branch ≠ .body → depth = loopDepth (path ++ [step]) := by
      intro step hbody
      rw [loopDepth_append, loopDepth_singleton, if_neg hbody, hdepth, Nat.add_zero]
    have hlonger : ∀ step q, path ++ [step] <+: q → path <+: q ∧ q ≠ path := by
      intro step q hq
      refine ⟨(prefix_append _ _).trans hq, ?_⟩
      rintro rfl
      have := hq.length_le
      rw [length_append, length_singleton] at this
      omega
    constructor
    · rintro ⟨d, hd⟩
      obtain ⟨step, inner, hchild, ⟨hbody, h⟩ | ⟨hbody, h⟩⟩ := mem_identify_iff.1 hd
      · have hinner := hchildAt step inner hchild
        rcases (mem_visitLoopBody hbody hinner hdepth).1 ⟨d, h⟩ with hhanded | ⟨hopen', h⟩
        · obtain ⟨hpre, hne⟩ := hlonger step _ (prefix_refl _)
          refine ⟨path ++ [step], hpre, hne, ⟨isBody_append_singleton.2 hbody, ⟨inner, hinner⟩,
            fun q hq hqne hqbody => ?_⟩, hhanded⟩
          exact hopen q ((prefix_concat_iff.1 hq).resolve_left hqne) hqbody
        · obtain ⟨q, hq, -, hreached⟩ := (ih step inner hchild hinner
            (hnext step fun _ => hopen') (hdepth' step hbody)).1 h
          exact ⟨q, (hlonger step q hq).1, (hlonger step q hq).2, hreached⟩
      · obtain ⟨q, hq, -, hreached⟩ := (ih step inner hchild (hchildAt step inner hchild)
          (hnext step fun h => absurd h hbody) (hdepth'' step hbody)).1 ⟨d, h⟩
        exact ⟨q, (hlonger step q hq).1, (hlonger step q hq).2, hreached⟩
    · rintro ⟨q, ⟨rest, rfl⟩, hne, hreached, hhanded⟩
      cases rest with
      | nil => exact absurd (append_nil path) hne
      | cons step rest =>
        obtain ⟨found, hfound⟩ := hreached.exists_block
        rw [blockAt_append, hblock, Option.bind_some, blockAt_cons] at hfound
        obtain ⟨inner, hchild, -⟩ := Option.bind_eq_some_iff.1 hfound
        have hinner := hchildAt step inner hchild
        have hpre : path ++ [step] <+: path ++ step :: rest :=
          ⟨rest, (append_cons ..).symm⟩
        by_cases hbody : step.branch = .body
        · cases rest with
          | nil =>
            obtain ⟨d, hd⟩ := (mem_visitLoopBody hbody hinner hdepth).2 (Or.inl hhanded)
            exact ⟨d, mem_identify_iff.2 ⟨step, inner, hchild, Or.inl ⟨hbody, hd⟩⟩⟩
          | cons next rest =>
            have hshorter : path ++ [step] ≠ path ++ step :: next :: rest := by
              intro heq
              have := congrArg List.length heq
              simp at this
            have hopen' := hreached.around _ hpre hshorter (isBody_append_singleton.2 hbody)
            have hmem := (ih step inner hchild hinner (hnext step fun _ => hopen')
              (hdepth' step hbody)).2 ⟨_, hpre, hshorter.symm, hreached, hhanded⟩
            obtain ⟨d, hd⟩ :=
              (mem_visitLoopBody hbody hinner hdepth).2 (Or.inr ⟨hopen', hmem⟩)
            exact ⟨d, mem_identify_iff.2 ⟨step, inner, hchild, Or.inl ⟨hbody, hd⟩⟩⟩
        · have hshorter : path ++ step :: rest ≠ path ++ [step] := by
            intro heq
            rw [heq] at hreached
            exact hbody (isBody_append_singleton.1 hreached.isBody)
          obtain ⟨d, hd⟩ := (ih step inner hchild hinner (hnext step fun h => absurd h hbody)
            (hdepth'' step hbody)).2 ⟨_, hpre, hshorter, hreached, hhanded⟩
          exact ⟨d, mem_identify_iff.2 ⟨step, inner, hchild, Or.inr ⟨hbody, hd⟩⟩⟩

end Walk

section Cleaner

variable {p : Path}

theorem mem_foldl_erase {children : Path → List Path} {blocks : List Path}
    (htrans : ∀ p q r, q ∈ children p → r ∈ children q → r ∈ children p) {es : List Path}
    (hes : ∀ q ∈ es, q ∈ blocks) : p ∈ es.foldl (fun cleaned q =>
        if q ∈ cleaned then cleaned.filter fun r => r ∉ children q else cleaned) blocks ↔
      p ∈ blocks ∧ ∀ q ∈ es, p ∉ children q := by
  induction es using List.reverseRecOn generalizing p with
  | nil => simp
  | append_singleton es q ih =>
    rw [forall_mem_append, forall_mem_singleton] at hes
    rw [foldl_append, foldl_cons, foldl_nil, forall_mem_append, forall_mem_singleton]
    split_ifs with hq
    · rw [mem_filter, ih hes.1, decide_eq_true_eq, and_assoc]
    · rw [ih hes.1]
      refine and_congr_right fun hp => ⟨fun h => ⟨h, fun hpq => ?_⟩, fun h => h.1⟩
      -- some block has erased `q`
      have herased : ∃ r ∈ es, q ∈ children r := by
        by_contra hnone
        push Not at hnone
        exact hq ((ih hes.1).2 ⟨hes.2, hnone⟩)
      obtain ⟨r, hr, hqr⟩ := herased
      exact h r hr (htrans r q p hqr hpq)

theorem mem_childrenIb {q : Path} (hp : ∃ block, blockAt root p = some block) :
    q ∈ childrenIb root p ↔
      p <+: q ∧ q ≠ p ∧ IsBody q ∧ ∃ block, blockAt root q = some block := by
  obtain ⟨block, hblock⟩ := hp
  have hmem : q ∈ childrenIb root p ↔ .enterLoop q ∈ visitFrom p 0 block := by
    rw [childrenIb, hblock, mem_filterMap]
    constructor
    · rintro ⟨e, he, heq⟩
      rcases e with ⟨loc, a⟩ | body | _
      · exact absurd heq nofun
      · obtain rfl := Option.some.inj heq
        exact he
      · exact absurd heq nofun
    · exact fun h => ⟨_, h, rfl⟩
  rw [hmem, enterLoop_mem_visit]
  constructor
  · rintro ⟨rest, inner, rfl, ⟨front, index, rfl⟩, hinner⟩
    refine ⟨prefix_append _ _, ?_, ⟨p ++ front, index, (append_assoc ..).symm⟩, inner, ?_⟩
    · intro heq
      have := congrArg List.length heq
      simp at this
    · rw [blockAt_append, hblock]
      exact hinner
  · rintro ⟨⟨rest, rfl⟩, hne, ⟨front, index, heq⟩, inner, hinner⟩
    rw [blockAt_append, hblock] at hinner
    refine ⟨rest, inner, rfl, ?_, hinner⟩
    rcases eq_nil_or_concat' rest with rfl | ⟨rest, last, rfl⟩
    · exact absurd (append_nil p) hne
    · rw [← append_assoc] at heq
      obtain ⟨-, hlast⟩ := append_inj' heq rfl
      rw [isBody_append_singleton, (List.cons.inj hlast).1]

theorem childrenIb_trans (p q r : Path) (hq : q ∈ childrenIb root p)
    (hr : r ∈ childrenIb root q) : r ∈ childrenIb root p := by
  have hp : ∃ block, blockAt root p = some block := by
    cases hblock : blockAt root p with
    | none =>
      rw [childrenIb, hblock] at hq
      exact absurd hq not_mem_nil
    | some block => exact ⟨block, rfl⟩
  obtain ⟨hpq, hne, -, hblock⟩ := (mem_childrenIb hp).1 hq
  obtain ⟨hqr, hne', hbody, hblock'⟩ := (mem_childrenIb hblock).1 hr
  refine (mem_childrenIb hp).2 ⟨hpq.trans hqr, ?_, hbody, hblock'⟩
  rintro rfl
  exact hne (hqr.eq_of_length_le hpq.length_le)

theorem mem_cleanIbs {blocks : List Path}
    (hblocks : ∀ p ∈ blocks, ∃ block, blockAt root p = some block) :
    p ∈ cleanIbs root blocks ↔ p ∈ blocks ∧ ∀ q ∈ blocks, p ∉ childrenIb root q := by
  rw [cleanIbs]
  split_ifs with hlength
  · exact mem_foldl_erase childrenIb_trans fun q hq => hq
  · refine ⟨fun hp => ⟨hp, fun q hq hchild => ?_⟩, fun h => h.1⟩
    have heq : q = p := by
      match blocks, hlength with
      | [], _ => exact absurd hp not_mem_nil
      | [r], _ => rw [mem_singleton.1 hp, mem_singleton.1 hq]
      | _ :: _ :: rest, hlength => simp at hlength
    subst heq
    exact ((mem_childrenIb (hblocks q hq)).1 hchild).2.1 rfl

end Cleaner

section Handing

variable {p q : Path}

def Raw (root : List (Stmt Access)) (p : Path) : Prop :=
  ∃ q, Reached root q ∧ Handed root q p

theorem raw_iff : Raw root p ↔
    Reached root p ∧ (Smallest root p ∨ NotIb root p ∧ loopDepth p = 1) ∨ Widened root p := by
  constructor
  · rintro ⟨q, hq, ⟨hsmallest, rfl⟩ | ⟨hnot, ⟨hone, rfl⟩ | ⟨hlt, step, rfl⟩⟩⟩
    · exact Or.inl ⟨hq, Or.inl hsmallest⟩
    · exact Or.inl ⟨hq, Or.inr ⟨hnot, hone⟩⟩
    · obtain ⟨index, branch⟩ := step
      obtain rfl : branch = .body := isBody_append_singleton.1 hq.isBody
      rw [loopDepth_append, loopDepth_singleton, if_pos rfl] at hlt
      exact Or.inr ⟨index, hq, hnot, by omega⟩
  · rintro (⟨hp, hsmallest | ⟨hnot, hone⟩⟩ | ⟨index, hq, hnot, hpos⟩)
    · exact ⟨p, hp, Or.inl ⟨hsmallest, rfl⟩⟩
    · exact ⟨p, hp, Or.inr ⟨hnot, Or.inl ⟨hone, rfl⟩⟩⟩
    · refine ⟨_, hq, Or.inr ⟨hnot, Or.inr ⟨?_, _, rfl⟩⟩⟩
      rw [loopDepth_append, loopDepth_singleton, if_pos rfl]
      omega

theorem Widened.around (h : Widened root p) (hqp : q <+: p) (hq : IsBody q) : Open root q := by
  obtain ⟨index, hreached, -, -⟩ := h
  refine hreached.around q (hqp.trans (prefix_append _ _)) ?_ hq
  intro heq
  have := hqp.length_le
  rw [heq, length_append, length_singleton] at this
  omega

theorem Raw.exists_block (h : Raw root p) : ∃ block, blockAt root p = some block := by
  rcases raw_iff.1 h with ⟨hp, -⟩ | ⟨index, hp, -, -⟩
  · exact hp.exists_block
  · obtain ⟨block, hblock⟩ := hp.exists_block
    exact exists_blockAt_of_prefix (prefix_append _ _) hblock

theorem Raw.widened_of_prefix (hp : Raw root p) (hq : Raw root q) (hpq : p <+: q) (hne : p ≠ q) :
    Widened root p := by
  refine (raw_iff.1 hp).resolve_left ?_
  rintro ⟨hreached, hclosed⟩
  have hopen : Open root p := by
    rcases raw_iff.1 hq with ⟨hq, -⟩ | hq
    · exact hq.around p hpq hne hreached.isBody
    · exact hq.around hpq hreached.isBody
  rcases hclosed with hsmallest | ⟨hnot, -⟩
  · exact hsmallest.not_open hopen
  · exact hnot.not_open hopen

theorem Reached.exists_raw (h : Reached root q) (hclosed : ¬ Open root q) :
    ∃ p, Raw root p ∧ p <+: q := by
  obtain ⟨block, hblock⟩ := h.exists_block
  rcases verdict_cases hblock with hsmallest | hopen | hnot
  · exact ⟨q, ⟨q, h, Or.inl ⟨hsmallest, rfl⟩⟩, prefix_refl q⟩
  · exact absurd hopen hclosed
  · have hpos := h.isBody.loopDepth_pos
    by_cases hone : loopDepth q = 1
    · exact ⟨q, ⟨q, h, Or.inr ⟨hnot, Or.inl ⟨hone, rfl⟩⟩⟩, prefix_refl q⟩
    · obtain ⟨p, index, rfl⟩ := h.isBody
      exact ⟨p, ⟨_, h, Or.inr ⟨hnot, Or.inr ⟨by omega, _, rfl⟩⟩⟩, prefix_append _ _⟩

theorem exists_reached {loc : Path} (hloc : ∃ block, blockAt root loc = some block)
    (hq : q <+: loc) (hbody : IsBody q) (hclosed : ¬ Open root q) :
    ∃ r, r <+: q ∧ Reached root r ∧ ¬ Open root r := by
  induction hlen : q.length using Nat.strong_induction_on generalizing q with
  | _ n ih =>
    by_cases haround : ∀ r, r <+: q → r ≠ q → IsBody r → Open root r
    · obtain ⟨block, hblock⟩ := hloc
      exact ⟨q, prefix_refl q, ⟨hbody, exists_blockAt_of_prefix hq hblock, haround⟩, hclosed⟩
    · push Not at haround
      obtain ⟨r, hr, hne, hrbody, hrclosed⟩ := haround
      have hlt : r.length < n := by
        rw [← hlen]
        refine lt_of_le_of_ne hr.length_le fun heq => ?_
        exact hne (hr.eq_of_length heq)
      obtain ⟨s, hs, hreached⟩ := ih r.length hlt (hr.trans hq) hrbody hrclosed rfl
      exact ⟨s, hs.trans hr, hreached⟩

end Handing

section Kernels

variable {p q : Path}

variable {block : List (Stmt Access)}

theorem Open.exists_body (h : Open root p) (hblock : blockAt root p = some block) :
    ∃ rest inner, IsBody rest ∧ blockAt block rest = some inner := by
  obtain ⟨block', hblock', hsmallest, hib⟩ := h
  obtain rfl := Option.some.inj (hblock.symm.trans hblock')
  rw [metaData] at hsmallest hib
  split_ifs at hsmallest hib
  rw [judge] at hsmallest hib
  simp only at hsmallest hib
  rw [hib, Bool.true_and, Bool.or_eq_false_iff] at hsmallest
  rcases innerMostLoop_eq_false hsmallest.2 with h | ⟨body, hbody⟩
  · exact absurd h (by decide)
  · obtain ⟨rest, inner, -, hrest, hinner⟩ := enterLoop_mem_visit.1 hbody
    exact ⟨rest, inner, hrest, hinner⟩

theorem exists_closed {path : Path} (hblock : blockAt root path = some block)
    (hopen : ∀ q, q <+: path → IsBody q → Open root q)
    (hloop : ∃ rest inner, IsBody rest ∧ blockAt block rest = some inner) :
    ∃ q, Reached root q ∧ ¬ Open root q := by
  induction block using block_induction generalizing path with
  | h block ih =>
    obtain ⟨rest, found, hbody, hfound⟩ := hloop
    cases rest with
    | nil => exact absurd hbody not_isBody_nil
    | cons step rest =>
      rw [blockAt_cons] at hfound
      obtain ⟨inner, hchild, hinner⟩ := Option.bind_eq_some_iff.1 hfound
      have hinnerAt : blockAt root (path ++ [step]) = some inner := by
        rw [blockAt_append, hblock, Option.bind_some, blockAt_cons, hchild]
        rfl
      by_cases hstep : step.branch = .body
      · by_cases hstepOpen : Open root (path ++ [step])
        · refine ih step inner hchild hinnerAt ?_ (hstepOpen.exists_body hinnerAt)
          intro q hq hqbody
          rcases prefix_concat_iff.1 hq with rfl | hq
          · exact hstepOpen
          · exact hopen q hq hqbody
        · refine ⟨path ++ [step], ⟨isBody_append_singleton.2 hstep, ⟨inner, hinnerAt⟩, ?_⟩,
            hstepOpen⟩
          exact fun q hq hne hqbody =>
            hopen q ((prefix_concat_iff.1 hq).resolve_left hne) hqbody
      · refine ih step inner hchild hinnerAt ?_ ?_
        · intro q hq hqbody
          rcases prefix_concat_iff.1 hq with rfl | hq
          · exact absurd (isBody_append_singleton.1 hqbody) hstep
          · exact hopen q hq hqbody
        · rcases eq_nil_or_concat' rest with rfl | ⟨rest, last, rfl⟩
          · exact absurd (isBody_append_singleton (p := []).1 hbody) hstep
          · rw [← cons_append, isBody_append_singleton] at hbody
            exact ⟨_, found, isBody_append_singleton.2 hbody, hinner⟩

variable (k : Kernel)

theorem Kernel.exists_raw : ∃ p, Raw k.root p := by
  have hloop : ∃ rest inner, IsBody rest ∧ blockAt k.root rest = some inner := by
    obtain ⟨s, hs, hfor⟩ := any_eq_true.1 k.hasFor
    obtain ⟨i, hi⟩ := mem_iff_getElem?.1 hs
    cases s with
    | leaf a => exact absurd hfor nofun
    | ifStmt t f => exact absurd hfor nofun
    | loop body =>
      refine ⟨[⟨i, .body⟩], body, isBody_append_singleton (p := []).2 rfl, ?_⟩
      rw [blockAt_cons, child, hi]
      rfl
  have hnil : ∀ q : Path, q <+: [] → IsBody q → Open k.root q := by
    intro q hq hbody
    rw [prefix_nil.1 hq] at hbody
    exact absurd hbody not_isBody_nil
  obtain ⟨q, hq, hclosed⟩ := exists_closed rfl hnil hloop
  obtain ⟨p, hp, -⟩ := hq.exists_raw hclosed
  exact ⟨p, hp⟩

theorem Kernel.mem_identify (address : Path → ℕ) : p ∈ identifyIndependentBlocks address k.root ↔
      Raw k.root p ∧ ¬ (IsBody p ∧ ∃ q, Widened k.root q ∧ q <+: p ∧ q ≠ p) := by
  have hnil : ∀ q : Path, q <+: [] → IsBody q → Open k.root q := by
    intro q hq hbody
    rw [prefix_nil.1 hq] at hbody
    exact absurd hbody not_isBody_nil
  have hstored : ∀ p, p ∈ ((((identifyFrom 0 [] 0 k.root).insertionSort
      fun a b => a.1 ≤ b.1).map Prod.snd).dedup.insertionSort
        fun p q => address p ≤ address q) ↔ Raw k.root p := by
    intro p
    have hroot : blockAt k.root [] = some k.root := rfl
    have hwalk := identifyFrom_iff (p := p) hroot hnil (Eq.refl (loopDepth []))
    rw [mem_insertionSort, mem_dedup, mem_map]
    simp only [mem_insertionSort, Prod.exists, exists_eq_right]
    refine hwalk.trans ⟨fun ⟨q, _, _, hq⟩ => ⟨q, hq⟩, fun ⟨q, hq, hhanded⟩ => ?_⟩
    refine ⟨q, nil_prefix, ?_, hq, hhanded⟩
    rintro rfl
    exact not_isBody_nil hq.isBody
  rw [identifyIndependentBlocks, if_pos k.hasFor,
    mem_cleanIbs fun p hp => ((hstored p).1 hp).exists_block, hstored]
  refine and_congr_right fun hp => ?_
  constructor
  · rintro h ⟨hbody, q, hq, hqp, hne⟩
    have hraw : Raw k.root q := raw_iff.2 (Or.inr hq)
    exact h q ((hstored q).2 hraw)
      ((mem_childrenIb hraw.exists_block).2 ⟨hqp, hne.symm, hbody, hp.exists_block⟩)
  · intro h q hq hchild
    have hraw := (hstored q).1 hq
    obtain ⟨hqp, hne, hbody, -⟩ := (mem_childrenIb hraw.exists_block).1 hchild
    exact h ⟨hbody, q, hraw.widened_of_prefix hp hqp hne.symm, hqp, hne.symm⟩

theorem Kernel.exists_identified (address : Path → ℕ) (hp : Raw k.root p) :
    ∃ q ∈ identifyIndependentBlocks address k.root, q <+: p := by
  induction hlen : p.length using Nat.strong_induction_on generalizing p with
  | _ n ih =>
    by_cases hmem : p ∈ identifyIndependentBlocks address k.root
    · exact ⟨p, hmem, prefix_refl p⟩
    · rw [k.mem_identify, not_and, not_not] at hmem
      obtain ⟨-, q, hq, hqp, hne⟩ := hmem hp
      have hlt : q.length < n := by
        rw [← hlen]
        refine lt_of_le_of_ne hqp.length_le fun heq => ?_
        exact hne (hqp.eq_of_length heq)
      obtain ⟨r, hr, hrq⟩ := ih q.length hlt (raw_iff.2 (Or.inr hq)) rfl
      exact ⟨r, hr, hrq.trans hqp⟩

theorem exists_globalStore {loc : Path} {a : Access} (hat : LeafAt root loc a)
    (ha : a.onAdjoint = true) (hdepth : 0 < loopDepth loc)
    (hopen : ∀ q, q <+: loc → IsBody q → Open root q) :
    ∃ dest, a = .globalStore dest ∧ dest.hasAdjoint = true := by
  obtain ⟨q, rest, rfl, hbody, hrest⟩ := exists_innermost hdepth
  obtain ⟨block, hblock, hsmallest, hib⟩ := hopen q (prefix_append _ _) hbody
  have hlevel := (leafAt_append hblock).1 hat
  have hnot : ∀ ptr : GlobalPtr, ptr.hasAdjoint = true →
      ¬ (a = .globalLoad ptr ∨ a = .atomicOp ptr) := by
    intro ptr hptr hkind
    have hoff : Judger.isInsideLoop {} = false := rfl
    have hqualified := qualified_of_level q hkind hptr hlevel hrest 0 hoff
    rw [metaData] at hsmallest hib
    split_ifs at hsmallest hib
    rw [judge] at hsmallest hib
    simp only at hsmallest hib
    rw [hib, hqualified, Bool.true_or, Bool.true_and] at hsmallest
    exact absurd hsmallest (by decide)
  cases a with
  | globalStore dest => exact ⟨dest, rfl, ha⟩
  | globalLoad src => exact absurd (Or.inl rfl) (hnot src ha)
  | atomicOp dest => exact absurd (Or.inr rfl) (hnot dest ha)
  | localLoad _ => cases ha
  | localStore _ => cases ha
  | other => cases ha

theorem Kernel.touchesOutside_iff
    (hblock : blockAt k.root p = some block) (hib : (metaData p block).isIb = true) :
    TouchesOutside k.root p ↔ ∃ loc a home origin, p <+: loc ∧ LeafAt k.root loc a ∧
      a.localPtr = some (.matrixPtr home origin) ∧ p <+: home ∧ ¬ p <+: origin.allocaHome := by
  have hinside : ∀ loc a ptr, p <+: loc → LeafAt k.root loc a → a.localPtr = some ptr →
      p <+: ptr.home := by
    intro loc a ptr hloc hat hptr
    have hscoped := k.pointers_scoped loc a ptr hat hptr
    have hhome : ptr.home <+: loc := by
      cases ptr with
      | alloca home => exact hscoped
      | matrixPtr home origin => exact hscoped.1
    rcases prefix_or_prefix hloc hhome with h | h
    · exact h
    · obtain ⟨inner, rest, hinner, rfl, hrest⟩ := hat.exists_block hloc
      obtain rfl := Option.some.inj (hblock.symm.trans hinner)
      rw [metaData] at hib
      split_ifs at hib with hempty
      · -- nothing is in an empty block
        rw [List.isEmpty_iff] at hempty
        subst hempty
        cases rest with
        | nil => exact absurd (leafAt_nil.1 hrest) not_mem_nil
        | cons step rest =>
          obtain ⟨inner, hchild, -⟩ := leafAt_cons.1 hrest
          exact absurd hchild (by simp [child])
      · rw [judge_isIb.1 hib rest a ptr hrest hptr h]
  constructor
  · rintro ⟨loc, a, ptr, hloc, hat, hptr, hout⟩
    have hhome := hinside loc a ptr hloc hat hptr
    cases ptr with
    | alloca home => exact absurd hhome hout
    | matrixPtr home origin => exact ⟨loc, a, home, origin, hloc, hat, hptr, hhome, hout⟩
  · rintro ⟨loc, a, home, origin, hloc, hat, hptr, -, hout⟩
    exact ⟨loc, a, _, hloc, hat, hptr, hout⟩

end Kernels

section Result

variable {ibs : List Path}

theorem Kernel.independent_iff (k : Kernel) (address : Path → ℕ) :
    (∀ p ∈ identifyIndependentBlocks address k.root, ¬ TopLevel p → ¬ TouchesOutside k.root p) ↔
      (∀ p, IsBody p → 1 < loopDepth p → Reached k.root p ∧ Smallest k.root p ∨ Widened k.root p →
          (∀ q, Widened k.root q → q <+: p → q = p) →
            ∀ loc a home origin, p <+: loc → LeafAt k.root loc a →
              a.localPtr = some (.matrixPtr home origin) → p <+: home →
                p <+: origin.allocaHome) ∧
        ∀ p, Widened k.root p → ¬ IsBody p → ¬ TouchesOutside k.root p := by
  have hib : ∀ p, Smallest k.root p ∨ Open k.root p →
      ∃ block, blockAt k.root p = some block ∧ (metaData p block).isIb = true := by
    rintro p (⟨block, hblock, hsmallest⟩ | ⟨block, hblock, -, hib⟩)
    · refine ⟨block, hblock, ?_⟩
      rcases metaData_cases p block with h | h
      · exact h.2
      · rw [hsmallest] at h
        exact absurd h (by decide)
    · exact ⟨block, hblock, hib⟩
  constructor
  · intro h
    constructor
    · intro p hbody hdepth hstored houter loc a home origin hloc hat hptr hhome
      have hraw : Raw k.root p :=
        raw_iff.2 (hstored.imp (fun h => ⟨h.1, Or.inl h.2⟩) id)
      have hmem : p ∈ identifyIndependentBlocks address k.root :=
        (k.mem_identify address).2 ⟨hraw, fun ⟨_, q, hq, hqp, hne⟩ => hne (houter q hq hqp)⟩
      have htop : ¬ TopLevel p := by
        rintro (rfl | ⟨-, hone⟩)
        · exact not_isBody_nil hbody
        · omega
      obtain ⟨block, hblock, hib⟩ := hib p
        (hstored.imp And.right fun h => h.around (prefix_refl p) hbody)
      by_contra hout
      exact h p hmem htop ((k.touchesOutside_iff hblock hib).2
        ⟨loc, a, home, origin, hloc, hat, hptr, hhome, hout⟩)
    · intro p hp hbody
      refine h p ((k.mem_identify address).2 ⟨raw_iff.2 (Or.inr hp), fun h => hbody h.1⟩) ?_
      rintro (rfl | ⟨h, -⟩)
      · obtain ⟨-, -, -, hpos⟩ := hp
        exact absurd hpos (Nat.lt_irrefl 0)
      · exact hbody h
  · rintro ⟨hbodies, hbranches⟩ p hp htop
    obtain ⟨hraw, hmaximal⟩ := (k.mem_identify address).1 hp
    by_cases hbody : IsBody p
    · have hdepth : 1 < loopDepth p := by
        have hpos := hbody.loopDepth_pos
        have hne : loopDepth p ≠ 1 := fun h => htop (Or.inr ⟨hbody, h⟩)
        omega
      have hstored : Reached k.root p ∧ Smallest k.root p ∨ Widened k.root p := by
        refine (raw_iff.1 hraw).imp (fun h => ⟨h.1, h.2.resolve_right ?_⟩) id
        rintro ⟨-, hone⟩
        omega
      have houter : ∀ q, Widened k.root q → q <+: p → q = p := by
        intro q hq hqp
        by_contra hne
        exact hmaximal ⟨hbody, q, hq, hqp, hne⟩
      obtain ⟨block, hblock, hib⟩ := hib p
        (hstored.imp And.right fun h => h.around (prefix_refl p) hbody)
      rw [k.touchesOutside_iff hblock hib]
      rintro ⟨loc, a, home, origin, hloc, hat, hptr, hhome, hout⟩
      exact hout (hbodies p hbody hdepth hstored houter loc a home origin hloc hat hptr hhome)
    · refine hbranches p ((raw_iff.1 hraw).resolve_left ?_) hbody
      exact fun h => hbody h.1.isBody

theorem Kernel.notNested_iff (k : Kernel) (address : Path → ℕ) :
    (∀ p ∈ identifyIndependentBlocks address k.root,
      ∀ q ∈ identifyIndependentBlocks address k.root, p <+: q → p = q) ↔
        ∀ p q, Widened k.root p → Widened k.root q → p <+: q → p ≠ q → IsBody q := by
  constructor
  · intro h p q hp hq hpq hne
    by_contra hbody
    have hmem : q ∈ identifyIndependentBlocks address k.root :=
      (k.mem_identify address).2 ⟨raw_iff.2 (Or.inr hq), fun h => hbody h.1⟩
    obtain ⟨r, hr, hrp⟩ := k.exists_identified address (raw_iff.2 (Or.inr hp))
    obtain rfl := h r hr q hmem (hrp.trans hpq)
    exact hne (hpq.eq_of_length_le hrp.length_le)
  · intro h p hp q hq hpq
    by_contra hne
    obtain ⟨hraw, -⟩ := (k.mem_identify address).1 hp
    obtain ⟨hraw', hmaximal⟩ := (k.mem_identify address).1 hq
    have hwide := hraw.widened_of_prefix hraw' hpq hne
    have hbody : ¬ IsBody q := fun hbody => hmaximal ⟨hbody, p, hwide, hpq, hne⟩
    refine hbody (h p q hwide ((raw_iff.1 hraw').resolve_left ?_) hpq hne)
    exact fun h => hbody h.1.isBody

/-- The blocks cover the differentiable code once if and only if no branch of an if is taken for a
block inside of another one, no matrix pointer leads out, and every store has a block. -/
theorem identifyIndependentBlocks_coversOnce_iff (k : Kernel) (address : Path → ℕ) :
    CoversOnce k.root (identifyIndependentBlocks address k.root) ↔ WellShaped k.root := by
  constructor
  · intro h
    obtain ⟨hbodies, hbranches⟩ := (k.independent_iff address).1 h.independent
    refine ⟨(k.notNested_iff address).1 h.notNested, hbodies, hbranches, ?_⟩
    intro loc dest hat hdest hdepth hopen
    obtain ⟨p, ⟨hp, hploc⟩, -⟩ := h.once loc _ hat hdest hdepth
    refine ⟨p, ?_, hploc⟩
    refine (raw_iff.1 ((k.mem_identify address).1 hp).1).resolve_left ?_
    rintro ⟨hreached, hsmallest | ⟨hnot, -⟩⟩
    · exact hsmallest.not_open (hopen p hploc hreached.isBody)
    · exact hnot.not_open (hopen p hploc hreached.isBody)
  · intro h
    have hnested := (k.notNested_iff address).2 h.nested
    constructor
    · obtain ⟨p, hp⟩ := k.exists_raw
      obtain ⟨q, hq, -⟩ := k.exists_identified address hp
      exact ne_nil_of_mem hq
    · exact hnested
    · exact (k.independent_iff address).2 ⟨h.bodies, h.branches⟩
    · intro loc a hat ha hdepth
      have hstored : ∃ p, Raw k.root p ∧ p <+: loc := by
        by_cases hopen : ∀ q, q <+: loc → IsBody q → Open k.root q
        · obtain ⟨dest, rfl, hdest⟩ := exists_globalStore hat ha hdepth hopen
          obtain ⟨p, hp, hploc⟩ := h.stores loc dest hat hdest hdepth hopen
          exact ⟨p, raw_iff.2 (Or.inr hp), hploc⟩
        · push Not at hopen
          obtain ⟨q, hq, hbody, hclosed⟩ := hopen
          obtain ⟨inner, hinner, -⟩ := hat
          obtain ⟨r, hrq, hreached, hrclosed⟩ :=
            exists_reached ⟨inner, hinner⟩ hq hbody hclosed
          obtain ⟨p, hp, hpr⟩ := hreached.exists_raw hrclosed
          exact ⟨p, hp, hpr.trans (hrq.trans hq)⟩
      obtain ⟨p, hp, hploc⟩ := hstored
      obtain ⟨q, hq, hqp⟩ := k.exists_identified address hp
      refine ⟨q, ⟨hq, hqp.trans hploc⟩, ?_⟩
      rintro r ⟨hr, hrloc⟩
      rcases prefix_or_prefix hrloc (hqp.trans hploc) with hrq | hqr
      · exact hnested r hr q hq hrq
      · exact (hnested q hq r hr hqr).symm

theorem scoped_of_visit {root : List (Stmt Access)}
    (h : ∀ loc a ptr, .leaf loc a ∈ visitFrom [] 0 root → a.localPtr = some ptr → ptr.Scoped loc)
    (loc : Path) (a : Access) (ptr : LocalPtr) (hat : LeafAt root loc a)
    (hptr : a.localPtr = some ptr) : ptr.Scoped loc :=
  h loc a ptr (leaf_mem_visit.2 ⟨loc, rfl, hat⟩) hptr

def lostStore : Kernel where
  root := [.loop [.leaf (.globalStore (.globalPtr true)),
    .loop [.leaf (.globalLoad (.globalPtr true))]]]
  hasFor := rfl
  pointers_scoped := by
    refine scoped_of_visit fun loc a ptr hmem hptr => ?_
    simp only [visitFrom, Stmt.visit, nil_append, append_nil, cons_append,
      mem_cons, Event.leaf.injEq, reduceCtorEq, not_mem_nil, or_false, false_or] at hmem
    rcases hmem with ⟨rfl, rfl⟩ | ⟨rfl, rfl⟩ <;> exact absurd hptr nofun

def nestedBranch : Kernel where
  root := [.loop [.ifStmt [.loop [.leaf (.localStore (.alloca [⟨0, .body⟩]))]] [],
    .loop [.leaf (.localStore (.alloca [⟨0, .body⟩]))]]]
  hasFor := rfl
  pointers_scoped := by
    refine scoped_of_visit fun loc a ptr hmem hptr => ?_
    simp only [visitFrom, Stmt.visit, nil_append, append_nil, cons_append,
      mem_cons, Event.leaf.injEq, reduceCtorEq, not_mem_nil, or_false, false_or] at hmem
    rcases hmem with ⟨rfl, rfl⟩ | ⟨rfl, rfl⟩
    · obtain rfl := Option.some.inj hptr
      exact ⟨_, rfl⟩
    · obtain rfl := Option.some.inj hptr
      exact ⟨_, rfl⟩

def matrixOutside : Kernel where
  root := [.loop [.loop [.leaf
    (.localStore (.matrixPtr [⟨0, .body⟩, ⟨0, .body⟩] (.alloca [⟨0, .body⟩])))]]]
  hasFor := rfl
  pointers_scoped := by
    refine scoped_of_visit fun loc a ptr hmem hptr => ?_
    simp only [visitFrom, Stmt.visit, nil_append, append_nil, cons_append,
      mem_cons, Event.leaf.injEq, reduceCtorEq, not_mem_nil, or_false, false_or] at hmem
    obtain ⟨rfl, rfl⟩ := hmem
    obtain rfl := Option.some.inj hptr
    exact ⟨⟨[], rfl⟩, ⟨[⟨0, .body⟩], rfl⟩⟩

theorem identifyIndependentBlocks_not_coversOnce :
    ¬ CoversOnce lostStore.root (identifyIndependentBlocks (fun _ => 0) lostStore.root) ∧
      ¬ CoversOnce nestedBranch.root
        (identifyIndependentBlocks (fun _ => 0) nestedBranch.root) ∧
      ¬ CoversOnce matrixOutside.root
        (identifyIndependentBlocks (fun _ => 0) matrixOutside.root) := by
  refine ⟨fun h => ?_, fun h => ?_, fun h => ?_⟩
  · obtain ⟨p, ⟨hp, hloc⟩, -⟩ := h.once [⟨0, .body⟩] (.globalStore (.globalPtr true))
      ⟨_, rfl, by simp⟩ rfl (by decide)
    have hone : identifyIndependentBlocks (fun _ => 0) lostStore.root =
        [[⟨0, .body⟩, ⟨1, .body⟩]] := by
      decide +kernel
    rw [hone, mem_singleton] at hp
    subst hp
    exact absurd hloc.length_le (by decide)
  · have htwo : identifyIndependentBlocks (fun _ => 0) nestedBranch.root =
        [[⟨0, .body⟩, ⟨0, .trueStatements⟩], [⟨0, .body⟩]] := by
      decide +kernel
    rw [htwo] at h
    have heq := h.notNested [⟨0, .body⟩] (by simp) [⟨0, .body⟩, ⟨0, .trueStatements⟩] (by simp)
      ⟨_, rfl⟩
    exact absurd heq (by decide)
  · have hone : identifyIndependentBlocks (fun _ => 0) matrixOutside.root =
        [[⟨0, .body⟩, ⟨0, .body⟩]] := by
      decide +kernel
    rw [hone] at h
    refine h.independent _ (mem_singleton_self _) ?_ ?_
    · rintro (hnil | ⟨-, hdepth⟩)
      · exact absurd hnil nofun
      · exact absurd hdepth (by decide)
    · refine ⟨[⟨0, .body⟩, ⟨0, .body⟩], _, _, prefix_refl _,
        ⟨_, rfl, mem_singleton_self _⟩, rfl, fun hout => ?_⟩
      exact absurd hout.length_le (by decide)

end Result

end Quadrants.AutoDiff.IndependentBlocks
