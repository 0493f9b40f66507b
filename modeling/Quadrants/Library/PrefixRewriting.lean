import Mathlib.Data.List.Infix
import Mathlib.Data.Set.Finite.List
import Mathlib.Logic.Relation

/-!
Finitely many rules that rewrite the beginning of a word and change a state. What can be reached is
finite, unless the rules lead from a state and a head back to them with something left behind.
-/

namespace Quadrants.Library.PrefixRewriting

open List

structure Rule (Q α : Type) where
  source : Q
  strip : List α
  target : Q
  put : List α

variable {Q α : Type}

inductive Step (rules : List (Rule Q α)) : Q × List α → Q × List α → Prop
  | mk (rule : Rule Q α) (rest : List α) (h : rule ∈ rules) :
      Step rules (rule.source, rule.strip ++ rest) (rule.target, rule.put ++ rest)

abbrev Reach (rules : List (Rule Q α)) : Q × List α → Q × List α → Prop :=
  Relation.ReflTransGen (Step rules)

variable {rules : List (Rule Q α)} {starts : List (Q × List α)}

variable {c c' d : Q × List α} {head : List α} {q : Q}

theorem Step.append (h : Step rules c c') (tail : List α) :
    Step rules (c.1, c.2 ++ tail) (c'.1, c'.2 ++ tail) := by
  cases h with
  | mk rule rest h =>
    rw [append_assoc, append_assoc]
    exact .mk rule (rest ++ tail) h

theorem Reach.append (h : Reach rules c c') (tail : List α) :
    Reach rules (c.1, c.2 ++ tail) (c'.1, c'.2 ++ tail) := by
  induction h with
  | refl => exact .refl
  | tail _ hstep ih => exact ih.tail (hstep.append tail)

/-- Some state and head come back to themselves with something left behind, after a start. -/
def Lengthens (rules : List (Rule Q α)) (starts : List (Q × List α)) : Prop :=
  ∃ start ∈ starts, ∃ q head more tail, more ≠ [] ∧
    Reach rules start (q, head ++ tail) ∧ Reach rules (q, head) (q, head ++ more)

def heads (rules : List (Rule Q α)) (starts : List (Q × List α)) : List (Q × List α) :=
  starts.flatMap (fun c => c.2.inits.map (Prod.mk c.1)) ++
    rules.flatMap fun rule => rule.put.inits.map (Prod.mk rule.target)

theorem mem_heads : (q, head) ∈ heads rules starts ↔ (∃ c ∈ starts, c.1 = q ∧ head <+: c.2) ∨
        ∃ rule ∈ rules, rule.target = q ∧ head <+: rule.put := by
  simp only [heads, mem_append, mem_flatMap, mem_map, mem_inits, Prod.mk.injEq]
  constructor
  · rintro (⟨c, hc, w, hw, hq, rfl⟩ | ⟨rule, hrule, w, hw, hq, rfl⟩)
    · exact .inl ⟨c, hc, hq, hw⟩
    · exact .inr ⟨rule, hrule, hq, hw⟩
  · rintro (⟨c, hc, hq, hw⟩ | ⟨rule, hrule, hq, hw⟩)
    · exact .inl ⟨c, hc, head, hw, hq, rfl⟩
    · exact .inr ⟨rule, hrule, head, hw, hq, rfl⟩

theorem start_mem_heads (h : c ∈ starts) : c ∈ heads rules starts :=
  mem_heads.2 (.inl ⟨c, h, rfl, prefix_refl _⟩)

theorem heads_of_prefix {shorter : List α} (h : (q, head) ∈ heads rules starts)
    (hbegins : shorter <+: head) : (q, shorter) ∈ heads rules starts := by
  rcases mem_heads.1 h with ⟨c, hc, hq, hw⟩ | ⟨rule, hrule, hq, hw⟩
  · exact mem_heads.2 (.inl ⟨c, hc, hq, hbegins.trans hw⟩)
  · exact mem_heads.2 (.inr ⟨rule, hrule, hq, hbegins.trans hw⟩)

theorem reach_split (hc : c ∈ heads rules starts)
    (h : Reach rules c d) : ∀ first tail, d.2 = first ++ tail →
      ∃ p head, (p, head) ∈ heads rules starts ∧ Reach rules c (p, head ++ tail) ∧
        Reach rules (p, head) (d.1, first) := by
  induction h with
  | refl =>
    intro first tail heq
    have hbegins : first <+: c.2 := ⟨tail, heq.symm⟩
    have hwhole : c = (c.1, first ++ tail) := by rw [← heq]
    refine ⟨c.1, first, heads_of_prefix hc hbegins, ?_, .refl⟩
    rw [← hwhole]
  | tail hreach hstep ih =>
    cases hstep with
    | mk rule rest hrule =>
      intro first tail heq
      rcases append_eq_append_iff.1 heq with ⟨between, hfirst, hrest⟩ | ⟨kept, hput, htail⟩
      · obtain ⟨p, head, hmem, hto, hfrom⟩ := ih (rule.strip ++ between) tail
          (by rw [hrest, append_assoc])
        refine ⟨p, head, hmem, hto, hfrom.tail ?_⟩
        rw [hfirst]
        exact .mk rule between hrule
      · have hbegins : first <+: rule.put := ⟨kept, hput.symm⟩
        refine ⟨rule.target, first, mem_heads.2 (.inr ⟨rule, hrule, rfl, hbegins⟩), ?_, .refl⟩
        have hwhole : first ++ tail = rule.put ++ rest := heq.symm
        rw [hwhole]
        exact hreach.tail (.mk rule rest hrule)

def Leaves (rules : List (Rule Q α)) (c d : Q × List α) : Prop :=
  ∃ a, Reach rules c (d.1, d.2 ++ [a])

theorem leaves_run (h : Relation.TransGen (Leaves rules) c d) :
    ∃ more, more ≠ [] ∧ Reach rules c (d.1, d.2 ++ more) := by
  induction h with
  | single hstep =>
    obtain ⟨a, ha⟩ := hstep
    exact ⟨[a], cons_ne_nil _ _, ha⟩
  | tail _ hstep ih =>
    obtain ⟨more, hmore, hreach⟩ := ih
    obtain ⟨a, ha⟩ := hstep
    refine ⟨a :: more, cons_ne_nil _ _, ?_⟩
    have happend := ha.append more
    rw [append_assoc] at happend
    exact hreach.trans happend

theorem exists_trail (word : List α) : ∀ c ∈ heads rules starts, Reach rules c (q, word) →
      ∃ trail : List (Q × List α), trail.length = word.length ∧
        (∀ d ∈ trail, d ∈ heads rules starts) ∧
        (c :: trail).Pairwise (Relation.TransGen (Leaves rules)) := by
  induction word using List.reverseRecOn with
  | nil => exact fun c _ _ => ⟨[], rfl, fun d hd => (nomatch hd), pairwise_singleton _ _⟩
  | append_singleton word a ih =>
    intro c hc hreach
    obtain ⟨p, head, hmem, hto, hfrom⟩ := reach_split hc hreach word [a] rfl
    obtain ⟨trail, hlength, hheads, htrail⟩ := ih (p, head) hmem hfrom
    have hleaves : Relation.TransGen (Leaves rules) c (p, head) := .single ⟨a, hto⟩
    refine ⟨(p, head) :: trail, ?_, ?_, ?_⟩
    · rw [length_cons, hlength, length_append, length_singleton]
    · intro d hd
      rcases mem_cons.1 hd with rfl | hd
      · exact hmem
      · exact hheads d hd
    · refine List.Pairwise.cons ?_ htrail
      intro d hd
      rcases mem_cons.1 hd with rfl | hd
      · exact hleaves
      · exact hleaves.trans (rel_of_pairwise_cons htrail hd)

theorem reach_length_lt (hno : ¬ Lengthens rules starts) (hc : c ∈ starts)
    (h : Reach rules c d) : d.2.length < (heads rules starts).length := by
  obtain ⟨trail, hlength, hheads, htrail⟩ := exists_trail d.2 c
    (start_mem_heads hc : c ∈ heads rules starts) h
  have hloop : ∀ e, Relation.TransGen (Leaves rules) c e ∨ c = e →
      ¬ Relation.TransGen (Leaves rules) e e := by
    intro e hce hee
    obtain ⟨more, hmore, hmoreReach⟩ := leaves_run hee
    apply hno
    rcases hce with hce | rfl
    · obtain ⟨tail, -, hreach⟩ := leaves_run hce
      exact ⟨c, hc, e.1, e.2, more, tail, hmore, hreach, hmoreReach⟩
    · refine ⟨c, hc, c.1, c.2, more, [], hmore, ?_, hmoreReach⟩
      rw [append_nil]
  have hafter : ∀ e ∈ c :: trail, Relation.TransGen (Leaves rules) c e ∨ c = e := by
    intro e he
    rcases mem_cons.1 he with rfl | he
    · exact .inr rfl
    · exact .inl (rel_of_pairwise_cons htrail he)
  have hnodup : (c :: trail).Nodup := by
    refine htrail.imp_of_mem ?_
    rintro e f he - hef rfl
    exact hloop e (hafter e he) hef
  have hsubset : c :: trail ⊆ heads rules starts := by
    intro e he
    rcases mem_cons.1 he with rfl | he
    · exact start_mem_heads hc
    · exact hheads e he
  have hle := (subperm_of_subset hnodup hsubset).length_le
  rw [length_cons, hlength] at hle
  exact hle

def reachable (rules : List (Rule Q α)) (starts : List (Q × List α)) : Set (Q × List α) :=
  {d | ∃ c ∈ starts, Reach rules c d}

theorem reach_within (hc : c ∈ starts) (h : Reach rules c d) :
    d.1 ∈ (heads rules starts).map Prod.fst ∧
      ∀ a ∈ d.2, a ∈ (heads rules starts).flatMap Prod.snd := by
  have hstart : c ∈ heads rules starts := start_mem_heads hc
  induction h with
  | refl =>
    exact ⟨mem_map_of_mem hstart, fun a ha => mem_flatMap.2 ⟨c, hstart, ha⟩⟩
  | tail _ hstep ih =>
    cases hstep with
    | mk rule rest hrule =>
      have hput : (rule.target, rule.put) ∈ heads rules starts :=
        mem_heads.2 (.inr ⟨rule, hrule, rfl, prefix_refl _⟩)
      refine ⟨mem_map.2 ⟨_, hput, rfl⟩, fun a ha => ?_⟩
      rcases mem_append.1 ha with ha | ha
      · exact mem_flatMap.2 ⟨_, hput, ha⟩
      · exact ih.2 a (mem_append_right _ ha)

theorem finite_words (letters : List α) (n : ℕ) :
    {word : List α | word.length < n ∧ ∀ a ∈ word, a ∈ letters}.Finite := by
  have hletters : Finite {a // a ∈ letters} := letters.finite_toSet.to_subtype
  have hfinite := (finite_length_lt {a // a ∈ letters} n).image (List.map Subtype.val)
  refine hfinite.subset ?_
  rintro word ⟨hlength, hword⟩
  refine ⟨word.attachWith _ hword, ?_, attachWith_map_subtype_val hword⟩
  show (word.attachWith _ hword).length < n
  rw [length_attachWith]
  exact hlength

theorem reachable_finite (hno : ¬ Lengthens rules starts) : (reachable rules starts).Finite := by
  have hstates : {q | q ∈ (heads rules starts).map Prod.fst}.Finite := finite_toSet _
  have hwords := finite_words ((heads rules starts).flatMap Prod.snd) (heads rules starts).length
  refine (hstates.prod hwords).subset ?_
  rintro d ⟨c, hc, hreach⟩
  have hwithin := reach_within hc hreach
  exact ⟨hwithin.1, reach_length_lt hno hc hreach, hwithin.2⟩

theorem reach_replicate {more : List α} (h : Reach rules (q, head) (q, head ++ more))
    (n : ℕ) : Reach rules (q, head) (q, head ++ (List.replicate n more).flatten) := by
  induction n with
  | zero =>
    rw [replicate_zero, flatten_nil, append_nil]
  | succ n ih =>
    have hagain := h.append (List.replicate n more).flatten
    rw [replicate_succ, flatten_cons, ← append_assoc]
    exact ih.trans hagain

theorem reachable_infinite (h : Lengthens rules starts) : (reachable rules starts).Infinite := by
  obtain ⟨start, hstart, q, head, more, tail, hmore, hreach, hround⟩ := h
  have hword : ∀ n : ℕ, (q, (head ++ (List.replicate n more).flatten) ++ tail) ∈
      reachable rules starts := fun n =>
    ⟨start, hstart, hreach.trans ((reach_replicate hround n).append tail)⟩
  refine Set.infinite_of_injective_forall_mem ?_ hword
  intro n n' heq
  have hlength := congrArg (fun c => c.2.length) heq
  simp only [length_append, length_flatten, map_replicate, sum_replicate_nat] at hlength
  have hpos := length_pos_iff.2 hmore
  exact Nat.eq_of_mul_eq_mul_right hpos (by omega)

theorem reachable_finite_iff : (reachable rules starts).Finite ↔ ¬ Lengthens rules starts :=
  ⟨fun hfinite h => reachable_infinite h hfinite, reachable_finite⟩

end Quadrants.Library.PrefixRewriting
