import Quadrants.Cfg.Builder
import Quadrants.Library.FlowGraph

/-!
The graphs of structured programs are reducible: what a statement adds to the graph
is entered at its first node only, and every loop in it at its own first node.
-/

namespace Quadrants.Cfg

open Quadrants.Library.FlowGraph List

variable {σ κ : Type}

/-- Edges among the nodes from `lo` to `hi`, entered from `entries` at `lo`, with the
loops that the retreating ones close. -/
structure Region (lo : Nat) (entries : List Nat) (hi : Nat) (edges loops : List (Nat × Nat)) :
    Prop where
  edge : ∀ e ∈ edges, e.1 < hi ∧ lo ≤ e.2 ∧ e.2 < hi ∧ (lo ≤ e.1 ∨ (e.1 ∈ entries ∧ e.2 = lo))
  loop : ∀ l ∈ loops, lo < l.1 ∧ l.1 ≤ l.2 ∧ l.2 < hi
  entry : ∀ l ∈ loops, ∀ e ∈ edges, l.1 ≤ e.2 → e.2 ≤ l.2 → (l.1 ≤ e.1 ∧ e.1 ≤ l.2) ∨ e.2 = l.1
  retreat : ∀ e ∈ edges, e.2 ≤ e.1 → ∃ top, (e.2, top) ∈ loops ∧ e.1 ≤ top

variable {entries : List Nat} {lo : Nat}

theorem Region.empty : Region lo entries lo [] [] := by
  constructor <;> simp

variable {edges edges' loops loops' : List (Nat × Nat)} {hi mid : Nat}

theorem Region.append {entries' : List Nat} (h : Region lo entries mid edges loops)
    (h' : Region mid entries' hi edges' loops') (hlo : lo ≤ mid) (hhi : mid ≤ hi)
    (hentries : ∀ p ∈ entries', lo ≤ p ∧ p < mid ∨ p ∈ entries ∧ mid = lo) :
    Region lo entries hi (edges ++ edges') (loops ++ loops') := by
  refine ⟨?_, ?_, ?_, ?_⟩
  · intro e he
    rcases mem_append.mp he with he | he
    · obtain ⟨h1, h2, h3, h4⟩ := h.edge e he
      exact ⟨by omega, h2, by omega, h4⟩
    · obtain ⟨h1, h2, h3, h4⟩ := h'.edge e he
      refine ⟨h1, by omega, h3, ?_⟩
      rcases h4 with h4 | ⟨hmem, heq⟩
      · exact Or.inl (by omega)
      · rcases hentries _ hmem with hp | ⟨hp, hmid⟩
        · exact Or.inl hp.1
        · exact Or.inr ⟨hp, by omega⟩
  · intro l hl
    rcases mem_append.mp hl with hl | hl
    · have := h.loop l hl
      omega
    · have := h'.loop l hl
      omega
  · intro l hl e he hle hge
    rcases mem_append.mp hl with hl | hl <;> rcases mem_append.mp he with he | he
    · exact h.entry l hl e he hle hge
    · have h1 := h.loop l hl
      have h2 := (h'.edge e he).2.1
      omega
    · have h1 := h'.loop l hl
      have h2 := (h.edge e he).2.2.1
      omega
    · exact h'.entry l hl e he hle hge
  · intro e he hret
    rcases mem_append.mp he with he | he
    · obtain ⟨top, htop, hle⟩ := h.retreat e he hret
      exact ⟨top, mem_append_left _ htop, hle⟩
    · obtain ⟨top, htop, hle⟩ := h'.retreat e he hret
      exact ⟨top, mem_append_right _ htop, hle⟩

theorem Region.nest (new : List (Nat × Nat))
    (h : Region lo entries mid edges loops) (h' : Region mid [] hi edges' loops')
    (hlo : lo < mid) (hhi : mid < hi) (hnew : ∀ e ∈ new, e.2 = mid ∧ lo ≤ e.1 ∧ e.1 < hi) :
    Region lo entries hi (edges ++ (edges' ++ new)) (loops ++ (loops' ++ [(mid, hi - 1)])) := by
  have hin : ∀ e ∈ edges', mid ≤ e.1 ∧ e.1 < hi := by
    intro e he
    obtain ⟨h1, -, -, h4 | ⟨h4, -⟩⟩ := h'.edge e he
    · exact ⟨h4, h1⟩
    · exact absurd h4 not_mem_nil
  refine ⟨?_, ?_, ?_, ?_⟩
  · intro e he
    simp only [mem_append] at he
    rcases he with he | he | he
    · obtain ⟨h1, h2, h3, h4⟩ := h.edge e he
      exact ⟨by omega, h2, by omega, h4⟩
    · have h1 := hin e he
      have h2 := h'.edge e he
      exact ⟨by omega, by omega, by omega, Or.inl (by omega)⟩
    · have := hnew e he
      exact ⟨by omega, by omega, by omega, Or.inl (by omega)⟩
  · intro l hl
    simp only [mem_append, mem_singleton] at hl
    rcases hl with hl | hl | rfl
    · have := h.loop l hl
      omega
    · have := h'.loop l hl
      omega
    · omega
  · intro l hl e he hle hge
    simp only [mem_append, mem_singleton] at hl he
    rcases hl with hl | hl | rfl
    · have hl' := h.loop l hl
      rcases he with he | he | he
      · exact h.entry l hl e he hle hge
      · have := (h'.edge e he).2.1
        omega
      · have := hnew e he
        omega
    · have hl' := h'.loop l hl
      rcases he with he | he | he
      · have := (h.edge e he).2.2.1
        omega
      · exact h'.entry l hl e he hle hge
      · have := hnew e he
        omega
    · rcases he with he | he | he
      · have := (h.edge e he).2.2.1
        omega
      · have := hin e he
        omega
      · exact Or.inr (hnew e he).1
  · intro e he hret
    simp only [mem_append] at he
    rcases he with he | he | he
    · obtain ⟨top, htop, hle⟩ := h.retreat e he hret
      exact ⟨top, by simp [htop], hle⟩
    · obtain ⟨top, htop, hle⟩ := h'.retreat e he hret
      exact ⟨top, by simp [htop], hle⟩
    · obtain ⟨h1, h2, h3⟩ := hnew e he
      exact ⟨hi - 1, by simp [h1], by omega⟩

namespace Builder

def Valid (b : Builder σ) : Prop := ∀ p ∈ b.prevNodes, p < b.size

structure Grown (b b' : Builder σ) : Prop where
  size_le : b.size ≤ b'.size
  nodes : b.nodes <+: b'.nodes
  region : ∃ edges loops, b'.edges = b.edges ++ edges ∧
    Region b.size b.prevNodes b'.size edges loops
  prev : (b'.size = b.size ∧ b'.prevNodes = b.prevNodes) ∨
    ∀ p ∈ b'.prevNodes, b.size ≤ p ∧ p < b'.size
  continues : ∃ cs, b'.continuesInCurrentLoop = b.continuesInCurrentLoop ++ cs ∧
    ∀ c ∈ cs, b.size ≤ c ∧ c < b'.size
  breaks : ∃ cs, b'.breaksInCurrentLoop = b.breaksInCurrentLoop ++ cs ∧
    ∀ c ∈ cs, b.size ≤ c ∧ c < b'.size

variable {b b' b'' : Builder σ}

theorem Grown.valid (h : Grown b b') (hb : b.Valid) : b'.Valid := by
  intro p hp
  rcases h.prev with ⟨hs, hprev⟩ | hprev
  · rw [hprev] at hp
    rw [hs]
    exact hb p hp
  · exact (hprev p hp).2

theorem Grown.refl (b : Builder σ) : Grown b b :=
  ⟨le_refl _, prefix_rfl, ⟨[], [], by simp, Region.empty⟩, Or.inl ⟨rfl, rfl⟩, ⟨[], by simp⟩,
    ⟨[], by simp⟩⟩

theorem Grown.trans (h : Grown b b') (h' : Grown b' b'') : Grown b b'' := by
  obtain ⟨es, ls, hes, hr⟩ := h.region
  obtain ⟨es', ls', hes', hr'⟩ := h'.region
  have h1 := h.size_le
  have h2 := h'.size_le
  refine ⟨le_trans h1 h2, h.nodes.trans h'.nodes, ⟨es ++ es', ls ++ ls', ?_, ?_⟩, ?_, ?_, ?_⟩
  · rw [hes', hes, append_assoc]
  · refine hr.append hr' h1 h2 fun p hp => ?_
    rcases h.prev with ⟨hs, hprev⟩ | hprev
    · exact Or.inr ⟨hprev ▸ hp, hs⟩
    · exact Or.inl (hprev p hp)
  · rcases h'.prev with ⟨hs', hprev'⟩ | hprev'
    · rcases h.prev with ⟨hs, hprev⟩ | hprev
      · exact Or.inl ⟨by omega, by rw [hprev', hprev]⟩
      · refine Or.inr fun p hp => ?_
        rw [hprev'] at hp
        have := hprev p hp
        omega
    · refine Or.inr fun p hp => ?_
      have := hprev' p hp
      omega
  · obtain ⟨cs, hcs, hin⟩ := h.continues
    obtain ⟨cs', hcs', hin'⟩ := h'.continues
    refine ⟨cs ++ cs', by rw [hcs', hcs, append_assoc], fun c hc => ?_⟩
    rcases mem_append.mp hc with hc | hc
    · have := hin c hc
      omega
    · have := hin' c hc
      omega
  · obtain ⟨cs, hcs, hin⟩ := h.breaks
    obtain ⟨cs', hcs', hin'⟩ := h'.breaks
    refine ⟨cs ++ cs', by rw [hcs', hcs, append_assoc], fun c hc => ?_⟩
    rcases mem_append.mp hc with hc | hc
    · have := hin c hc
      omega
    · have := hin' c hc
      omega

theorem newNode_size (b : Builder σ) : b.newNode.size = b.size + 1 := by
  simp [newNode, size]

theorem newNode_back (b : Builder σ) : b.newNode.back = b.size := by
  rw [back, newNode_size]
  omega

theorem newNode_grown (hb : b.Valid) : Grown b b.newNode := by
  refine ⟨by rw [newNode_size]; omega, prefix_append _ _,
    ⟨b.prevNodes.map fun u => (u, b.size), [], rfl, ?_⟩, Or.inr ?_,
    ⟨[], by simp [newNode, addEdges]⟩, ⟨[], by simp [newNode, addEdges]⟩⟩
  · rw [newNode_size]
    constructor
    · intro e he
      obtain ⟨u, hu, rfl⟩ := mem_map.mp he
      have := hb u hu
      exact ⟨by dsimp only; omega, le_refl _, by dsimp only; omega, Or.inr ⟨hu, rfl⟩⟩
    · simp
    · simp
    · intro e he hret
      obtain ⟨u, hu, rfl⟩ := mem_map.mp he
      have := hb u hu
      omega
  · simp [newNode]

/-- What visiting a block promises: its last node is new and has no successor yet. -/
structure BlockGrown (b b' : Builder σ) : Prop extends Grown b b' where
  size_lt : b.size < b'.size
  prev_nil : b'.prevNodes = []
  pending_nil : b'.pending = []

theorem BlockGrown.back_range (h : BlockGrown b b') : b.size ≤ b'.back ∧ b'.back < b'.size := by
  have := h.size_lt
  unfold back
  omega

theorem newNode_blockGrown (hb : b.Valid) : BlockGrown b b.newNode :=
  { newNode_grown hb with size_lt := by rw [newNode_size]; omega, prev_nil := rfl, pending_nil := rfl }

theorem Grown.transBlock (h : Grown b b') (h' : BlockGrown b' b'') : BlockGrown b b'' :=
  { h.trans h'.toGrown with
    size_lt := lt_of_le_of_lt h.size_le h'.size_lt, prev_nil := h'.prev_nil
    pending_nil := h'.pending_nil }

theorem visitBranch_blockGrown (br : Branch σ κ) (hb : BlockGrown b b')
    {before : Nat} (hbefore : b.size ≤ before ∧ before < b'.size)
    (hbody : ∀ blk, br = .present blk → BlockGrown b' (visitBlock blk b')) :
    BlockGrown b (visitBranch br before b').1 ∧ b'.size ≤ (visitBranch br before b').1.size ∧
      ∀ last, (visitBranch br before b').2 = some last →
        b.size ≤ last ∧ last < (visitBranch br before b').1.size := by
  cases br with
  | absent =>
    rw [visitBranch]
    exact ⟨hb, le_refl _, by simp⟩
  | present blk =>
    have h' := hbody blk rfl
    have hlt := h'.size_lt
    have hlt' := hb.size_lt
    rw [visitBranch]
    have hsize : ((visitBlock blk b').addEdge before b'.size).size = (visitBlock blk b').size := rfl
    rw [hsize]
    refine ⟨?_, le_of_lt hlt, ?_⟩
    · obtain ⟨es, ls, hes, hr⟩ := hb.region
      obtain ⟨es', ls', hes', hr'⟩ := h'.region
      rw [hb.prev_nil] at hr'
      have hnest := hr.nest [(before, b'.size)] hr' hlt' hlt (by simp; omega)
      have hgrown := hb.toGrown.trans h'.toGrown
      exact
        { hgrown with
          region := ⟨_, _, by simp [addEdge, hes', hes], hnest⟩
          size_lt := by rw [hsize]; omega
          prev_nil := h'.prev_nil
          pending_nil := h'.pending_nil }
    · intro last hlast
      obtain rfl : (visitBlock blk b').back = last := by simpa using hlast
      have := h'.back_range
      omega

theorem BlockGrown.pushPrev (h : BlockGrown b b') {us : List Nat}
    (hus : ∀ u ∈ us, b.size ≤ u ∧ u < b'.size) : Grown b (b'.pushPrev us) := by
  refine { h.toGrown with prev := Or.inr ?_ }
  intro p hp
  rw [Builder.pushPrev, h.prev_nil] at hp
  exact hus p hp

theorem visitIf_grown (hb : b.Valid) (cond : κ) (t f : Branch σ κ)
    (ht : ∀ blk, t = .present blk → ∀ b : Builder σ, b.Valid → BlockGrown b (visitBlock blk b))
    (hf : ∀ blk, f = .present blk → ∀ b : Builder σ, b.Valid → BlockGrown b (visitBlock blk b)) :
    Grown b (visitStmt (.ifStmt cond t f) b) := by
  have hnew := newNode_blockGrown hb
  have hbefore := hnew.back_range
  obtain ⟨h1, hle1, hend1⟩ := visitBranch_blockGrown t hnew hbefore
    fun blk heq => ht blk heq _ (hnew.toGrown.valid hb)
  rw [visitStmt]
  generalize visitBranch t b.newNode.back b.newNode = r1 at h1 hle1 hend1 ⊢
  obtain ⟨b1, end1⟩ := r1
  dsimp only at h1 hle1 hend1 ⊢
  obtain ⟨h2, hle2, hend2⟩ := visitBranch_blockGrown f h1 ⟨hbefore.1, lt_of_lt_of_le hbefore.2 hle1⟩
    fun blk heq => hf blk heq _ (h1.toGrown.valid hb)
  generalize visitBranch f b.newNode.back b1 = r2 at h2 hle2 hend2 ⊢
  obtain ⟨b2, end2⟩ := r2
  dsimp only at h2 hle2 hend2 ⊢
  have hback : b.size ≤ b.newNode.back ∧ b.newNode.back < b2.size := by omega
  have hin1 : ∀ last, end1 = some last → b.size ≤ last ∧ last < b2.size := by
    intro last hlast
    have := hend1 last hlast
    omega
  apply h2.pushPrev
  cases end1 with
  | none =>
    cases end2 with
    | none => simpa [afterIf] using hback
    | some e2 => simpa [afterIf] using ⟨hend2 e2 rfl, hback⟩
  | some e1 =>
    cases end2 with
    | none => simpa [afterIf] using ⟨hin1 e1 rfl, hback⟩
    | some e2 => simpa [afterIf] using ⟨hin1 e1 rfl, hend2 e2 rfl⟩

theorem exitLoop_grown {outer : Builder σ} (houter : BlockGrown b outer)
    (parallel isWhileTrue : Bool) (h : BlockGrown (outer.enterLoop parallel) b') :
    Grown b (exitLoop outer b' isWhileTrue) := by
  have hlt : outer.size < b'.size := h.size_lt
  have hlt' := houter.size_lt
  have hback := houter.back_range
  have hback' : outer.size ≤ b'.back ∧ b'.back < b'.size := h.back_range
  obtain ⟨es, ls, hes, hr⟩ := houter.region
  obtain ⟨es', ls', hes', hr'⟩ := h.region
  have hprev : (outer.enterLoop parallel).prevNodes = [] := houter.prev_nil
  rw [hprev] at hr'
  obtain ⟨cs, hcs, hcin⟩ := h.continues
  obtain ⟨bs, hbs, hbin⟩ := h.breaks
  have hcs' : b'.continuesInCurrentLoop = cs := hcs
  have hbs' : b'.breaksInCurrentLoop = bs := hbs
  have hcin' : ∀ c ∈ cs, outer.size ≤ c ∧ c < b'.size := hcin
  have hbin' : ∀ c ∈ bs, outer.size ≤ c ∧ c < b'.size := hbin
  have hnest := hr.nest
    ([(outer.back, outer.size), (b'.back, outer.size)] ++ cs.map fun c => (c, outer.size))
    hr' hlt' hlt (by
      intro e he
      simp only [mem_append, mem_cons, not_mem_nil, or_false, mem_map] at he
      rcases he with (rfl | rfl) | ⟨c, hc, rfl⟩
      · exact ⟨rfl, hback.1, by dsimp only; omega⟩
      · exact ⟨rfl, by dsimp only; omega, hback'.2⟩
      · have := hcin' c hc
        exact ⟨rfl, by dsimp only; omega, this.2⟩)
  have hsize : (exitLoop outer b' isWhileTrue).size = b'.size := by cases isWhileTrue <;> rfl
  have hnodes : (exitLoop outer b' isWhileTrue).nodes = b'.nodes := by cases isWhileTrue <;> rfl
  refine ⟨by rw [hsize]; omega, by rw [hnodes]; exact houter.nodes.trans h.nodes,
    ⟨_, _, ?_, by rw [hsize]; exact hnest⟩, Or.inr ?_, ?_, ?_⟩
  · have hedges : (exitLoop outer b' isWhileTrue).edges = b'.edges ++
        [(outer.back, outer.size)] ++ [(b'.back, outer.size)] ++
        b'.continuesInCurrentLoop.map fun c => (c, outer.size) := by
      cases isWhileTrue <;> rfl
    have hes'' : b'.edges = outer.edges ++ es' := hes'
    rw [hedges, hcs', hes'', hes]
    simp
  · intro p hp
    have hp' : p = outer.back ∨ p = b'.back ∨ p ∈ cs ∨ p ∈ bs := by
      cases isWhileTrue <;>
        simp [exitLoop, Builder.pushPrev, addEdges, addEdge, h.prev_nil, hcs', hbs'] at hp <;> tauto
    rcases hp' with rfl | rfl | hp' | hp'
    · omega
    · omega
    · have := hcin' p hp'
      omega
    · have := hbin' p hp'
      omega
  · obtain ⟨cs, hcs, hcin⟩ := houter.continues
    refine ⟨cs, hcs, fun c hc => ?_⟩
    have := hcin c hc
    omega
  · obtain ⟨cs, hcs, hcin⟩ := houter.breaks
    refine ⟨cs, hcs, fun c hc => ?_⟩
    have := hcin c hc
    omega

mutual

theorem visitStmt_grown (s : Stmt σ κ) (b : Builder σ) (hb : b.Valid) : Grown b (visitStmt s b) := by
  cases s with
  | simple s =>
    exact { Grown.refl b with }
  | ifStmt cond t f =>
    refine visitIf_grown hb cond t f ?_ ?_
    · intro blk heq b hb
      exact visitBlock_grown blk b hb
    · intro blk heq b hb
      exact visitBlock_grown blk b hb
  | whileStmt body =>
    have hnew := newNode_blockGrown hb
    exact exitLoop_grown hnew false true (visitBlock_grown body _ (hnew.toGrown.valid hb))
  | forStmt range body =>
    have hnew := newNode_blockGrown hb
    exact exitLoop_grown hnew _ false (visitBlock_grown body _ (hnew.toGrown.valid hb))
  | continueStmt =>
    have hnew := newNode_grown hb
    refine { hnew with continues := ⟨[b.newNode.back], rfl, ?_⟩ }
    intro c hc
    rw [mem_singleton.mp hc]
    exact (newNode_blockGrown hb).back_range
  | whileControl cond =>
    have hnew := newNode_blockGrown hb
    have hback : ∀ u ∈ [b.newNode.back], b.size ≤ u ∧ u < b.newNode.size := by
      simpa using hnew.back_range
    have hpush := hnew.pushPrev hback
    exact { hpush with breaks := ⟨[b.newNode.back], rfl, hback⟩ }

theorem visitBlock_grown (blk : Block σ κ) (b : Builder σ) (hb : b.Valid) :
    BlockGrown b (visitBlock blk b) := by
  cases blk with
  | nil =>
    exact newNode_blockGrown hb
  | cons s rest =>
    have hs := visitStmt_grown s b hb
    exact hs.transBlock (visitBlock_grown rest _ (hs.valid hb))

end

structure Good (b : Builder σ) : Prop where
  valid : b.Valid
  pos : 0 < b.size
  continues : ∀ c ∈ b.continuesInCurrentLoop, c < b.size
  region : ∃ loops, Region 0 [] b.size b.edges loops

theorem start_good : Good (start : Builder σ) := by
  refine ⟨?_, by simp [start, size], ?_, [], ?_⟩
  · simp [Valid, start, size]
  · simp [start]
  · constructor <;> simp [start]

theorem Good.grown (h : Good b) (h' : Grown b b') : Good b' := by
  obtain ⟨ls, hr⟩ := h.region
  obtain ⟨es', ls', hes', hr'⟩ := h'.region
  have hle := h'.size_le
  refine ⟨h'.valid h.valid, lt_of_lt_of_le h.pos hle, ?_, ls ++ ls', ?_⟩
  · obtain ⟨cs, hcs, hin⟩ := h'.continues
    intro c hc
    rw [hcs] at hc
    rcases mem_append.mp hc with hc | hc
    · exact lt_of_lt_of_le (h.continues c hc) hle
    · exact (hin c hc).2
  · rw [hes']
    exact hr.append hr' (Nat.zero_le _) hle fun p hp => Or.inl ⟨Nat.zero_le _, h.valid p hp⟩

theorem Good.nest {before : Builder σ} (h : Good before) (h' : BlockGrown before b')
    (hprev : before.prevNodes = []) (us : List Nat) (hus : ∀ u ∈ us, u < b'.size)
    (hsize : b''.size = b'.size) (hedges : b''.edges = b'.edges ++ us.map fun u => (u, before.size))
    (hpush : ∀ p ∈ b''.prevNodes, p < b'.size)
    (hcont : b''.continuesInCurrentLoop = b'.continuesInCurrentLoop) : Good b'' := by
  obtain ⟨ls, hr⟩ := h.region
  obtain ⟨es', ls', hes', hr'⟩ := h'.region
  have hlt := h'.size_lt
  rw [hprev] at hr'
  have hnest := hr.nest (us.map fun u => (u, before.size)) hr' h.pos hlt (by
    intro e he
    obtain ⟨u, hu, rfl⟩ := mem_map.mp he
    exact ⟨rfl, Nat.zero_le _, hus u hu⟩)
  have hgood := h.grown h'.toGrown
  refine ⟨?_, by rw [hsize]; exact hgood.pos, ?_, ls ++ (ls' ++ [(before.size, b'.size - 1)]), ?_⟩
  · intro p hp
    rw [hsize]
    exact hpush p hp
  · rw [hsize, hcont]
    exact hgood.continues
  · rw [hsize, hedges, hes', append_assoc]
    exact hnest

theorem visitSection_good (h : Good b) (br : Branch σ κ) : Good (visitSection br b) := by
  cases br with
  | absent => exact h
  | present blk =>
    have hnew := newNode_blockGrown h.valid
    have hgood := h.grown hnew.toGrown
    have hbody := visitBlock_grown blk b.newNode hgood.valid
    have hback := hbody.back_range
    have hnb := hnew.back_range
    refine hgood.nest hbody rfl [b.newNode.back] ?_ rfl rfl ?_ rfl
    · intro u hu
      rw [mem_singleton.mp hu]
      omega
    · intro p hp
      change p ∈ (visitBlock blk b.newNode).prevNodes ++ [(visitBlock blk b.newNode).back] at hp
      rw [hbody.prev_nil, nil_append, mem_singleton] at hp
      omega

theorem visitBody_good (h : Good b) (parallelFor : Bool) (br : Branch σ κ) :
    Good (visitBody parallelFor br b) := by
  cases br with
  | absent => exact h
  | present blk =>
    have hnew := newNode_blockGrown h.valid
    have hgood := h.grown hnew.toGrown
    let before := { b.newNode with inParallelFor := b.newNode.inParallelFor || parallelFor }
    have hbefore : Good before := { hgood with }
    have hbody := visitBlock_grown blk before hbefore.valid
    have hcont := (hbefore.grown hbody.toGrown).continues
    have hback := hbody.back_range
    have hlt : b.newNode.size < (visitBlock blk before).size := hbody.size_lt
    have hnb := hnew.back_range
    refine hbefore.nest hbody rfl
      ((visitBlock blk before).continuesInCurrentLoop ++ [b.newNode.back]) ?_ rfl ?_ ?_ rfl
    · intro u hu
      rcases mem_append.mp hu with hu | hu
      · exact hcont u hu
      · rw [mem_singleton.mp hu]
        omega
    · rw [map_append, ← append_assoc]
      rfl
    · intro p hp
      change p ∈ ((visitBlock blk before).prevNodes ++
        (visitBlock blk before).continuesInCurrentLoop) ++ [(visitBlock blk before).back] at hp
      rw [hbody.prev_nil] at hp
      rcases mem_append.mp hp with hp | hp
      · exact hcont p hp
      · rw [mem_singleton.mp hp]
        omega

theorem visitTop_good (h : Good b) (s : TopStmt σ κ) : Good (visitTop b s) := by
  cases s with
  | stmt s => exact h.grown (visitStmt_grown s b h.valid)
  | offloaded parallelFor tlsPrologue meshPrologue blsPrologue body blsEpilogue tlsEpilogue =>
    have h0 : Good { b with inOffload := true } := { h with }
    have h1 := visitSection_good (visitSection_good (visitSection_good h0 tlsPrologue) meshPrologue)
      blsPrologue
    have h2 := visitBody_good h1 parallelFor body
    have h3 := visitSection_good (visitSection_good h2 blsEpilogue) tlsEpilogue
    exact { h3 with }

theorem foldl_visitTop_good (root : List (TopStmt σ κ)) (h : Good b) :
    Good (root.foldl visitTop b) := by
  induction root generalizing b with
  | nil => exact h
  | cons s rest ih => exact ih (visitTop_good h s)

end Builder

namespace Graph

theorem mem_next {g : Graph σ} {u v : Nat} : v ∈ g.next u ↔ (u, v) ∈ g.edges := by
  unfold next
  rw [mem_filterMap]
  constructor
  · rintro ⟨⟨a, b⟩, he, heq⟩
    split at heq
    · rename_i ha
      obtain rfl : b = v := by simpa using heq
      obtain rfl : a = u := ha
      exact he
    · exact absurd heq (by simp)
  · intro he
    exact ⟨(u, v), he, by simp⟩

variable (root : List (TopStmt σ κ))

theorem build_region :
    0 < (build root).size ∧ ∃ loops, Region 0 [] (build root).size (build root).edges loops := by
  have h := Builder.foldl_visitTop_good root Builder.start_good
  have hgood := h.grown (Builder.newNode_grown h.valid)
  obtain ⟨loops, hr⟩ := hgood.region
  have hpos := hgood.pos
  unfold build
  dsimp only
  split
  · exact ⟨hpos, loops, hr⟩
  · generalize (root.foldl Builder.visitTop Builder.start).newNode = b at hr hpos
    have hback : b.back < b.size := by
      unfold Builder.back
      omega
    have hlast : Region b.size [b.back] (b.size + 1) [(b.back, b.size)] [] := by
      constructor
      · intro e he
        rw [mem_singleton.mp he]
        exact ⟨by dsimp only; omega, le_refl _, Nat.lt_succ_self _,
          Or.inr ⟨mem_singleton_self _, rfl⟩⟩
      · exact fun l hl => absurd hl not_mem_nil
      · exact fun l hl => absurd hl not_mem_nil
      · intro e he hret
        rw [mem_singleton.mp he] at hret
        omega
    have happ := hr.append hlast (Nat.zero_le _) (Nat.le_succ _) fun p hp => by
      rw [mem_singleton.mp hp]
      omega
    have hsize : (b.nodes ++ [(⟨[], false⟩ : Node σ)]).length = b.size + 1 := by
      simp [Builder.size]
    refine ⟨?_, loops ++ [], ?_⟩
    · change 0 < (b.nodes ++ [(⟨[], false⟩ : Node σ)]).length
      omega
    · change Region 0 [] (b.nodes ++ [(⟨[], false⟩ : Node σ)]).length _ _
      rw [hsize]
      exact happ

theorem size_pos : 0 < (build root).size := (build_region root).1

theorem next_lt (u : Nat) : ∀ v ∈ (build root).next u, v < (build root).size := by
  intro v hv
  obtain ⟨-, loops, hr⟩ := build_region root
  exact (hr.edge (u, v) (mem_next.mp hv)).2.2.1

theorem build_reducible : Reducible (build root).next := by
  obtain ⟨-, loops, hr⟩ := build_region root
  intro u v hv
  by_cases hlt : u < v
  · exact Or.inl hlt
  obtain ⟨top, hmem, htop⟩ := hr.retreat (u, v) (mem_next.mp hv) (not_lt.mp hlt)
  have hloop := hr.loop _ hmem
  refine Or.inr (Or.inr fun hav => ?_)
  have hout : ∀ w, Avoids (build root).next v 0 w → w < v ∨ top < w := by
    intro w hw
    induction hw with
    | refl => exact Or.inl hloop.1
    | @tail a b _ hab ih =>
      by_contra hin
      have := hr.entry (v, top) hmem (a, b) (mem_next.mp hab.1) (by dsimp only; omega)
        (by dsimp only; omega)
      omega
  have := hout u hav
  omega

end Graph

end Quadrants.Cfg
