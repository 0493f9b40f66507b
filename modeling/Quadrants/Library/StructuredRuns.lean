import Mathlib.Data.List.Basic
import Mathlib.Data.Int.Notation

/-!
Statements with branches, counted loops and loops that are left from within, over leaves and
operands of any kind, and their runs over a state. A loop that is left from within is given up after
a number of rounds. The simulation rule relates the runs of a statement on two machines.
-/

namespace Quadrants.Library.StructuredRuns

open List

inductive Stmt (L A : Type) where
  | leaf (l : L)
  | branch (test : A) (thenBlock elseBlock : List (Stmt L A))
  | loop (id : ℕ) (first last : A) (body : List (Stmt L A))
  | forever (body : List (Stmt L A))

/-- What the leaves and operands of statements do to a state. Reading an operand may change the
state. A machine that has stopped skips the statements up to the end of the innermost `forever`. -/
structure Machine (σ L A : Type) where
  leaf : L → σ → σ
  read : A → σ → ℤ × σ
  index : ℕ → ℤ → σ → σ
  stopped : σ → Bool
  resume : σ → σ

variable {σ τ L L' A A' : Type}

def Machine.unlessStopped (m : Machine σ L A) (step : σ → σ) (s : σ) : σ :=
  if m.stopped s then s else step s

def Machine.forRange (m : Machine σ L A) (id : ℕ) (first last : A) (body : σ → σ) (s : σ) : σ :=
  let lower := m.read first s
  let upper := m.read last lower.2
  (List.range (upper.1 - lower.1).toNat).foldl
    (fun s k => m.unlessStopped (fun s => body (m.index id (lower.1 + k) s)) s) upper.2

mutual

def Stmt.exec (m : Machine σ L A) (rounds : ℕ) : Stmt L A → σ → σ
  | .leaf l, s => m.leaf l s
  | .branch test thenBlock elseBlock, s =>
    if (m.read test s).1 = 0 then execBlock m rounds elseBlock (m.read test s).2
    else execBlock m rounds thenBlock (m.read test s).2
  | .loop id first last body, s => m.forRange id first last (fun s => execBlock m rounds body s) s
  | .forever body, s =>
    m.resume ((List.range rounds).foldl
      (fun s _ => m.unlessStopped (fun s => execBlock m rounds body s) s) s)

def execBlock (m : Machine σ L A) (rounds : ℕ) : List (Stmt L A) → σ → σ
  | [], s => s
  | stmt :: rest, s => execBlock m rounds rest (m.unlessStopped (fun s => stmt.exec m rounds s) s)

end

mutual

def Stmt.map (f : L → L') (g : A → A') : Stmt L A → Stmt L' A'
  | .leaf l => .leaf (f l)
  | .branch test thenBlock elseBlock =>
    .branch (g test) (mapBlock f g thenBlock) (mapBlock f g elseBlock)
  | .loop id first last body => .loop id (g first) (g last) (mapBlock f g body)
  | .forever body => .forever (mapBlock f g body)

def mapBlock (f : L → L') (g : A → A') : List (Stmt L A) → List (Stmt L' A')
  | [] => []
  | stmt :: rest => stmt.map f g :: mapBlock f g rest

end

mutual

def Stmt.leaves : Stmt L A → List L
  | .leaf l => [l]
  | .branch _ thenBlock elseBlock => blockLeaves thenBlock ++ blockLeaves elseBlock
  | .loop _ _ _ body => blockLeaves body
  | .forever body => blockLeaves body

def blockLeaves : List (Stmt L A) → List L
  | [] => []
  | stmt :: rest => stmt.leaves ++ blockLeaves rest

end

mutual

def Stmt.tests : Stmt L A → List A
  | .leaf _ => []
  | .branch test thenBlock elseBlock => test :: (blockTests thenBlock ++ blockTests elseBlock)
  | .loop _ first last body => first :: last :: blockTests body
  | .forever body => blockTests body

def blockTests : List (Stmt L A) → List A
  | [] => []
  | stmt :: rest => stmt.tests ++ blockTests rest

end

mutual

def Stmt.loops : Stmt L A → List ℕ
  | .leaf _ => []
  | .branch _ thenBlock elseBlock => blockLoops thenBlock ++ blockLoops elseBlock
  | .loop id _ _ body => id :: blockLoops body
  | .forever body => blockLoops body

def blockLoops : List (Stmt L A) → List ℕ
  | [] => []
  | stmt :: rest => stmt.loops ++ blockLoops rest

end

theorem execBlock_append (m : Machine σ L A) (rounds : ℕ) (stmts rest : List (Stmt L A)) :
    ∀ s, execBlock m rounds (stmts ++ rest) s =
      execBlock m rounds rest (execBlock m rounds stmts s) := by
  induction stmts with
  | nil => intro s; rw [nil_append, execBlock]
  | cons stmt stmts ih => intro s; rw [cons_append, execBlock, execBlock, ih]

theorem execBlock_of_stopped {m : Machine σ L A} {s : σ} (h : m.stopped s = true) (rounds : ℕ)
    (stmts : List (Stmt L A)) : execBlock m rounds stmts s = s := by
  induction stmts with
  | nil => rw [execBlock]
  | cons stmt stmts ih => rw [execBlock, Machine.unlessStopped, if_pos h, ih]

variable (stmts rest : List (Stmt L A))

theorem blockLeaves_append :
    blockLeaves (stmts ++ rest) = blockLeaves stmts ++ blockLeaves rest := by
  induction stmts with
  | nil => rw [nil_append, blockLeaves, nil_append]
  | cons stmt stmts ih => rw [cons_append, blockLeaves, blockLeaves, ih, append_assoc]

theorem blockTests_append : blockTests (stmts ++ rest) = blockTests stmts ++ blockTests rest := by
  induction stmts with
  | nil => rw [nil_append, blockTests, nil_append]
  | cons stmt stmts ih => rw [cons_append, blockTests, blockTests, ih, append_assoc]

theorem blockLoops_append : blockLoops (stmts ++ rest) = blockLoops stmts ++ blockLoops rest := by
  induction stmts with
  | nil => rw [nil_append, blockLoops, nil_append]
  | cons stmt stmts ih => rw [cons_append, blockLoops, blockLoops, ih, append_assoc]

def Stmt.Within (leaf : L → Prop) (operand : A → Prop) (loop : ℕ → Prop) (stmt : Stmt L A) : Prop :=
  (∀ l ∈ stmt.leaves, leaf l) ∧ (∀ a ∈ stmt.tests, operand a) ∧ ∀ id ∈ stmt.loops, loop id

def WithinBlock (leaf : L → Prop) (operand : A → Prop) (loop : ℕ → Prop)
    (stmts : List (Stmt L A)) : Prop :=
  (∀ l ∈ blockLeaves stmts, leaf l) ∧ (∀ a ∈ blockTests stmts, operand a) ∧
    ∀ id ∈ blockLoops stmts, loop id

/-- The second machine does in step what the first does on the given leaves, operands and loops,
where the statements are translated by `f` and `g`. -/
structure Simulates (m : Machine σ L A) (m' : Machine τ L' A') (f : L → L') (g : A → A')
    (leaf : L → Prop) (operand : A → Prop) (loop : ℕ → Prop) (R : σ → τ → Prop) : Prop where
  onLeaf : ∀ l s t, leaf l → R s t → R (m.leaf l s) (m'.leaf (f l) t)
  onRead : ∀ a s t, operand a → R s t →
    (m'.read (g a) t).1 = (m.read a s).1 ∧ R (m.read a s).2 (m'.read (g a) t).2
  onIndex : ∀ id k s t, loop id → R s t → R (m.index id k s) (m'.index id k t)
  onStopped : ∀ s t, R s t → m'.stopped t = m.stopped s
  onResume : ∀ s t, R s t → R (m.resume s) (m'.resume t)

theorem foldl_related {ι : Type} {R : σ → τ → Prop} {step : σ → ι → σ} {step' : τ → ι → τ}
    (hstep : ∀ i s t, R s t → R (step s i) (step' t i)) (l : List ι) :
    ∀ s t, R s t → R (l.foldl step s) (l.foldl step' t) := by
  induction l with
  | nil => exact fun s t hst => hst
  | cons i l ih => exact fun s t hst => ih _ _ (hstep i s t hst)

namespace Simulates

variable {m : Machine σ L A} {m' : Machine τ L' A'} {f : L → L'} {g : A → A'}
  {leaf : L → Prop} {operand : A → Prop} {loop : ℕ → Prop} {R : σ → τ → Prop}

theorem unlessStopped (h : Simulates m m' f g leaf operand loop R) {step : σ → σ} {step' : τ → τ}
    (hstep : ∀ s t, R s t → R (step s) (step' t)) (s : σ) (t : τ) (hst : R s t) :
    R (m.unlessStopped step s) (m'.unlessStopped step' t) := by
  unfold Machine.unlessStopped
  rw [h.onStopped s t hst]
  split
  · exact hst
  · exact hstep s t hst

theorem forRange (h : Simulates m m' f g leaf operand loop R) {id : ℕ} (hid : loop id)
    {first last : A} (hfirst : operand first) (hlast : operand last) {body : σ → σ}
    {body' : τ → τ} (hbody : ∀ s t, R s t → R (body s) (body' t)) (s : σ) (t : τ) (hst : R s t) :
    R (m.forRange id first last body s) (m'.forRange id (g first) (g last) body' t) := by
  obtain ⟨hlower, hst⟩ := h.onRead first s t hfirst hst
  obtain ⟨hupper, hst⟩ := h.onRead last _ _ hlast hst
  unfold Machine.forRange
  simp only [hlower, hupper]
  refine foldl_related (fun k s t hst => ?_) _ _ _ hst
  exact h.unlessStopped (fun s t hst => hbody _ _ (h.onIndex id _ s t hid hst)) s t hst

variable (rounds : ℕ)

mutual

theorem exec (h : Simulates m m' f g leaf operand loop R) : ∀ stmt : Stmt L A,
    stmt.Within leaf operand loop → ∀ s t, R s t →
    R (stmt.exec m rounds s) ((stmt.map f g).exec m' rounds t)
  | .leaf l, hw, s, t, hst => by
    simp only [Stmt.exec, Stmt.map]
    exact h.onLeaf l s t (hw.1 l (by simp [Stmt.leaves])) hst
  | .branch test thenBlock elseBlock, hw, s, t, hst => by
    obtain ⟨hleaves, htests, hloops⟩ := hw
    simp only [Stmt.leaves, mem_append] at hleaves
    simp only [Stmt.tests, mem_append, mem_cons] at htests
    simp only [Stmt.loops, mem_append] at hloops
    obtain ⟨htest, hst⟩ := h.onRead test s t (htests test (.inl rfl)) hst
    simp only [Stmt.exec, Stmt.map]
    rw [htest]
    split
    · exact execBlock h elseBlock ⟨fun l hl => hleaves l (.inr hl),
        fun a ha => htests a (.inr (.inr ha)), fun id hid => hloops id (.inr hid)⟩ _ _ hst
    · exact execBlock h thenBlock ⟨fun l hl => hleaves l (.inl hl),
        fun a ha => htests a (.inr (.inl ha)), fun id hid => hloops id (.inl hid)⟩ _ _ hst
  | .loop id first last body, hw, s, t, hst => by
    obtain ⟨hleaves, htests, hloops⟩ := hw
    simp only [Stmt.leaves, Stmt.tests, Stmt.loops, mem_cons] at hleaves htests hloops
    simp only [Stmt.exec, Stmt.map]
    refine h.forRange (hloops id (.inl rfl)) (htests first (.inl rfl))
      (htests last (.inr (.inl rfl))) (fun s t hst => ?_) s t hst
    exact execBlock h body ⟨hleaves, fun a ha => htests a (.inr (.inr ha)),
      fun id hid => hloops id (.inr hid)⟩ s t hst
  | .forever body, hw, s, t, hst => by
    simp only [Stmt.exec, Stmt.map]
    refine h.onResume _ _ (foldl_related (fun _ s t hst => ?_) _ _ _ hst)
    exact h.unlessStopped (fun s t hst => execBlock h body hw s t hst) s t hst

theorem execBlock (h : Simulates m m' f g leaf operand loop R) : ∀ stmts : List (Stmt L A),
    WithinBlock leaf operand loop stmts → ∀ s t, R s t →
    R (StructuredRuns.execBlock m rounds stmts s)
      (StructuredRuns.execBlock m' rounds (mapBlock f g stmts) t)
  | [], _, s, t, hst => by simpa only [StructuredRuns.execBlock, mapBlock] using hst
  | stmt :: rest, hw, s, t, hst => by
    obtain ⟨hleaves, htests, hloops⟩ := hw
    simp only [blockLeaves, blockTests, blockLoops, mem_append] at hleaves htests hloops
    simp only [StructuredRuns.execBlock, mapBlock]
    have hstmt := exec h stmt ⟨fun l hl => hleaves l (.inl hl), fun a ha => htests a (.inl ha),
      fun id hid => hloops id (.inl hid)⟩
    exact execBlock h rest ⟨fun l hl => hleaves l (.inr hl), fun a ha => htests a (.inr ha),
      fun id hid => hloops id (.inr hid)⟩ _ _ (h.unlessStopped hstmt s t hst)

end

end Simulates

end Quadrants.Library.StructuredRuns
