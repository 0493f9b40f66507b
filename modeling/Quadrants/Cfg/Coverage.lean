import Quadrants.Cfg.Reducible

/-!
The graph covers every run: the statements a run executes are those of the nodes along
a path from the start node to the final node.

Branch outcomes, the condition of `while_control` and trip counts are free.  The body of
an offloaded task is run once, as one iteration of its parallel loop.
-/

namespace Quadrants.Cfg

open List

variable {σ κ : Type}

inductive Exit
  | normal
  | continued
  | broken
  deriving DecidableEq

inductive Iterations (body : List σ → Exit → Prop) : List σ → Prop
  | nil : Iterations body []
  | cons {t ts : List σ} {x : Exit} :
      body t x → x ≠ .broken → Iterations body ts → Iterations body (t ++ ts)

def Breaks (body : List σ → Exit → Prop) (t : List σ) : Prop :=
  ∃ ts last, t = ts ++ last ∧ Iterations body ts ∧ body last .broken

mutual

def Stmt.Runs : Stmt σ κ → List σ → Exit → Prop
  | .simple s, t, x => t = [s] ∧ x = .normal
  | .ifStmt _ tr fl, t, x => Branch.Runs tr t x ∨ Branch.Runs fl t x
  | .whileStmt body, t, x => x = .normal ∧ Breaks (Block.Runs body) t
  | .forStmt _ body, t, x =>
    x = .normal ∧ (Iterations (Block.Runs body) t ∨ Breaks (Block.Runs body) t)
  | .continueStmt, t, x => t = [] ∧ x = .continued
  | .whileControl _, t, x => t = [] ∧ x ≠ .continued

def Block.Runs : Block σ κ → List σ → Exit → Prop
  | .nil, t, x => t = [] ∧ x = .normal
  | .cons s rest, t, x =>
    (Stmt.Runs s t x ∧ x ≠ .normal) ∨
      ∃ t1 t2, t = t1 ++ t2 ∧ Stmt.Runs s t1 .normal ∧ Block.Runs rest t2 x

def Branch.Runs : Branch σ κ → List σ → Exit → Prop
  | .absent, t, x => t = [] ∧ x = .normal
  | .present b, t, x => Block.Runs b t x

end

def runSections : List (List σ → Prop) → List σ → Prop
  | [], t => t = []
  | r :: rest, t => ∃ t1 t2, t = t1 ++ t2 ∧ r t1 ∧ runSections rest t2

def sectionRuns (br : Branch σ κ) (t : List σ) : Prop := br.Runs t .normal

def bodyRuns (br : Branch σ κ) (t : List σ) : Prop := br.Runs t .normal ∨ br.Runs t .continued

def TopStmt.Runs : TopStmt σ κ → List σ → Prop
  | .stmt s, t => s.Runs t .normal
  | .offloaded _ tlsPrologue meshPrologue blsPrologue body blsEpilogue tlsEpilogue, t =>
    runSections [sectionRuns tlsPrologue, sectionRuns meshPrologue, sectionRuns blsPrologue,
      bodyRuns body, sectionRuns blsEpilogue, sectionRuns tlsEpilogue] t

def rootRuns (root : List (TopStmt σ κ)) (t : List σ) : Prop :=
  runSections (root.map TopStmt.Runs) t

inductive Graph.Walk (g : Graph σ) : Nat → List σ → Prop
  | start : Walk g 0 (g.stmts 0)
  | step {u v : Nat} {t : List σ} : Walk g u t → v ∈ g.next u → Walk g v (t ++ g.stmts v)

namespace Builder

structure Inside (g : Graph σ) (b : Builder σ) : Prop where
  nodes : b.nodes <+: g.nodes
  edges : ∀ e ∈ b.edges, e ∈ g.edges

/-- Control is where the next node will begin, after the pending statements. -/
def At (g : Graph σ) (b : Builder σ) (t : List σ) : Prop :=
  ∃ u t', g.Walk u t' ∧ (u ∈ b.prevNodes ∨ (u, b.size) ∈ g.edges) ∧ t = t' ++ b.pending

variable {b b' : Builder σ} {g : Graph σ} {t : List σ}

theorem newNode_walk (hin : Inside g b.newNode) (h : At g b t) : g.Walk b.size t := by
  obtain ⟨u, t', hw, hu, rfl⟩ := h
  have hedge : (u, b.size) ∈ g.edges := by
    rcases hu with hu | hu
    · apply hin.edges
      exact mem_append_right _ (mem_map.mpr ⟨u, hu, rfl⟩)
    · exact hu
  have hstmts : g.stmts b.size = b.pending := by
    obtain ⟨more, hmore⟩ := hin.nodes
    have hnode : g.nodes[b.size]? = some ⟨b.pending, b.inParallelFor⟩ := by
      rw [← hmore]
      simp [newNode, addEdges, size]
    rw [Graph.stmts, hnode]
  rw [← hstmts]
  exact hw.step (Graph.mem_next.mpr hedge)

theorem At.of_walk {u : Nat} (hw : g.Walk u t)
    (hu : u ∈ b.prevNodes ∨ (u, b.size) ∈ g.edges) (hp : b.pending = []) : At g b t :=
  ⟨u, t, hw, hu, by rw [hp, append_nil]⟩

def Lands (g : Graph σ) (b : Builder σ) (normal : List σ → Prop) (t : List σ) : Exit → Prop
  | .normal => normal t
  | .continued => ∃ c ∈ b.continuesInCurrentLoop, g.Walk c t
  | .broken => ∃ c ∈ b.breaksInCurrentLoop, g.Walk c t

structure Kept (b b' : Builder σ) : Prop where
  nodes : b.nodes <+: b'.nodes
  edges : ∀ e ∈ b.edges, e ∈ b'.edges
  continues : ∀ c ∈ b.continuesInCurrentLoop, c ∈ b'.continuesInCurrentLoop
  breaks : ∀ c ∈ b.breaksInCurrentLoop, c ∈ b'.breaksInCurrentLoop

theorem Grown.kept (h : Grown b b') : Kept b b' := by
  obtain ⟨es, -, hes, -⟩ := h.region
  obtain ⟨cs, hcs, -⟩ := h.continues
  obtain ⟨bs, hbs, -⟩ := h.breaks
  refine ⟨h.nodes, ?_, ?_, ?_⟩
  · rw [hes]
    exact fun e he => mem_append_left _ he
  · rw [hcs]
    exact fun c hc => mem_append_left _ hc
  · rw [hbs]
    exact fun c hc => mem_append_left _ hc

theorem Inside.of_kept (h : Inside g b') (h' : Kept b b') : Inside g b :=
  ⟨h'.nodes.trans h.nodes, fun e he => h.edges e (h'.edges e he)⟩

theorem Lands.kept {normal normal' : List σ → Prop} {x : Exit} (h : Lands g b normal t x)
    (h' : Kept b b') (hnormal : x = .normal → normal t → normal' t) : Lands g b' normal' t x := by
  cases x with
  | normal => exact hnormal rfl h
  | continued =>
    obtain ⟨c, hc, hw⟩ := h
    exact ⟨c, h'.continues c hc, hw⟩
  | broken =>
    obtain ⟨c, hc, hw⟩ := h
    exact ⟨c, h'.breaks c hc, hw⟩

def CoversBlock (g : Graph σ) (blk : Block σ κ) : Prop :=
  ∀ b : Builder σ, b.Valid → Inside g (visitBlock blk b) → ∀ t0, At g b t0 → ∀ t x,
    blk.Runs t x → Lands g (visitBlock blk b) (g.Walk (visitBlock blk b).back) (t0 ++ t) x

def CoversStmt (g : Graph σ) (s : Stmt σ κ) : Prop :=
  ∀ b : Builder σ, b.Valid → Inside g (visitStmt s b) → ∀ t0, At g b t0 → ∀ t x,
    s.Runs t x → Lands g (visitStmt s b) (At g (visitStmt s b)) (t0 ++ t) x

section Branches

variable {g : Graph σ} {before : Nat} {b : Builder σ}

theorem visitBranch_kept (br : Branch σ κ) (hb : b.Valid) : Kept b (visitBranch br before b).1 := by
  cases br with
  | absent => exact (Grown.refl b).kept
  | present blk =>
    have h := (visitBlock_grown blk b hb).toGrown.kept
    exact { h with edges := fun e he => mem_append_left _ (h.edges e he) }

theorem visitBranch_covers (br : Branch σ κ) (hcov : ∀ blk, br = .present blk → CoversBlock g blk)
    (hb : b.Valid) (hp : b.pending = []) (hin : Inside g (visitBranch br before b).1)
    {t0 : List σ} (hw : g.Walk before t0) {t : List σ} {x : Exit} (hr : br.Runs t x) :
    Lands g (visitBranch br before b).1
      (fun t => match (visitBranch br before b).2 with
        | some last => g.Walk last t
        | none => g.Walk before t) (t0 ++ t) x := by
  cases br with
  | absent =>
    obtain ⟨rfl, rfl⟩ := hr
    rw [append_nil]
    exact hw
  | present blk =>
    rw [visitBranch] at hin ⊢
    have hedge : (before, b.size) ∈ g.edges := hin.edges _ (by simp [addEdge])
    have hin' : Inside g (visitBlock blk b) :=
      ⟨hin.nodes, fun e he => hin.edges e (mem_append_left _ he)⟩
    have hland := hcov blk rfl b hb hin' t0 (At.of_walk hw (Or.inr hedge) hp) t x hr
    refine hland.kept ?_ fun _ h => h
    exact { (Grown.refl _).kept with edges := fun e he => mem_append_left _ he }

end Branches

section Loops

variable {g : Graph σ} {outer b : Builder σ}

def turns (outer b : Builder σ) : List Nat :=
  outer.back :: b.back :: b.continuesInCurrentLoop

variable {u : Nat}

variable {body : Block σ κ} {isWhileTrue parallel : Bool} {t0 : List σ}

theorem exitLoop_turn (hu : u ∈ turns outer b) :
    (u, outer.size) ∈ (exitLoop outer b isWhileTrue).edges := by
  have hedges : (exitLoop outer b isWhileTrue).edges = b.edges ++
      [(outer.back, outer.size)] ++ [(b.back, outer.size)] ++
      b.continuesInCurrentLoop.map fun c => (c, outer.size) := by
    cases isWhileTrue <;> rfl
  rw [hedges]
  simp only [turns, mem_cons] at hu
  rcases hu with rfl | rfl | hu
  · simp
  · simp
  · simp [hu]

theorem exitLoop_break (hu : u ∈ b.breaksInCurrentLoop) :
    u ∈ (exitLoop outer b isWhileTrue).prevNodes := by
  cases isWhileTrue <;> simp [exitLoop, Builder.pushPrev, addEdges, addEdge, hu]

theorem exitLoop_for (hu : u ∈ turns outer b) : u ∈ (exitLoop outer b false).prevNodes := by
  simp only [turns, mem_cons] at hu
  rcases hu with rfl | rfl | hu
  · simp [exitLoop, Builder.pushPrev, addEdges, addEdge]
  · simp [exitLoop, Builder.pushPrev, addEdges, addEdge]
  · simp [exitLoop, Builder.pushPrev, addEdges, addEdge, hu]

theorem iterations_covers (hcov : CoversBlock g body)
    (hb : b = visitBlock body (outer.enterLoop parallel)) (hvalid : (outer.enterLoop parallel).Valid)
    (hpend : outer.pending = []) (hin : Inside g b)
    (hturn : ∀ u ∈ turns outer b, (u, outer.size) ∈ g.edges) {ts : List σ}
    (hiter : Iterations body.Runs ts) (h : ∃ u ∈ turns outer b, g.Walk u t0) :
    ∃ u ∈ turns outer b, g.Walk u (t0 ++ ts) := by
  induction hiter generalizing t0 with
  | nil => simpa using h
  | @cons t ts x hrun hx _ ih =>
    obtain ⟨u, hu, hw⟩ := h
    have hat : At g (outer.enterLoop parallel) t0 := At.of_walk hw (Or.inr (hturn u hu)) hpend
    have hland := hcov _ hvalid (hb ▸ hin) t0 hat t x hrun
    rw [← hb] at hland
    rw [← append_assoc]
    apply ih
    cases x with
    | normal => exact ⟨b.back, by simp [turns], hland⟩
    | continued =>
      obtain ⟨c, hc, hwc⟩ := hland
      exact ⟨c, by simp [turns, hc], hwc⟩
    | broken => exact absurd rfl hx

theorem breaks_covers (hcov : CoversBlock g body)
    (hb : b = visitBlock body (outer.enterLoop parallel)) (hvalid : (outer.enterLoop parallel).Valid)
    (hpend : outer.pending = []) (hin : Inside g b)
    (hturn : ∀ u ∈ turns outer b, (u, outer.size) ∈ g.edges) {t : List σ}
    (hbreaks : Breaks body.Runs t) (h : ∃ u ∈ turns outer b, g.Walk u t0) :
    ∃ u ∈ b.breaksInCurrentLoop, g.Walk u (t0 ++ t) := by
  obtain ⟨ts, last, rfl, hiter, hlast⟩ := hbreaks
  obtain ⟨u, hu, hw⟩ := iterations_covers hcov hb hvalid hpend hin hturn hiter h
  have hat : At g (outer.enterLoop parallel) (t0 ++ ts) :=
    At.of_walk hw (Or.inr (hturn u hu)) hpend
  have hland := hcov _ hvalid (hb ▸ hin) _ hat last .broken hlast
  rw [← hb, append_assoc] at hland
  exact hland

end Loops

section Statements

variable {g : Graph σ}

variable {t : List σ}

variable {before : Nat} {falseEnd trueEnd : Option Nat}

theorem mem_afterIf_true (h : match trueEnd with
      | some last => g.Walk last t
      | none => g.Walk before t) : ∃ u ∈ afterIf before trueEnd falseEnd, g.Walk u t := by
  cases trueEnd with
  | none => exact ⟨before, by cases falseEnd <;> simp [afterIf], h⟩
  | some last => exact ⟨last, by cases falseEnd <;> simp [afterIf], h⟩

theorem mem_afterIf_false (h : match falseEnd with
      | some last => g.Walk last t
      | none => g.Walk before t) : ∃ u ∈ afterIf before trueEnd falseEnd, g.Walk u t := by
  cases falseEnd with
  | none => exact ⟨before, by cases trueEnd <;> simp [afterIf], h⟩
  | some last => exact ⟨last, by cases trueEnd <;> simp [afterIf], h⟩

theorem visitIf_covers (cond : κ) (tr fl : Branch σ κ)
    (ht : ∀ blk, tr = .present blk → CoversBlock g blk)
    (hf : ∀ blk, fl = .present blk → CoversBlock g blk) : CoversStmt g (.ifStmt cond tr fl) := by
  intro b hb hin t0 hat t x hr
  have hnew := newNode_blockGrown hb
  have hv1 := hnew.toGrown.valid hb
  obtain ⟨h1, hle1, -⟩ := visitBranch_blockGrown tr hnew hnew.back_range
    fun blk _ => visitBlock_grown blk _ hv1
  obtain ⟨h2, -, -⟩ := visitBranch_blockGrown fl h1
    ⟨hnew.back_range.1, lt_of_lt_of_le hnew.back_range.2 hle1⟩
    fun blk _ => visitBlock_grown blk _ (h1.toGrown.valid hb)
  rw [visitStmt] at hin ⊢
  dsimp only at hin ⊢
  have hk1 := @visitBranch_kept σ κ b.newNode.back b.newNode tr hv1
  have hk2 := @visitBranch_kept σ κ b.newNode.back (visitBranch tr b.newNode.back b.newNode).1 fl
    (h1.toGrown.valid hb)
  have hcov1 := @visitBranch_covers σ κ g b.newNode.back b.newNode tr ht hv1 rfl
  have hcov2 := @visitBranch_covers σ κ g b.newNode.back
    (visitBranch tr b.newNode.back b.newNode).1 fl hf (h1.toGrown.valid hb) h1.pending_nil
  generalize visitBranch tr b.newNode.back b.newNode = r1 at *
  generalize visitBranch fl b.newNode.back r1.1 = r2 at *
  have hin2 : Inside g r2.1 := ⟨hin.nodes, hin.edges⟩
  have hin1 : Inside g r1.1 := hin2.of_kept hk2
  have hin0 : Inside g b.newNode := hin1.of_kept hk1
  have hw : g.Walk b.newNode.back t0 := by
    rw [newNode_back]
    exact newNode_walk hin0 hat
  have hland : ∀ {t}, (∃ u ∈ afterIf b.newNode.back r1.2 r2.2, g.Walk u t) →
      At g (r2.1.pushPrev (afterIf b.newNode.back r1.2 r2.2)) t := by
    rintro t ⟨u, hu, hwu⟩
    exact At.of_walk hwu (Or.inl (mem_append_right _ hu)) h2.pending_nil
  rcases hr with hr | hr
  · exact (hcov1 hin1 hw hr).kept { hk2 with } fun _ h => hland (mem_afterIf_true h)
  · exact (hcov2 hin2 hw hr).kept { (Grown.refl r2.1).kept with }
      fun _ h => hland (mem_afterIf_false h)

theorem visitLoop_covers {body : Block σ κ} (hcov : CoversBlock g body) {b : Builder σ}
    (hb : b.Valid) (parallel isWhileTrue : Bool) (hin : Inside g (exitLoop b.newNode
      (visitBlock body (b.newNode.enterLoop parallel)) isWhileTrue)) {t0 : List σ}
    (hat : At g b t0)
    (hr : (isWhileTrue = false ∧ Iterations body.Runs t) ∨ Breaks body.Runs t) :
    At g (exitLoop b.newNode (visitBlock body (b.newNode.enterLoop parallel)) isWhileTrue)
      (t0 ++ t) := by
  have hnew := newNode_blockGrown hb
  have hvalid : (b.newNode.enterLoop parallel).Valid := hnew.toGrown.valid hb
  have hbody := visitBlock_grown body _ hvalid
  have hkept := hbody.toGrown.kept
  generalize hb' : visitBlock body (b.newNode.enterLoop parallel) = b' at *
  have hin' : Inside g b' := by
    refine ⟨?_, fun e he => hin.edges e ?_⟩
    · have := hin.nodes
      cases isWhileTrue <;> exact this
    · cases isWhileTrue <;> simp [exitLoop, Builder.pushPrev, addEdges, addEdge, he]
  have hin0 : Inside g b.newNode :=
    ⟨hkept.nodes.trans hin'.nodes, fun e he => hin'.edges e (hkept.edges e he)⟩
  have hturn : ∀ u ∈ turns b.newNode b', (u, b.newNode.size) ∈ g.edges := fun u hu =>
    hin.edges _ (exitLoop_turn hu)
  have hstart : ∃ u ∈ turns b.newNode b', g.Walk u t0 := by
    refine ⟨b.newNode.back, by simp [turns], ?_⟩
    rw [newNode_back]
    exact newNode_walk hin0 hat
  have hpend : (exitLoop b.newNode b' isWhileTrue).pending = [] := by
    cases isWhileTrue <;> exact hbody.pending_nil
  rcases hr with ⟨rfl, hiter⟩ | hbreaks
  · obtain ⟨u, hu, hw⟩ := iterations_covers hcov hb'.symm hvalid rfl hin' hturn hiter hstart
    exact At.of_walk hw (Or.inl (exitLoop_for hu)) hpend
  · obtain ⟨u, hu, hw⟩ := breaks_covers hcov hb'.symm hvalid rfl hin' hturn hbreaks hstart
    exact At.of_walk hw (Or.inl (exitLoop_break hu)) hpend

mutual

theorem visitStmt_covers (s : Stmt σ κ) : CoversStmt g s := by
  cases s with
  | simple s =>
    intro b hb hin t0 hat t x hr
    obtain ⟨rfl, rfl⟩ := hr
    obtain ⟨u, t', hw, hu, rfl⟩ := hat
    rw [visitStmt]
    exact ⟨u, t', hw, hu, by rw [append_assoc]⟩
  | ifStmt cond tr fl =>
    refine visitIf_covers cond tr fl ?_ ?_
    · intro blk heq
      exact visitBlock_covers blk
    · intro blk heq
      exact visitBlock_covers blk
  | whileStmt body =>
    intro b hb hin t0 hat t x hr
    obtain ⟨rfl, hr⟩ := hr
    exact visitLoop_covers (visitBlock_covers body) hb _ _ hin hat (Or.inr hr)
  | forStmt range body =>
    intro b hb hin t0 hat t x hr
    obtain ⟨rfl, hr⟩ := hr
    refine visitLoop_covers (visitBlock_covers body) hb _ _ hin hat ?_
    rcases hr with hr | hr
    · exact Or.inl ⟨rfl, hr⟩
    · exact Or.inr hr
  | continueStmt =>
    intro b hb hin t0 hat t x hr
    obtain ⟨rfl, rfl⟩ := hr
    refine ⟨b.newNode.back, mem_append_right _ (by simp), ?_⟩
    rw [newNode_back, append_nil]
    exact newNode_walk ⟨hin.nodes, hin.edges⟩ hat
  | whileControl cond =>
    intro b hb hin t0 hat t x hr
    obtain ⟨rfl, hx⟩ := hr
    have hw : g.Walk b.newNode.back (t0 ++ []) := by
      rw [newNode_back, append_nil]
      exact newNode_walk ⟨hin.nodes, hin.edges⟩ hat
    cases x with
    | normal => exact At.of_walk hw (Or.inl (mem_append_right _ (by simp))) rfl
    | continued => exact absurd rfl hx
    | broken => exact ⟨b.newNode.back, mem_append_right _ (by simp), hw⟩

theorem visitBlock_covers (blk : Block σ κ) : CoversBlock g blk := by
  cases blk with
  | nil =>
    intro b hb hin t0 hat t x hr
    obtain ⟨rfl, rfl⟩ := hr
    change g.Walk b.newNode.back (t0 ++ [])
    rw [newNode_back, append_nil]
    exact newNode_walk hin hat
  | cons s rest =>
    intro b hb hin t0 hat t x hr
    have hs := visitStmt_grown s b hb
    have hrest := visitBlock_grown rest _ (hs.valid hb)
    have hin' := hin.of_kept hrest.toGrown.kept
    rcases hr with ⟨hr, hx⟩ | ⟨t1, t2, rfl, hr1, hr2⟩
    · exact (visitStmt_covers s b hb hin' t0 hat t x hr).kept hrest.toGrown.kept
        fun hn => absurd hn hx
    · have hmid := visitStmt_covers s b hb hin' t0 hat t1 .normal hr1
      rw [← append_assoc]
      exact visitBlock_covers rest _ (hs.valid hb) hin _ hmid t2 x hr2

end

end Statements

section TopLevel

variable {g : Graph σ} {b : Builder σ}

variable {br : Branch σ κ} {t t0 : List σ}

theorem visitSection_inside (hb : b.Good) (h : Inside g (visitSection br b)) : Inside g b := by
  cases br with
  | absent => exact h
  | present blk =>
    have hnew := newNode_blockGrown hb.valid
    have hbody := visitBlock_grown blk _ (hnew.toGrown.valid hb.valid)
    have h' : Inside g (visitBlock blk b.newNode) :=
      ⟨h.nodes, fun e he => h.edges e (mem_append_left _ he)⟩
    exact (h'.of_kept hbody.toGrown.kept).of_kept hnew.toGrown.kept

theorem visitSection_covers (hb : b.Good) (hin : Inside g (visitSection br b)) (hat : At g b t0)
    (hr : sectionRuns br t) : At g (visitSection br b) (t0 ++ t) := by
  cases br with
  | absent =>
    obtain ⟨rfl, -⟩ := hr
    rw [append_nil]
    exact hat
  | present blk =>
    have hnew := newNode_blockGrown hb.valid
    have hvalid := hnew.toGrown.valid hb.valid
    have hbody := visitBlock_grown blk _ hvalid
    have hin' : Inside g (visitBlock blk b.newNode) :=
      ⟨hin.nodes, fun e he => hin.edges e (mem_append_left _ he)⟩
    have hw : g.Walk b.newNode.back t0 := by
      rw [newNode_back]
      exact newNode_walk (hin'.of_kept hbody.toGrown.kept) hat
    have hedge : (b.newNode.back, b.newNode.size) ∈ g.edges :=
      hin.edges _ (mem_append_right _ (mem_singleton_self _))
    have hland := visitBlock_covers blk _ hvalid hin' t0 (At.of_walk hw (Or.inr hedge) rfl)
      t .normal hr
    exact At.of_walk hland (Or.inl (mem_append_right _ (mem_singleton_self _)))
      hbody.pending_nil

theorem visitBody_parts (parallelFor : Bool) (blk : Block σ κ) (hb : b.Good) :
    ∃ before : Builder σ, before.Good ∧ before.pending = [] ∧ before.size = b.newNode.size ∧
      before.nodes = b.newNode.nodes ∧ before.edges = b.newNode.edges ∧
      (∀ e ∈ (visitBlock blk before).edges, e ∈ (visitBody parallelFor (.present blk) b).edges) ∧
      (visitBody parallelFor (.present blk) b).nodes = (visitBlock blk before).nodes ∧
      (visitBody parallelFor (.present blk) b).pending = (visitBlock blk before).pending ∧
      (b.newNode.back, before.size) ∈ (visitBody parallelFor (.present blk) b).edges ∧
      (visitBlock blk before).back ∈ (visitBody parallelFor (.present blk) b).prevNodes ∧
      ∀ c ∈ (visitBlock blk before).continuesInCurrentLoop,
        c ∈ (visitBody parallelFor (.present blk) b).prevNodes := by
  have hgood := hb.grown (newNode_grown hb.valid)
  refine ⟨{ b.newNode with inParallelFor := b.newNode.inParallelFor || parallelFor },
    { hgood with }, rfl, rfl, rfl, rfl, ?_, rfl, rfl, ?_, ?_, ?_⟩
  · exact fun e he => mem_append_left _ (mem_append_left _ he)
  · exact mem_append_right _ (mem_singleton_self _)
  · exact mem_append_right _ (mem_singleton_self _)
  · exact fun c hc => mem_append_left _ (mem_append_right _ hc)

variable {parallelFor : Bool} {s : TopStmt σ κ}

theorem visitBody_inside (hb : b.Good)
    (h : Inside g (visitBody parallelFor br b)) : Inside g b := by
  cases br with
  | absent => exact h
  | present blk =>
    obtain ⟨before, hgood, -, -, hn, he, hedges, hnodes, -⟩ := visitBody_parts parallelFor blk hb
    have hbody := (visitBlock_grown blk before hgood.valid).toGrown.kept
    have hnew := (newNode_grown hb.valid).kept
    refine ⟨?_, fun e hmem => h.edges e (hedges e (hbody.edges e ?_))⟩
    · have := h.nodes
      rw [hnodes] at this
      exact (hnew.nodes.trans (hn ▸ hbody.nodes)).trans this
    · rw [he]
      exact hnew.edges e hmem

theorem visitBody_covers (hb : b.Good)
    (hin : Inside g (visitBody parallelFor br b)) (hat : At g b t0)
    (hr : bodyRuns br t) : At g (visitBody parallelFor br b) (t0 ++ t) := by
  cases br with
  | absent =>
    rcases hr with ⟨rfl, -⟩ | ⟨-, hx⟩
    · rw [append_nil]
      exact hat
    · exact absurd hx (by simp)
  | present blk =>
    obtain ⟨before, hgood, hpend, hsize, hn, he, hedges, hnodes, hpend', hentry, hback, hcont⟩ :=
      visitBody_parts parallelFor blk hb
    have hbody := visitBlock_grown blk before hgood.valid
    have hin' : Inside g (visitBlock blk before) :=
      ⟨hnodes ▸ hin.nodes, fun e hmem => hin.edges e (hedges e hmem)⟩
    have hin0 : Inside g b.newNode := by
      have := hin'.of_kept hbody.toGrown.kept
      exact ⟨hn ▸ this.nodes, he ▸ this.edges⟩
    have hw : g.Walk b.newNode.back t0 := by
      rw [newNode_back]
      exact newNode_walk hin0 hat
    have hat' : At g before t0 := At.of_walk hw (Or.inr (hin.edges _ hentry)) hpend
    have hpend'' := hpend'.trans hbody.pending_nil
    rcases hr with hr | hr
    · have hland := visitBlock_covers blk _ hgood.valid hin' t0 hat' t .normal hr
      exact At.of_walk hland (Or.inl hback) hpend''
    · obtain ⟨c, hc, hwc⟩ := visitBlock_covers blk _ hgood.valid hin' t0 hat' t .continued hr
      exact At.of_walk hwc (Or.inl (hcont c hc)) hpend''

theorem visitTop_inside (hb : b.Good) (h : Inside g (visitTop b s)) : Inside g b := by
  cases s with
  | stmt s => exact h.of_kept (visitStmt_grown s b hb.valid).kept
  | offloaded parallelFor tlsPrologue meshPrologue blsPrologue body blsEpilogue tlsEpilogue =>
    have h0 : Good { b with inOffload := true } := { hb with }
    have h1 := visitSection_good h0 tlsPrologue
    have h2 := visitSection_good h1 meshPrologue
    have h3 := visitSection_good h2 blsPrologue
    have h4 := visitBody_good h3 parallelFor body
    have h5 := visitSection_good h4 blsEpilogue
    have i5 := visitSection_inside h5 ⟨h.nodes, h.edges⟩
    have i3 := visitBody_inside h3 (visitSection_inside h4 i5)
    have i0 := visitSection_inside h0 (visitSection_inside h1 (visitSection_inside h2 i3))
    exact ⟨i0.nodes, i0.edges⟩

theorem visitTop_covers (hb : b.Good) (hin : Inside g (visitTop b s))
    (hat : At g b t0) (hr : s.Runs t) : At g (visitTop b s) (t0 ++ t) := by
  cases s with
  | stmt s => exact visitStmt_covers s b hb.valid hin t0 hat t .normal hr
  | offloaded parallelFor tlsPrologue meshPrologue blsPrologue body blsEpilogue tlsEpilogue =>
    obtain ⟨t1, _, rfl, r1, t2, _, rfl, r2, t3, _, rfl, r3, t4, _, rfl, r4, t5, _, rfl, r5, t6, _,
      rfl, r6, rfl⟩ := hr
    have h0 : Good { b with inOffload := true } := { hb with }
    have h1 := visitSection_good h0 tlsPrologue
    have h2 := visitSection_good h1 meshPrologue
    have h3 := visitSection_good h2 blsPrologue
    have h4 := visitBody_good h3 parallelFor body
    have h5 := visitSection_good h4 blsEpilogue
    have i6 : Inside g (visitSection tlsEpilogue (visitSection blsEpilogue (visitBody parallelFor body
        (visitSection blsPrologue (visitSection meshPrologue
          (visitSection tlsPrologue { b with inOffload := true })))))) := ⟨hin.nodes, hin.edges⟩
    have i5 := visitSection_inside h5 i6
    have i4 := visitSection_inside h4 i5
    have i3 := visitBody_inside h3 i4
    have i2 := visitSection_inside h2 i3
    have i1 := visitSection_inside h1 i2
    have hat0 : At g { b with inOffload := true } t0 := hat
    have a1 := visitSection_covers h0 i1 hat0 r1
    have a2 := visitSection_covers h1 i2 a1 r2
    have a3 := visitSection_covers h2 i3 a2 r3
    have a4 := visitBody_covers h3 i4 a3 r4
    have a5 := visitSection_covers h4 i5 a4 r5
    have a6 := visitSection_covers h5 i6 a5 r6
    simp only [append_assoc, append_nil] at a6 ⊢
    exact a6

theorem foldl_visitTop_inside (root : List (TopStmt σ κ)) (hb : b.Good)
    (h : Inside g (root.foldl visitTop b)) : Inside g b := by
  induction root generalizing b with
  | nil => exact h
  | cons s rest ih => exact visitTop_inside hb (ih (visitTop_good hb s) h)

theorem foldl_visitTop_covers (root : List (TopStmt σ κ)) (hb : b.Good)
    (hin : Inside g (root.foldl visitTop b)) (hat : At g b t0)
    (hr : rootRuns root t) : At g (root.foldl visitTop b) (t0 ++ t) := by
  induction root generalizing b t0 t with
  | nil =>
    obtain rfl : t = [] := hr
    rw [append_nil]
    exact hat
  | cons s rest ih =>
    obtain ⟨t1, t2, rfl, r1, r2⟩ := hr
    have hgood := visitTop_good hb s
    have hat1 := visitTop_covers hb (foldl_visitTop_inside rest hgood hin) hat r1
    rw [← append_assoc]
    exact ih hgood hin hat1 r2

end TopLevel

end Builder

mutual

def Stmt.statements : Stmt σ κ → List σ
  | .simple s => [s]
  | .ifStmt _ tr fl => Branch.statements tr ++ Branch.statements fl
  | .whileStmt body => Block.statements body
  | .forStmt _ body => Block.statements body
  | .continueStmt => []
  | .whileControl _ => []

def Block.statements : Block σ κ → List σ
  | .nil => []
  | .cons s rest => Stmt.statements s ++ Block.statements rest

def Branch.statements : Branch σ κ → List σ
  | .absent => []
  | .present b => Block.statements b

end

def TopStmt.statements : TopStmt σ κ → List σ
  | .stmt s => s.statements
  | .offloaded _ tlsPrologue meshPrologue blsPrologue body blsEpilogue tlsEpilogue =>
    tlsPrologue.statements ++ meshPrologue.statements ++ blsPrologue.statements ++
      body.statements ++ blsEpilogue.statements ++ tlsEpilogue.statements

namespace Builder

def contents (b : Builder σ) : List σ := b.nodes.flatMap Node.stmts ++ b.pending

theorem newNode_contents (b : Builder σ) : b.newNode.contents = b.contents := by
  simp [contents, newNode, addEdges]

theorem exitLoop_contents (outer b : Builder σ) (isWhileTrue : Bool) :
    (exitLoop outer b isWhileTrue).contents = b.contents := by
  cases isWhileTrue <;> rfl

theorem visitBranch_contents {br : Branch σ κ} {before : Nat} {b : Builder σ}
    (h : ∀ blk, br = .present blk → (visitBlock blk b).contents = b.contents ++ blk.statements) :
    (visitBranch br before b).1.contents = b.contents ++ br.statements := by
  cases br with
  | absent =>
    rw [visitBranch, Branch.statements, append_nil]
  | present blk =>
    exact h blk rfl

mutual

theorem visitStmt_contents (s : Stmt σ κ) (b : Builder σ) :
    (visitStmt s b).contents = b.contents ++ s.statements := by
  cases s with
  | simple s => simp [visitStmt, contents, Stmt.statements]
  | ifStmt cond tr fl =>
    rw [Stmt.statements]
    have h1 : ∀ b' : Builder σ, (visitBranch tr b.newNode.back b').1.contents =
        b'.contents ++ tr.statements := by
      intro b'
      refine visitBranch_contents fun blk heq => ?_
      exact visitBlock_contents blk b'
    have h2 : ∀ b' : Builder σ, (visitBranch fl b.newNode.back b').1.contents =
        b'.contents ++ fl.statements := by
      intro b'
      refine visitBranch_contents fun blk heq => ?_
      exact visitBlock_contents blk b'
    change (visitBranch fl b.newNode.back (visitBranch tr b.newNode.back b.newNode).1).1.contents = _
    rw [h2, h1, newNode_contents, append_assoc]
  | whileStmt body =>
    rw [visitStmt, exitLoop_contents, visitBlock_contents body]
    exact congrArg (· ++ body.statements) (newNode_contents b)
  | forStmt range body =>
    rw [visitStmt, exitLoop_contents, visitBlock_contents body]
    exact congrArg (· ++ body.statements) (newNode_contents b)
  | continueStmt =>
    rw [Stmt.statements, append_nil]
    exact newNode_contents b
  | whileControl cond =>
    rw [Stmt.statements, append_nil]
    exact newNode_contents b

theorem visitBlock_contents (blk : Block σ κ) (b : Builder σ) :
    (visitBlock blk b).contents = b.contents ++ blk.statements := by
  cases blk with
  | nil => rw [visitBlock, Block.statements, append_nil, newNode_contents]
  | cons s rest =>
    rw [visitBlock, Block.statements, visitBlock_contents rest, visitStmt_contents s, append_assoc]

end

theorem visitSection_contents (br : Branch σ κ) (b : Builder σ) :
    (visitSection br b).contents = b.contents ++ br.statements := by
  cases br with
  | absent => rw [visitSection, Branch.statements, append_nil]
  | present blk =>
    rw [← newNode_contents b]
    exact visitBlock_contents blk b.newNode

theorem visitBody_contents (parallelFor : Bool) (br : Branch σ κ) (b : Builder σ) :
    (visitBody parallelFor br b).contents = b.contents ++ br.statements := by
  cases br with
  | absent => rw [visitBody, Branch.statements, append_nil]
  | present blk =>
    rw [← newNode_contents b]
    exact visitBlock_contents blk
      { b.newNode with inParallelFor := b.newNode.inParallelFor || parallelFor }

theorem visitTop_contents (b : Builder σ) (s : TopStmt σ κ) :
    (visitTop b s).contents = b.contents ++ s.statements := by
  cases s with
  | stmt s => exact visitStmt_contents s b
  | offloaded parallelFor tlsPrologue meshPrologue blsPrologue body blsEpilogue tlsEpilogue =>
    have h0 : ({ b with inOffload := true } : Builder σ).contents = b.contents := rfl
    rw [TopStmt.statements]
    change (visitSection tlsEpilogue _).contents = _
    simp [visitSection_contents, visitBody_contents, h0]

theorem foldl_visitTop_contents (root : List (TopStmt σ κ)) (b : Builder σ) :
    (root.foldl visitTop b).contents = b.contents ++ root.flatMap TopStmt.statements := by
  induction root generalizing b with
  | nil => simp
  | cons s rest ih => rw [foldl_cons, ih, visitTop_contents, flatMap_cons, append_assoc]

end Builder

theorem Graph.build_statements (root : List (TopStmt σ κ)) :
    (Graph.build root).nodes.flatMap Node.stmts = root.flatMap TopStmt.statements := by
  have h := Builder.foldl_visitTop_contents root Builder.start
  have hall : (root.foldl Builder.visitTop Builder.start).newNode.nodes.flatMap Node.stmts =
      root.flatMap TopStmt.statements := by
    simpa [Builder.contents, Builder.newNode, Builder.addEdges, Builder.start] using h
  unfold Graph.build
  dsimp only
  split
  · exact hall
  · simpa using hall

namespace Graph

variable (root : List (TopStmt σ κ))

theorem build_inside :
    Builder.Inside (build root) (root.foldl Builder.visitTop Builder.start).newNode := by
  unfold build
  dsimp only
  split
  · exact ⟨prefix_rfl, fun _ he => he⟩
  · exact ⟨prefix_append _ _, fun _ he => mem_append_left _ he⟩

theorem walk_finalNode {root : List (TopStmt σ κ)} {t : List σ}
    (h : (build root).Walk (root.foldl Builder.visitTop Builder.start).size t) :
    (build root).Walk (build root).finalNode t := by
  generalize hb : root.foldl Builder.visitTop Builder.start = b at h
  have hback := Builder.newNode_back b
  by_cases hempty : (Graph.stmts ⟨b.newNode.nodes, b.newNode.edges, b.newNode.back⟩
      b.newNode.back).isEmpty = true
  · have hbuild : build root = ⟨b.newNode.nodes, b.newNode.edges, b.newNode.back⟩ := by
      unfold build
      rw [hb]
      exact if_pos hempty
    rw [hbuild] at h ⊢
    rw [← hback] at h
    exact h
  · have hbuild : build root = ⟨b.newNode.nodes ++ [⟨[], false⟩],
        b.newNode.edges ++ [(b.newNode.back, b.newNode.nodes.length)], b.newNode.nodes.length⟩ := by
      unfold build
      rw [hb]
      exact if_neg hempty
    rw [hbuild] at h ⊢
    rw [← hback] at h
    have hstmts : Graph.stmts ⟨b.newNode.nodes ++ [⟨[], false⟩],
        b.newNode.edges ++ [(b.newNode.back, b.newNode.nodes.length)], b.newNode.nodes.length⟩
        b.newNode.nodes.length = ([] : List σ) := by
      simp [Graph.stmts]
    have hstep := h.step (v := b.newNode.nodes.length) (mem_next.mpr (by simp))
    rwa [hstmts, append_nil] at hstep

theorem inside_start : Builder.Inside (build root) (root.foldl Builder.visitTop Builder.start) ∧
      Builder.Inside (build root) Builder.start := by
  have hgood := Builder.foldl_visitTop_good root Builder.start_good
  have hin := (build_inside root).of_kept (Builder.newNode_grown hgood.valid).kept
  exact ⟨hin, Builder.foldl_visitTop_inside root Builder.start_good hin⟩

theorem stmts_startNode : (build root).stmts 0 = [] := by
  obtain ⟨more, hmore⟩ := (inside_start root).2.nodes
  rw [stmts, ← hmore]
  rfl

/-- The graph covers every run, and holds every statement exactly once. -/
theorem build_covers (root : List (TopStmt σ κ)) :
    (∀ t, rootRuns root t → (build root).Walk (build root).finalNode t) ∧
      (build root).nodes.flatMap Node.stmts = root.flatMap TopStmt.statements := by
  refine ⟨fun t hr => ?_, build_statements root⟩
  have hin := build_inside root
  have hin' := (inside_start root).1
  have hat : Builder.At (build root) Builder.start [] := by
    refine Builder.At.of_walk ?_ (Or.inl (mem_singleton_self 0)) rfl
    rw [← stmts_startNode root]
    exact Walk.start
  have hend := Builder.foldl_visitTop_covers root Builder.start_good hin' hat hr
  have hwalk := Builder.newNode_walk hin hend
  exact walk_finalNode hwalk

def continueThenBreak : List (TopStmt Nat Unit) :=
  [.stmt (.simple 0),
    .stmt (.whileStmt (.cons (.simple 1) (.cons (.ifStmt () (.present (.cons .continueStmt .nil)) .absent)
      (.cons (.simple 2) (.cons (.whileControl ()) .nil))))),
    .stmt (.simple 3)]

theorem build_covers_continueThenBreak :
    (build continueThenBreak).Walk (build continueThenBreak).finalNode [0, 1, 1, 2, 3] := by
  refine (build_covers continueThenBreak).1 _ ?_
  have hcont : Block.Runs (.cons (.simple 1) (.cons
      (.ifStmt () (.present (.cons .continueStmt .nil)) .absent)
      (.cons (.simple 2) (.cons (.whileControl ()) .nil)))) [1] .continued := by
    refine Or.inr ⟨[1], [], rfl, ⟨rfl, rfl⟩, Or.inl ⟨Or.inl (Or.inl ⟨⟨rfl, rfl⟩, by simp⟩), by simp⟩⟩
  have hbreak : Block.Runs (.cons (.simple 1) (.cons
      (.ifStmt () (.present (.cons .continueStmt .nil)) .absent)
      (.cons (.simple 2) (.cons (.whileControl ()) .nil)))) [1, 2] .broken := by
    refine Or.inr ⟨[1], [2], rfl, ⟨rfl, rfl⟩, Or.inr ⟨[], [2], rfl, Or.inr ⟨rfl, rfl⟩, ?_⟩⟩
    exact Or.inr ⟨[2], [], rfl, ⟨rfl, rfl⟩, Or.inl ⟨⟨rfl, by simp⟩, by simp⟩⟩
  refine ⟨[0], [1, 1, 2, 3], rfl, ⟨rfl, rfl⟩, [1, 1, 2], [3], rfl, ⟨rfl, [1], [1, 2], rfl, ?_, hbreak⟩,
    [3], [], rfl, ⟨rfl, rfl⟩, rfl⟩
  exact Iterations.cons hcont (by simp) Iterations.nil

/-- The offloaded loop of a parallel task makes any number of trips. -/
def loopRuns (br : Branch σ κ) (t : List σ) : Prop := Iterations br.Runs t

def topLoopRuns : TopStmt σ κ → List σ → Prop
  | .stmt s, t => s.Runs t .normal
  | .offloaded parallelFor tlsPrologue meshPrologue blsPrologue body blsEpilogue tlsEpilogue, t =>
    runSections [sectionRuns tlsPrologue, sectionRuns meshPrologue, sectionRuns blsPrologue,
      if parallelFor then loopRuns body else bodyRuns body, sectionRuns blsEpilogue,
      sectionRuns tlsEpilogue] t

def leaves : Block σ κ → Nat
  | .nil => 0
  | .cons s rest => leaves rest + match s with
      | .simple _ | .continueStmt | .whileControl _ => 1
      | _ => 0

def offloadedStore : List (TopStmt Nat Unit) :=
  [.offloaded true .absent .absent .absent (.present (.cons (.simple 7) .nil)) .absent .absent]

theorem offloadedStore_walk {u : Nat} {t : List Nat} (h : (build offloadedStore).Walk u t)
    (hu : 2 ≤ u) : t ≠ [] := by
  induction h with
  | start => exact absurd hu (by decide)
  | @step u v t _ hv ih =>
    have hedges : ∀ u v, (u, v) ∈ (build offloadedStore).edges →
        v = 1 ∨ v = 2 ∨ 2 ≤ u := by
      have : ∀ e ∈ (build offloadedStore).edges, e.2 = 1 ∨ e.2 = 2 ∨ 2 ≤ e.1 := by decide +kernel
      exact fun u v huv => this (u, v) huv
    rcases hedges u v (mem_next.mp hv) with rfl | rfl | hle
    · exact absurd hu (by decide)
    · have : (build offloadedStore).stmts 2 = [7] := by decide +kernel
      rw [this]
      simp
    · exact fun hnil => ih hle (append_eq_nil_iff.mp hnil).1

/-- A task whose loop makes no trip leaves the graph, and a `continue` is in no node. -/
theorem build_not_covers_noTrip : ¬ ((∀ t, runSections (offloadedStore.map topLoopRuns) t →
      (build offloadedStore).Walk (build offloadedStore).finalNode t)) ∧
    ∃ body : Block Nat Unit, leaves body = 1 ∧
      (build [.stmt (.forStmt () body)]).nodes.flatMap Node.stmts = [] := by
  constructor
  · intro h
    have hrun : runSections (offloadedStore.map topLoopRuns) [] := by
      refine ⟨[], [], rfl, ?_, rfl⟩
      exact ⟨[], [], rfl, ⟨rfl, rfl⟩, [], [], rfl, ⟨rfl, rfl⟩, [], [], rfl, ⟨rfl, rfl⟩, [], [], rfl,
        Iterations.nil, [], [], rfl, ⟨rfl, rfl⟩, [], [], rfl, ⟨rfl, rfl⟩, rfl⟩
    exact offloadedStore_walk (h [] hrun) (by decide +kernel) rfl
  · exact ⟨.cons .continueStmt .nil, rfl, by decide +kernel⟩

end Graph

end Quadrants.Cfg
