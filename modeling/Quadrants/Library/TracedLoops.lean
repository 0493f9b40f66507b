import Mathlib.Data.List.Basic

/-!
Runs that leave a trace of events and may stop early to leave or to restart the innermost loop. A
loop is given up after a number of rounds. The rules at the end relate the runs of two machines as
long as the events of the first one meet a condition.
-/

namespace Quadrants.Library.TracedLoops

open List

inductive Signal where
  | normal
  | broke
  | continued
  | exhausted
  deriving DecidableEq

structure Outcome (ε σ : Type) where
  trace : List ε
  signal : Signal
  state : σ

variable {ε δ σ τ : Type}

def Outcome.after (trace : List ε) (r : Outcome ε σ) : Outcome ε σ :=
  { r with trace := trace ++ r.trace }

def Outcome.mapState (f : σ → τ) (r : Outcome ε σ) : Outcome ε τ :=
  ⟨r.trace, r.signal, f r.state⟩

def skip (s : σ) : Outcome ε σ :=
  ⟨[], .normal, s⟩

def andThen (first second : σ → Outcome ε σ) (s : σ) : Outcome ε σ :=
  match (first s).signal with
  | .normal => (second (first s).state).after (first s).trace
  | _ => first s

def forever (body : σ → Outcome ε σ) : ℕ → σ → Outcome ε σ
  | 0, s => ⟨[], .exhausted, s⟩
  | rounds + 1, s =>
    match (body s).signal with
    | .normal | .continued => (forever body rounds (body s).state).after (body s).trace
    | .broke => ⟨(body s).trace, .normal, (body s).state⟩
    | .exhausted => body s

variable (trace : List ε)

variable (r : Outcome ε σ)

@[simp] theorem after_trace : (r.after trace).trace = trace ++ r.trace := rfl

@[simp] theorem after_signal : (r.after trace).signal = r.signal := rfl

@[simp] theorem after_state : (r.after trace).state = r.state := rfl

theorem after_nil : r.after [] = r := by
  simp [Outcome.after]

theorem after_after (first second : List ε) (r : Outcome ε σ) :
    (r.after second).after first = r.after (first ++ second) := by
  simp [Outcome.after]

variable {first : σ → Outcome ε σ} {s : σ}

theorem andThen_of_normal (h : (first s).signal = .normal) (second : σ → Outcome ε σ) :
    andThen first second s = (second (first s).state).after (first s).trace := by
  simp [andThen, h]

theorem andThen_of_ne_normal (h : (first s).signal ≠ .normal)
    (second : σ → Outcome ε σ) : andThen first second s = first s := by
  unfold andThen
  split
  · next hnormal => exact absurd hnormal h
  · rfl

theorem andThen_skip (first : σ → Outcome ε σ) (s : σ) : andThen first skip s = first s := by
  by_cases h : (first s).signal = .normal
  · rw [andThen_of_normal h]
    simp [skip, Outcome.after, ← h]
  · exact andThen_of_ne_normal h _

theorem andThen_assoc (first second third : σ → Outcome ε σ) (s : σ) :
    andThen (andThen first second) third s = andThen first (andThen second third) s := by
  by_cases hfirst : (first s).signal = .normal
  · rw [andThen_of_normal hfirst (andThen second third)]
    by_cases hsecond : (second (first s).state).signal = .normal
    · have hboth : (andThen first second s).signal = .normal := by
        rw [andThen_of_normal hfirst]
        exact hsecond
      rw [andThen_of_normal hboth, andThen_of_normal hsecond, andThen_of_normal hfirst]
      simp [after_after]
    · have hboth : (andThen first second s).signal ≠ .normal := by
        rw [andThen_of_normal hfirst]
        exact hsecond
      rw [andThen_of_ne_normal hboth, andThen_of_ne_normal hsecond, andThen_of_normal hfirst]
  · have hboth : (andThen first second s).signal ≠ .normal := by
      rw [andThen_of_ne_normal hfirst]
      exact hfirst
    rw [andThen_of_ne_normal hboth, andThen_of_ne_normal hfirst, andThen_of_ne_normal hfirst]

theorem forever_signal (body : σ → Outcome ε σ) (rounds : ℕ) (s : σ) :
    (forever body rounds s).signal = .normal ∨ (forever body rounds s).signal = .exhausted := by
  induction rounds generalizing s with
  | zero => exact .inr rfl
  | succ rounds ih =>
    simp only [forever]
    cases h : (body s).signal with
    | normal | continued => exact ih _
    | broke => exact .inl rfl
    | exhausted => exact .inr h

theorem forever_keeps {body : σ → Outcome ε σ} {I : σ → Prop} {P : ε → Prop}
    (hbody : ∀ s, I s → I (body s).state ∧ ∀ e ∈ (body s).trace, P e) (rounds : ℕ) :
    ∀ s, I s → I (forever body rounds s).state ∧ ∀ e ∈ (forever body rounds s).trace, P e := by
  induction rounds with
  | zero => exact fun s h => ⟨h, fun e he => (nomatch he)⟩
  | succ rounds ih =>
    intro s h
    obtain ⟨hstate, hevents⟩ := hbody s h
    obtain ⟨hstate', hevents'⟩ := ih _ hstate
    simp only [forever]
    cases (body s).signal with
    | normal | continued =>
      refine ⟨hstate', fun e he => ?_⟩
      rcases mem_append.1 he with he | he
      · exact hevents e he
      · exact hevents' e he
    | broke | exhausted => exact ⟨hstate, hevents⟩

section Settled

variable {ι : Type}

def settled (r : Outcome ε σ) : Outcome ε σ :=
  match r.signal with
  | .continued => { r with signal := .normal }
  | _ => r

def forEach (body : ι → σ → Outcome ε σ) : List ι → σ → Outcome ε σ
  | [], s => skip s
  | i :: indices, s =>
    match (body i s).signal with
    | .normal | .continued => (forEach body indices (body i s).state).after (body i s).trace
    | .broke => ⟨(body i s).trace, .normal, (body i s).state⟩
    | .exhausted => body i s

theorem settled_after (trace : List ε) (r : Outcome ε σ) :
    settled (r.after trace) = (settled r).after trace := by
  unfold settled
  rw [after_signal]
  split <;> rfl

variable {I : σ → Prop} {P : ε → Prop} {body : ι → σ → Outcome ε σ}
variable {first second : σ → Outcome ε σ}

theorem settled_andThen {second' : σ → Outcome ε σ}
    (h : ∀ s, settled (second s) = settled (second' s)) (s : σ) :
    settled (andThen first second s) = settled (andThen first second' s) := by
  by_cases hnormal : (first s).signal = .normal
  · rw [andThen_of_normal hnormal, andThen_of_normal hnormal, settled_after, settled_after, h]
  · rw [andThen_of_ne_normal hnormal, andThen_of_ne_normal hnormal]

theorem settled_cases {r r' : Outcome ε σ} (h : settled r = settled r') :
    r = r' ∨ r.trace = r'.trace ∧ r.state = r'.state ∧
      (r.signal = .normal ∨ r.signal = .continued) ∧
      (r'.signal = .normal ∨ r'.signal = .continued) := by
  obtain ⟨trace, signal, state⟩ := r
  obtain ⟨trace', signal', state'⟩ := r'
  cases signal <;> cases signal' <;> simp [settled] at h ⊢ <;> simp [h]

theorem forever_congr_settled {body body' : σ → Outcome ε σ}
    (h : ∀ s, settled (body s) = settled (body' s)) (rounds : ℕ) :
    ∀ s, forever body rounds s = forever body' rounds s := by
  induction rounds with
  | zero => exact fun s => rfl
  | succ rounds ih =>
    intro s
    rcases settled_cases (h s) with heq | ⟨htrace, hstate, hgo, hgo'⟩
    · simp only [forever, heq, ih]
    · simp only [forever, htrace, hstate, ih]
      rcases hgo with hgo | hgo <;> rcases hgo' with hgo' | hgo' <;> rw [hgo, hgo']

theorem forEach_congr_settled {body' : ι → σ → Outcome ε σ}
    (h : ∀ i s, settled (body i s) = settled (body' i s)) (indices : List ι) :
    ∀ s, forEach body indices s = forEach body' indices s := by
  induction indices with
  | nil => exact fun s => rfl
  | cons i indices ih =>
    intro s
    rcases settled_cases (h i s) with heq | ⟨htrace, hstate, hgo, hgo'⟩
    · simp only [forEach, heq, ih]
    · simp only [forEach, htrace, hstate, ih]
      rcases hgo with hgo | hgo <;> rcases hgo' with hgo' | hgo' <;> rw [hgo, hgo']

theorem forEach_events (hbody : ∀ i s, ∀ e ∈ (body i s).trace, P e) (indices : List ι) :
    ∀ s, ∀ e ∈ (forEach body indices s).trace, P e := by
  induction indices with
  | nil => exact fun s e he => (nomatch he)
  | cons i indices ih =>
    intro s e he
    simp only [forEach] at he
    cases hsignal : (body i s).signal with
    | normal | continued =>
      rw [hsignal] at he
      rcases mem_append.1 he with he | he
      · exact hbody i s e he
      · exact ih _ e he
    | broke | exhausted =>
      rw [hsignal] at he
      exact hbody i s e he

theorem forEach_keeps (hbody : ∀ i s, I s → I (body i s).state) (indices : List ι) :
    ∀ s, I s → I (forEach body indices s).state := by
  induction indices with
  | nil => exact fun s h => h
  | cons i indices ih =>
    intro s h
    have hstate := hbody i s h
    simp only [forEach]
    cases (body i s).signal with
    | normal | continued => exact ih _ hstate
    | broke | exhausted => exact hstate

theorem forEach_keeps_events {indices : List ι}
    (hbody : ∀ i ∈ indices, ∀ s, I s → I (body i s).state ∧ ∀ e ∈ (body i s).trace, P e) :
    ∀ s, I s → I (forEach body indices s).state ∧ ∀ e ∈ (forEach body indices s).trace, P e := by
  induction indices with
  | nil => exact fun s h => ⟨h, fun e he => (nomatch he)⟩
  | cons i indices ih =>
    intro s h
    obtain ⟨hstate, hevents⟩ := hbody i mem_cons_self s h
    obtain ⟨hstate', hevents'⟩ :=
      ih (fun j hj => hbody j (mem_cons_of_mem _ hj)) _ hstate
    simp only [forEach]
    cases (body i s).signal with
    | normal | continued =>
      refine ⟨hstate', fun e he => ?_⟩
      rcases mem_append.1 he with he | he
      · exact hevents e he
      · exact hevents' e he
    | broke | exhausted => exact ⟨hstate, hevents⟩

theorem andThen_keeps {s : σ}
    (hfirst : I (first s).state) (hsecond : ∀ s, I s → I (second s).state) :
    I (andThen first second s).state := by
  by_cases hnormal : (first s).signal = .normal
  · rw [andThen_of_normal hnormal]
    exact hsecond _ hfirst
  · rw [andThen_of_ne_normal hnormal]
    exact hfirst

theorem andThen_events
    (hfirst : ∀ s, ∀ e ∈ (first s).trace, P e) (hsecond : ∀ s, ∀ e ∈ (second s).trace, P e)
    (s : σ) : ∀ e ∈ (andThen first second s).trace, P e := by
  intro e he
  by_cases hnormal : (first s).signal = .normal
  · rw [andThen_of_normal hnormal] at he
    rcases mem_append.1 he with he | he
    · exact hfirst s e he
    · exact hsecond _ e he
  · rw [andThen_of_ne_normal hnormal] at he
    exact hfirst s e he

end Settled

section Matching

/-- The second run shows the same events besides those that are not kept, and every event of the
first run, now or in the past. -/
structure Matches (keep : ε → Bool) (past : List ε) (post : Signal → σ → τ → Prop)
    (r : Outcome ε σ) (r' : Outcome ε τ) : Prop where
  kept : r'.trace.filter keep = r.trace.filter keep
  covered : ∀ e ∈ r.trace, e ∈ past ∨ e ∈ r'.trace
  signal : r'.signal = r.signal
  state : post r.signal r.state r'.state

variable {ι : Type} {keep : ε → Bool} {past : List ε} {post post' : Signal → σ → τ → Prop}

variable {r : Outcome ε σ} {r' : Outcome ε τ}

theorem Matches.weaken (h : Matches keep past post r r')
    (hpost : post r.signal r.state r'.state → post' r.signal r.state r'.state) :
    Matches keep past post' r r' :=
  ⟨h.kept, h.covered, h.signal, hpost h.state⟩

theorem Matches.after (h : Matches keep past post r r')
    {trace trace' : List ε} (hkept : trace'.filter keep = trace.filter keep)
    (hcovered : ∀ e ∈ trace, e ∈ past ∨ e ∈ trace') :
    Matches keep past post (r.after trace) (r'.after trace') where
  kept := by rw [after_trace, after_trace, filter_append, filter_append, hkept, h.kept]
  covered e he := by
    rcases mem_append.1 he with he | he
    · exact (hcovered e he).imp_right (mem_append_left _)
    · exact (h.covered e he).imp_right (mem_append_right _)
  signal := h.signal
  state := h.state

theorem Matches.recall {before : List ε}
    (h : Matches keep (past ++ before) post r r') (hbefore : before.filter keep = []) :
    Matches keep past post r (r'.after before) where
  kept := by rw [after_trace, filter_append, hbefore, nil_append, h.kept]
  covered e he := by
    rcases h.covered e he with he | he
    · exact (mem_append.1 he).imp_right (mem_append_left _)
    · exact .inr (mem_append_right _ he)
  signal := h.signal
  state := h.state

theorem Matches.trans {υ : Type} {keep' keep'' : ε → Bool} {later : Signal → τ → υ → Prop}
    {both : Signal → σ → υ → Prop} {r'' : Outcome ε υ}
    (h : Matches keep [] post r r') (h' : Matches keep' [] later r' r'')
    (hkeep : ∀ e, keep'' e = true → keep e = true ∧ keep' e = true)
    (hpost : post r.signal r.state r'.state → later r.signal r'.state r''.state →
      both r.signal r.state r''.state) : Matches keep'' [] both r r'' where
  kept := by
    have hfilter (trace : List ε) (first : ε → Bool)
        (hfirst : ∀ e, keep'' e = true → first e = true) :
        trace.filter keep'' = (trace.filter first).filter keep'' := by
      rw [filter_filter]
      refine filter_congr fun e _ => ?_
      cases hcase : keep'' e with
      | true => rw [hfirst e hcase, Bool.and_self]
      | false => rw [Bool.false_and]
    rw [hfilter r''.trace keep' fun e he => (hkeep e he).2, h'.kept,
      ← hfilter r'.trace keep' fun e he => (hkeep e he).2,
      hfilter r'.trace keep fun e he => (hkeep e he).1, h.kept,
      ← hfilter r.trace keep fun e he => (hkeep e he).1]
  covered e he := by
    rcases h.covered e he with he | he
    · exact .inl he
    · exact h'.covered e he
  signal := h'.signal.trans h.signal
  state := hpost h.state (h.signal ▸ h'.state)

theorem matches_andThen {first second : σ → Outcome ε σ} {first' second' : τ → Outcome ε τ}
    {s : σ} {t : τ} (hfirst : Matches keep past post (first s) (first' t))
    (hsecond : (first s).signal = .normal →
      Matches keep past post' (second (first s).state) (second' (first' t).state))
    (hstop : (first s).signal ≠ .normal → post' (first s).signal (first s).state (first' t).state) :
    Matches keep past post' (andThen first second s) (andThen first' second' t) := by
  by_cases hnormal : (first s).signal = .normal
  · rw [andThen_of_normal hnormal, andThen_of_normal (hfirst.signal.trans hnormal)]
    exact (hsecond hnormal).after hfirst.kept hfirst.covered
  · have hnormal' : (first' t).signal ≠ .normal := by
      rw [hfirst.signal]
      exact hnormal
    rw [andThen_of_ne_normal hnormal, andThen_of_ne_normal hnormal']
    exact ⟨hfirst.kept, hfirst.covered, hfirst.signal, hstop hnormal⟩

variable {I : σ → τ → Prop}

theorem matches_forEach {body : ι → σ → Outcome ε σ} {body' : ι → τ → Outcome ε τ}
    (hbody : ∀ i s t, I s t → Matches keep past (fun _ => I) (body i s) (body' i t))
    (indices : List ι) : ∀ s t, I s t → Matches keep past (fun _ => I) (forEach body indices s)
      (forEach body' indices t) := by
  induction indices with
  | nil => exact fun s t h => ⟨rfl, fun e he => (nomatch he), rfl, h⟩
  | cons i indices ih =>
    intro s t h
    have hround := hbody i s t h
    simp only [forEach, hround.signal]
    cases hsignal : (body i s).signal with
    | normal | continued => exact (ih _ _ hround.state).after hround.kept hround.covered
    | broke => exact ⟨hround.kept, hround.covered, rfl, hround.state⟩
    | exhausted => exact hround

theorem matches_forever {body : σ → Outcome ε σ} {body' : τ → Outcome ε τ}
    (hbody : ∀ s t, I s t → Matches keep past (fun _ => I) (body s) (body' t)) (rounds : ℕ) :
    ∀ s t, I s t → Matches keep past (fun _ => I) (forever body rounds s)
      (forever body' rounds t) := by
  induction rounds with
  | zero => exact fun s t h => ⟨rfl, fun e he => (nomatch he), rfl, h⟩
  | succ rounds ih =>
    intro s t h
    have hround := hbody s t h
    simp only [forever, hround.signal]
    cases hsignal : (body s).signal with
    | normal | continued => exact (ih _ _ hround.state).after hround.kept hround.covered
    | broke => exact ⟨hround.kept, hround.covered, rfl, hround.state⟩
    | exhausted => exact hround

end Matching

section Agreement

/-- If the events of `r` are as required, then `r'` shows those of them that can be observed, ends
in the same way, and the last states are related. -/
def Agrees (required : ε → Prop) (observe : ε → Option δ) (post : Signal → σ → τ → Prop)
    (r : Outcome ε σ) (r' : Outcome δ τ) : Prop :=
  (∀ e ∈ r.trace, required e) →
    r'.trace = r.trace.filterMap observe ∧ r'.signal = r.signal ∧ post r.signal r.state r'.state

variable {required : ε → Prop} {observe : ε → Option δ} {post post' : Signal → σ → τ → Prop}

theorem Agrees.weaken {r : Outcome ε σ} {r' : Outcome δ τ} (h : Agrees required observe post r r')
    (hpost : post r.signal r.state r'.state → post' r.signal r.state r'.state) :
    Agrees required observe post' r r' := by
  intro hrequired
  obtain ⟨htrace, hsignal, hstate⟩ := h hrequired
  exact ⟨htrace, hsignal, hpost hstate⟩

theorem agrees_after {r₁ : Outcome ε σ} {r₁' : Outcome δ τ} {r₂ : Outcome ε σ} {r₂' : Outcome δ τ}
    (h₁ : (∀ e ∈ r₁.trace, required e) → r₁'.trace = r₁.trace.filterMap observe)
    (h₂ : (∀ e ∈ r₁.trace, required e) → Agrees required observe post r₂ r₂') :
    Agrees required observe post (r₂.after r₁.trace) (r₂'.after r₁'.trace) := by
  intro hrequired
  have hfirst : ∀ e ∈ r₁.trace, required e := fun e he =>
    hrequired e (mem_append_left _ he)
  have hsecond : ∀ e ∈ r₂.trace, required e := fun e he =>
    hrequired e (mem_append_right _ he)
  obtain ⟨htrace, hsignal, hstate⟩ := h₂ hfirst hsecond
  refine ⟨?_, hsignal, hstate⟩
  rw [after_trace, after_trace, h₁ hfirst, htrace, filterMap_append]

theorem agrees_andThen {first second : σ → Outcome ε σ} {first' second' : τ → Outcome δ τ}
    {s : σ} {t : τ} (hfirst : Agrees required observe post (first s) (first' t))
    (hsecond : ∀ s t, post .normal s t → Agrees required observe post' (second s) (second' t))
    (hstop : ∀ signal s t, signal ≠ .normal → post signal s t → post' signal s t) :
    Agrees required observe post' (andThen first second s) (andThen first' second' t) := by
  by_cases hnormal : (first s).signal = .normal
  · intro hrequired
    rw [andThen_of_normal hnormal] at hrequired ⊢
    have hevents : ∀ e ∈ (first s).trace, required e := fun e he =>
      hrequired e (mem_append_left _ he)
    obtain ⟨htrace, hsignal, hstate⟩ := hfirst hevents
    rw [andThen_of_normal (hsignal.trans hnormal)]
    rw [hnormal] at hstate
    exact agrees_after (fun _ => htrace) (fun _ => hsecond _ _ hstate) hrequired
  · rw [andThen_of_ne_normal hnormal]
    intro hrequired
    obtain ⟨htrace, hsignal, hstate⟩ := hfirst hrequired
    rw [andThen_of_ne_normal (by rw [hsignal]; exact hnormal)]
    exact ⟨htrace, hsignal, hstop _ _ _ hnormal hstate⟩

/-- What a round of a loop has to establish: the invariant if the loop goes on, and what is wanted
after the loop if it is left. -/
def LoopPost (invariant : σ → τ → Prop) (post : Signal → σ → τ → Prop) : Signal → σ → τ → Prop
  | .normal => invariant
  | .continued => invariant
  | .broke => post .normal
  | .exhausted => post .exhausted

theorem agrees_forever {body : σ → Outcome ε σ} {body' : τ → Outcome δ τ}
    (invariant : σ → τ → Prop) (post : Signal → σ → τ → Prop) (hbody : ∀ s t, invariant s t →
      Agrees required observe (LoopPost invariant post) (body s) (body' t))
    (hexhausted : ∀ s t, invariant s t → post .exhausted s t) (rounds : ℕ) :
    ∀ s t, invariant s t →
      Agrees required observe post (forever body rounds s) (forever body' rounds t) := by
  induction rounds with
  | zero => exact fun s t h _ => ⟨rfl, rfl, hexhausted s t h⟩
  | succ rounds ih =>
    intro s t h hrequired
    have hround := hbody s t h
    have hevents : ∀ e ∈ (body s).trace, required e := by
      intro e he
      apply hrequired e
      simp only [forever]
      cases (body s).signal with
      | normal | continued => exact mem_append_left _ he
      | broke | exhausted => exact he
    obtain ⟨htrace, hsignal, hstate⟩ := hround hevents
    simp only [forever, hsignal] at hrequired ⊢
    cases heq : (body s).signal with
    | normal | continued =>
      simp only [heq] at hrequired hstate ⊢
      exact agrees_after (fun _ => htrace) (fun _ => ih _ _ hstate) hrequired
    | broke =>
      rw [heq] at hstate
      exact ⟨htrace, rfl, hstate⟩
    | exhausted =>
      rw [heq] at hstate
      refine ⟨htrace, hsignal.trans (by rw [heq]), ?_⟩
      simp only [heq]
      exact hstate

end Agreement

end Quadrants.Library.TracedLoops
