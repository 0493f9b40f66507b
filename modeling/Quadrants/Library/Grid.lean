import Mathlib.Data.List.FinRange
import Mathlib.Data.List.Range
import Mathlib.Logic.Function.Basic
import Mathlib.Tactic.Common

namespace Quadrants.Library.Grid

open List Function

variable {β : Type} {τ : β → Type} {α γ : Type}

/-- Device memory: one array of cells for each buffer. Indices are signed, so that an access
below the start of a buffer is an access like any other. -/
abbrev Memory (τ : β → Type) := (b : β) → ℤ → τ b

inductive Kind where
  | read
  | write
  deriving DecidableEq, Repr

structure Access (β : Type) where
  kind : Kind
  buffer : β
  index : ℤ
  deriving DecidableEq, Repr

structure Write (τ : β → Type) where
  buffer : β
  index : ℤ
  value : τ buffer

def Fetch (τ : β → Type) (α : Type) := Memory τ → α × List (β × ℤ)

namespace Fetch

def read (b : β) (i : ℤ) : Fetch τ (τ b) := fun m => (m b i, [(b, i)])

instance : Monad (Fetch τ) where
  pure x := fun _ => (x, [])
  bind f g := fun m =>
    let first := f m
    let second := g first.1 m
    (second.1, first.2 ++ second.2)

def lanes (width : ℕ) (f : Fin width → Fetch τ α) : Fetch τ (Fin width → α) := fun m =>
  (fun t => (f t m).1, (finRange width).flatMap fun t => (f t m).2)

@[simp] theorem read_apply (b : β) (i : ℤ) (m : Memory τ) : read b i m = (m b i, [(b, i)]) := rfl

@[simp] theorem pure_apply (x : α) (m : Memory τ) : (pure x : Fetch τ α) m = (x, []) := rfl

@[simp] theorem bind_apply (f : Fetch τ α) (g : α → Fetch τ γ) (m : Memory τ) :
    (f >>= g) m = ((g (f m).1 m).1, (f m).2 ++ (g (f m).1 m).2) := rfl

@[simp] theorem map_apply (h : α → γ) (f : Fetch τ α) (m : Memory τ) :
    (h <$> f) m = (h (f m).1, (f m).2) := by
  change (f >>= fun a => pure (h a)) m = _
  simp

@[simp] theorem lanes_apply (width : ℕ) (f : Fin width → Fetch τ α) (m : Memory τ) :
    lanes width f m =
      (fun t => (f t m).1, (finRange width).flatMap fun t => (f t m).2) := rfl

end Fetch

structure View (τ : β → Type) (α : Type) where
  buffer : β
  decode : τ buffer → α
  encode : α → τ buffer
  decode_encode : ∀ x, decode (encode x) = x

namespace View

attribute [simp] View.decode_encode

def load (v : View τ α) (i : ℤ) : Fetch τ α := v.decode <$> Fetch.read v.buffer i

def store (v : View τ α) (i : ℤ) (x : α) : Write τ := ⟨v.buffer, i, v.encode x⟩

def get (v : View τ α) (m : Memory τ) (i : ℤ) : α := v.decode (m v.buffer i)

@[simp] theorem load_apply (v : View τ α) (i : ℤ) (m : Memory τ) :
    v.load i m = (v.get m i, [(v.buffer, i)]) := by
  simp [load, get]

variable {m m' : Memory τ} {v : View τ α}

theorem get_congr (h : m' v.buffer = m v.buffer) (i : ℤ) : v.get m' i = v.get m i := by
  rw [get, get, h]

theorem load_congr (h : ∀ i, m' v.buffer i = m v.buffer i) (i : ℤ) : v.load i m' = v.load i m := by
  rw [load_apply, load_apply, get, get, h]

end View

/-- A grid launch: `units` groups of threads. A group reads, meets at its barrier, and writes. -/
structure Launch (τ : β → Type) where
  units : ℕ
  body : ℕ → Fetch τ (List (Write τ))

structure Device (τ : β → Type) where
  mem : Memory τ
  log : List (Access β)

section run

variable [DecidableEq β]

def Memory.write (m : Memory τ) (w : Write τ) : Memory τ :=
  update m w.buffer (update (m w.buffer) w.index w.value)

def Memory.writes (m : Memory τ) (ws : List (Write τ)) : Memory τ := ws.foldl Memory.write m

def accesses (effect : List (Write τ) × List (β × ℤ)) : List (Access β) :=
  effect.2.map (fun c => ⟨.read, c.1, c.2⟩) ++ effect.1.map (fun w => ⟨.write, w.buffer, w.index⟩)

def Launch.step (l : Launch τ) (d : Device τ) (u : ℕ) : Device τ :=
  let effect := l.body u d.mem
  ⟨Memory.writes d.mem effect.1, d.log ++ accesses effect⟩

def Launch.run (l : Launch τ) (d : Device τ) : Device τ := (range l.units).foldl l.step d

def runAll (ls : List (Launch τ)) (d : Device τ) : Device τ := ls.foldl (fun d l => l.run d) d

@[simp] theorem runAll_nil (d : Device τ) : runAll [] d = d := rfl

@[simp] theorem runAll_cons (l : Launch τ) (ls : List (Launch τ)) (d : Device τ) :
    runAll (l :: ls) d = runAll ls (l.run d) := rfl

@[simp] theorem runAll_append (ls ls' : List (Launch τ)) (d : Device τ) :
    runAll (ls ++ ls') d = runAll ls' (runAll ls d) := by
  simp [runAll, foldl_append]

def Write.at (w : Write τ) (b : β) (i : ℤ) : Prop := w.buffer = b ∧ w.index = i

variable (m : Memory τ)

theorem Memory.write_self (w : Write τ) : m.write w w.buffer w.index = w.value := by
  simp [Memory.write]

theorem View.get_write_self (v : View τ α) (m : Memory τ) (i : ℤ) (x : α) :
    v.get (m.write (v.store i x)) i = x :=
  (congrArg v.decode (Memory.write_self m (v.store i x))).trans (v.decode_encode x)

variable {a : Access β} {b : β} {d : Device τ} {i : ℤ} {l : Launch τ} {w : Write τ}

theorem Memory.write_other (h : ¬ w.at b i) : m.write w b i = m b i := by
  unfold Memory.write
  rcases eq_or_ne b w.buffer with rfl | hb
  · rw [update_self]
    apply update_of_ne
    rintro rfl
    exact h ⟨rfl, rfl⟩
  · rw [update_of_ne hb]

theorem View.get_write_other {v : View τ α}
    (h : ¬ w.at v.buffer i) : v.get (m.write w) i = v.get m i := by
  rw [View.get, Memory.write_other m h, View.get]

theorem Memory.writes_eq_of_at (m m' : Memory τ) (ws : List (Write τ))
    (h : (∃ w ∈ ws, w.at b i) ∨ m b i = m' b i) : m.writes ws b i = m'.writes ws b i := by
  induction ws generalizing m m' with
  | nil => simpa [Memory.writes] using h
  | cons w ws ih =>
    apply ih
    rcases em (w.at b i) with ⟨rfl, rfl⟩ | hw
    · right
      rw [Memory.write_self, Memory.write_self]
    · rw [Memory.write_other m hw, Memory.write_other m' hw]
      simpa [hw] using h

theorem Memory.writes_other (ws : List (Write τ))
    (h : ∀ w ∈ ws, ¬ w.at b i) : m.writes ws b i = m b i := by
  induction ws generalizing m with
  | nil => rfl
  | cons w ws ih =>
    have hrest := ih (m.write w) fun w' hw' => h w' (mem_cons_of_mem _ hw')
    exact hrest.trans (Memory.write_other m (h w mem_cons_self))

theorem Memory.writes_self {ws : List (Write τ)} (hw : w ∈ ws)
    (huniq : ∀ w' ∈ ws, w'.at w.buffer w.index → w' = w) :
    m.writes ws w.buffer w.index = w.value := by
  induction ws generalizing m with
  | nil => cases hw
  | cons w' ws ih =>
    have htail : ∀ w'' ∈ ws, w''.at w.buffer w.index → w'' = w :=
      fun w'' hw'' => huniq w'' (mem_cons_of_mem _ hw'')
    rcases em (w ∈ ws) with hmem | hmem
    · exact ih (m.write w') hmem htail
    · obtain rfl : w = w' := (mem_cons.mp hw).resolve_right hmem
      have hother : ∀ w'' ∈ ws, ¬ w''.at w.buffer w.index :=
        fun w'' hw'' hat => hmem (htail w'' hw'' hat ▸ hw'')
      exact (Memory.writes_other _ ws hother).trans (Memory.write_self m w)

def Launch.Touches (l : Launch τ) (m : Memory τ) (u : ℕ) (b : β) (i : ℤ) : Prop :=
  ∃ w ∈ (l.body u m).1, w.at b i

/-- The groups of a launch do not interfere: none reads or writes what another one writes. -/
structure Launch.Independent (l : Launch τ) (m : Memory τ) : Prop where
  reads : ∀ u < l.units, ∀ m' : Memory τ,
    (∀ b i, (∀ v < l.units, v ≠ u → ¬ l.Touches m v b i) → m' b i = m b i) →
      l.body u m' = l.body u m
  writes : ∀ u < l.units, ∀ v < l.units, ∀ b i, l.Touches m u b i → l.Touches m v b i → u = v

structure Launch.Done (l : Launch τ) (d d' : Device τ) (k : ℕ) : Prop where
  touched : ∀ u < k, ∀ b i, l.Touches d.mem u b i →
    d'.mem b i = d.mem.writes (l.body u d.mem).1 b i
  untouched : ∀ b i, (∀ u < k, ¬ l.Touches d.mem u b i) → d'.mem b i = d.mem b i

theorem Launch.Done.step {d' : Device τ} {k : ℕ} (h : l.Done d d' k)
    (hl : l.Independent d.mem) (hk : k < l.units) : l.Done d (l.step d' k) (k + 1) := by
  have hbody : l.body k d'.mem = l.body k d.mem := by
    apply hl.reads k hk
    intro b i hb
    apply h.untouched
    intro u hu
    exact hb u (by omega) (by omega)
  refine ⟨?_, ?_⟩
  · intro u hu b i ht
    simp only [Launch.step, hbody]
    rcases Nat.lt_succ_iff_lt_or_eq.mp hu with hu | rfl
    · rw [Memory.writes_other]
      · exact h.touched u hu b i ht
      · intro w hw hwi
        have := hl.writes u (by omega) k hk b i ht ⟨w, hw, hwi⟩
        omega
    · exact Memory.writes_eq_of_at _ _ _ (Or.inl ht)
  · intro b i hb
    simp only [Launch.step, hbody]
    rw [Memory.writes_other]
    · exact h.untouched b i fun u hu => hb u (by omega)
    · intro w hw hwi
      exact hb k (by omega) ⟨w, hw, hwi⟩

theorem Launch.Independent.done (hl : l.Independent d.mem) : l.Done d (l.run d) l.units := by
  have hk : ∀ k ≤ l.units, l.Done d ((range k).foldl l.step d) k := by
    intro k hk
    induction k with
    | zero => exact ⟨fun u hu => absurd hu (Nat.not_lt_zero u), fun _ _ _ => rfl⟩
    | succ k ih =>
      rw [range_succ, foldl_append]
      exact (ih (by omega)).step hl (by omega)
  exact hk l.units le_rfl

/-- Whatever the memory, the groups of the launch make accesses in `P` only. -/
def Launch.Within (l : Launch τ) (P : Access β → Prop) : Prop :=
  ∀ u < l.units, ∀ m, ∀ a ∈ accesses (l.body u m), P a

/-- Whatever the memory, some group of the launch makes the access `a`. -/
def Launch.Hits (l : Launch τ) (a : Access β) : Prop :=
  ∃ u < l.units, ∀ m, a ∈ accesses (l.body u m)

omit [DecidableEq β] in
theorem mem_accesses {effect : List (Write τ) × List (β × ℤ)} : a ∈ accesses effect ↔
      (∃ c ∈ effect.2, a = ⟨.read, c.1, c.2⟩) ∨ (∃ w ∈ effect.1, a = ⟨.write, w.buffer, w.index⟩) := by
  simp [accesses, eq_comm]

omit [DecidableEq β] in
theorem Launch.Within.of_units_eq_zero (h : l.units = 0) (P : Access β → Prop) : l.Within P := by
  intro u hu
  omega

variable {P : Access β → Prop} {ls : List (Launch τ)}

theorem Launch.run_log_within (hl : l.Within P)
    (hd : ∀ a ∈ d.log, P a) : ∀ a ∈ (l.run d).log, P a := by
  have hk : ∀ k ≤ l.units, ∀ a ∈ ((range k).foldl l.step d).log, P a := by
    intro k hk
    induction k with
    | zero => exact hd
    | succ k ih =>
      intro a ha
      rw [range_succ, foldl_append] at ha
      rcases mem_append.mp ha with ha | ha
      · exact ih (by omega) a ha
      · exact hl k (by omega) _ a ha
  exact hk l.units le_rfl

theorem runAll_log_within
    (hls : ∀ l ∈ ls, l.Within P) (hd : ∀ a ∈ d.log, P a) : ∀ a ∈ (runAll ls d).log, P a := by
  induction ls generalizing d with
  | nil => exact hd
  | cons l ls ih =>
    rw [forall_mem_cons] at hls
    exact ih hls.2 (Launch.run_log_within hls.1 hd)

theorem Launch.log_subset (l : Launch τ) (us : List ℕ) (d : Device τ) :
    d.log ⊆ (us.foldl l.step d).log := by
  induction us generalizing d with
  | nil => exact List.Subset.refl _
  | cons u us ih => exact List.Subset.trans (subset_append_left _ _) (ih (l.step d u))

theorem runAll_log_subset (ls : List (Launch τ)) (d : Device τ) : d.log ⊆ (runAll ls d).log := by
  induction ls generalizing d with
  | nil => exact List.Subset.refl _
  | cons l ls ih => exact List.Subset.trans (l.log_subset _ d) (ih (l.run d))

theorem Launch.Hits.mem_run_log (h : l.Hits a) (d : Device τ) : a ∈ (l.run d).log := by
  obtain ⟨u, hu, ha⟩ := h
  obtain ⟨before, after, hsplit⟩ := append_of_mem (mem_range.mpr hu)
  rw [Launch.run, hsplit, foldl_append]
  apply l.log_subset after
  exact mem_append_right _ (ha _)

theorem mem_runAll_log (hl : l ∈ ls) (h : l.Hits a) (d : Device τ) : a ∈ (runAll ls d).log := by
  obtain ⟨before, after, rfl⟩ := append_of_mem hl
  rw [runAll_append]
  exact runAll_log_subset after _ (h.mem_run_log _)

end run

section orders

variable [DecidableEq β]

def Launch.stepMem (l : Launch τ) (m : Memory τ) (u : ℕ) : Memory τ := m.writes (l.body u m).1

theorem Launch.foldl_step_mem (l : Launch τ) (us : List ℕ) (d : Device τ) :
    (us.foldl l.step d).mem = us.foldl l.stepMem d.mem := by
  induction us generalizing d with
  | nil => rfl
  | cons u us ih => exact ih _

theorem Launch.run_mem (l : Launch τ) (d : Device τ) :
    (l.run d).mem = (range l.units).foldl l.stepMem d.mem :=
  l.foldl_step_mem _ d

/-- The launches run one after the other, and the groups of each of them in some order. -/
def RunsInSomeOrder : List (Launch τ) → Memory τ → Memory τ → Prop
  | [], m, m' => m' = m
  | l :: ls, m, m' => ∃ us : List ℕ, us.Perm (range l.units) ∧
      RunsInSomeOrder ls (us.foldl l.stepMem m) m'

variable {l : Launch τ} {ls : List (Launch τ)} {m m' : Memory τ} {us : List ℕ}

theorem runsInSomeOrder_append {ls' : List (Launch τ)} : RunsInSomeOrder (ls ++ ls') m m' ↔
      ∃ middle, RunsInSomeOrder ls m middle ∧ RunsInSomeOrder ls' middle m' := by
  induction ls generalizing m with
  | nil =>
    constructor
    · rintro h
      exact ⟨m, rfl, h⟩
    · rintro ⟨_, rfl, h⟩
      exact h
  | cons l ls ih =>
    simp only [cons_append, RunsInSomeOrder, ih]
    constructor
    · rintro ⟨us, hus, middle, hfirst, hrest⟩
      exact ⟨middle, ⟨us, hus, hfirst⟩, hrest⟩
    · rintro ⟨middle, ⟨us, hus, hfirst⟩, hrest⟩
      exact ⟨us, hus, middle, hfirst, hrest⟩

structure Launch.DoneBy (l : Launch τ) (m m' : Memory τ) (us : List ℕ) : Prop where
  touched : ∀ u ∈ us, ∀ b i, l.Touches m u b i → m' b i = m.writes (l.body u m).1 b i
  untouched : ∀ b i, (∀ u ∈ us, ¬ l.Touches m u b i) → m' b i = m b i

theorem Launch.Independent.doneBy (hl : l.Independent m) (hnodup : us.Nodup)
    (hus : ∀ u ∈ us, u < l.units) : l.DoneBy m (us.foldl l.stepMem m) us := by
  induction us using reverseRecOn with
  | nil => exact ⟨fun u hu => absurd hu not_mem_nil, fun _ _ _ => rfl⟩
  | append_singleton us k ih =>
    rw [forall_mem_append, forall_mem_singleton] at hus
    obtain ⟨hus, hk⟩ := hus
    obtain ⟨hnodup, -, hdisjoint⟩ := nodup_append.1 hnodup
    have h := ih hnodup hus
    have hne : ∀ u ∈ us, u ≠ k := fun u hu => hdisjoint u hu k (mem_singleton_self k)
    rw [foldl_append, foldl_cons, foldl_nil]
    generalize us.foldl l.stepMem m = m' at h
    have hbody : l.body k m' = l.body k m := by
      apply hl.reads k hk
      intro b i hb
      exact h.untouched b i fun u hu => hb u (hus u hu) (hne u hu)
    simp only [Launch.stepMem, hbody]
    constructor
    · intro u hu b i ht
      rcases mem_append.1 hu with hu | hu
      · rw [Memory.writes_other]
        · exact h.touched u hu b i ht
        · intro w hw hwi
          exact hne u hu (hl.writes u (hus u hu) k hk b i ht ⟨w, hw, hwi⟩)
      · obtain rfl := mem_singleton.1 hu
        exact Memory.writes_eq_of_at _ _ _ (Or.inl ht)
    · intro b i hb
      rw [Memory.writes_other]
      · exact h.untouched b i fun u hu => hb u (mem_append_left _ hu)
      · intro w hw hwi
        exact hb k (mem_append_right _ (mem_singleton_self k)) ⟨w, hw, hwi⟩

variable {d : Device τ}

theorem Launch.Independent.foldl_perm (hl : l.Independent d.mem)
    (hus : us.Perm (range l.units)) : us.foldl l.stepMem d.mem = (l.run d).mem := by
  have hmem : ∀ u, u ∈ us ↔ u < l.units := fun u => hus.mem_iff.trans mem_range
  have hdone := hl.doneBy (hus.nodup_iff.2 nodup_range) fun u hu => (hmem u).1 hu
  funext b i
  rcases em (∃ u < l.units, l.Touches d.mem u b i) with ⟨u, hu, ht⟩ | hnone
  · rw [hdone.touched u ((hmem u).2 hu) b i ht, hl.done.touched u hu b i ht]
  · push Not at hnone
    rw [hdone.untouched b i fun u hu => hnone u ((hmem u).1 hu), hl.done.untouched b i hnone]

theorem runAll_mem_congr (ls : List (Launch τ)) {d' : Device τ} (h : d.mem = d'.mem) :
    (runAll ls d).mem = (runAll ls d').mem := by
  induction ls generalizing d d' with
  | nil => exact h
  | cons l ls ih =>
    apply ih
    rw [l.run_mem, l.run_mem, h]

theorem Launch.Independent.runsInSomeOrder_cons (hl : l.Independent m)
    (h : RunsInSomeOrder (l :: ls) m m') : RunsInSomeOrder ls (l.run ⟨m, []⟩).mem m' := by
  obtain ⟨us, hus, hrest⟩ := h
  have hperm : us.foldl l.stepMem m = (l.run ⟨m, []⟩).mem :=
    Launch.Independent.foldl_perm (d := ⟨m, []⟩) hl hus
  exact hperm ▸ hrest

theorem runsInSomeOrder_cons_of_units_eq_one (hl : l.units = 1)
    (h : RunsInSomeOrder (l :: ls) m m') : RunsInSomeOrder ls (l.run ⟨m, []⟩).mem m' := by
  obtain ⟨us, hus, hrest⟩ := h
  rw [l.run_mem]
  rw [hl] at hus ⊢
  rw [perm_singleton.1 hus] at hrest
  exact hrest

theorem Launch.stores (v : View τ α) (place : ℕ → ℤ) (f : ℕ → α)
    (hbody : ∀ m' : Memory τ, (∀ b ≠ v.buffer, m' b = m b) → ∀ u < l.units,
      (l.body u m').1 = [v.store (place u) (f u)])
    (hplace : ∀ u < l.units, ∀ u' < l.units, place u = place u' → u = u')
    (hus : ∀ u ∈ us, u < l.units) :
    (∀ u ∈ us, v.get (us.foldl l.stepMem m) (place u) = f u) ∧
      ∀ b ≠ v.buffer, us.foldl l.stepMem m b = m b := by
  induction us using reverseRecOn with
  | nil => exact ⟨fun u hu => absurd hu not_mem_nil, fun _ _ => rfl⟩
  | append_singleton us k ih =>
    rw [forall_mem_append, forall_mem_singleton] at hus
    obtain ⟨hus, hk⟩ := hus
    obtain ⟨hstored, hframe⟩ := ih hus
    rw [foldl_append, foldl_cons, foldl_nil]
    generalize us.foldl l.stepMem m = m' at hstored hframe ⊢
    have hstep : l.stepMem m' k = m'.write (v.store (place k) (f k)) := by
      rw [Launch.stepMem, hbody m' hframe k hk]
      rfl
    rw [hstep]
    constructor
    · intro u hu
      rcases eq_or_ne (place u) (place k) with heq | hne
      · have huk : u = k := by
          rcases mem_append.1 hu with hu | hu
          · exact hplace u (hus u hu) k hk heq
          · exact mem_singleton.1 hu
        rw [huk, View.get_write_self]
      · have hmem : u ∈ us := by
          refine (mem_append.1 hu).resolve_right fun hu => hne ?_
          rw [mem_singleton.1 hu]
        rw [View.get_write_other _ fun hat => hne hat.2.symm]
        exact hstored u hmem
    · intro b hb
      rw [← hframe b hb]
      funext i
      exact Memory.write_other _ fun hat => hb hat.1.symm

end orders

end Quadrants.Library.Grid
