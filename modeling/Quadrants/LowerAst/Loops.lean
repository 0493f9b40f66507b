import Quadrants.LowerAst.Simulation

/-!
The loops of a frontend body and of its lowered form make the same assignments.
-/

namespace Quadrants.LowerAst

open Library.TracedLoops List

variable {V : Type}

/-- After a round that went to its end, the next round has the next index: the loop variable still
has the value of the index, or the loop ends with either. -/
def NextAgrees : Event V → Prop
  | .next _ index value last =>
    value = BitVec.ofInt 32 index ∨ last ≤ index + 1 ∧ last ≤ (value + 1).toInt
  | _ => True

section Int32

theorem slt_iff (a b : BitVec 32) : a.slt b = true ↔ a.toInt < b.toInt := by
  simp [BitVec.slt]

theorem toInt_add_one {a b : BitVec 32} (h : a.toInt < b.toInt) : (a + 1).toInt = a.toInt + 1 := by
  have hlower := BitVec.le_toInt a
  have hupper := @BitVec.toInt_lt 32 b
  rw [BitVec.toInt_add]
  simp only [BitVec.reduceToInt, Int.bmod]
  omega

/-- The loop variable before a round with this index: one less, unless the loop ends. -/
def Ready (last index : ℤ) (value : BitVec 32) : Prop :=
  (value + 1).toInt = index ∨ last ≤ index ∧ last ≤ (value + 1).toInt

theorem ready_begin (last : ℤ) (begin : BitVec 32) : Ready last begin.toInt (begin - 1) := by
  left
  rw [BitVec.sub_add_cancel]

variable {index : ℤ} {value : BitVec 32}

variable {last : ℤ}

theorem Ready.lt_iff (h : Ready last index value) : (value + 1).toInt < last ↔ index < last := by
  rcases h with h | h <;> omega

theorem Ready.eq (h : Ready last index value)
    (hlt : index < last) : value + 1 = BitVec.ofInt 32 index := by
  rcases h with h | h
  · rw [← h, BitVec.ofInt_toInt]
  · omega

theorem ready_next {last : BitVec 32} {start : BitVec 32}
    (hstart : start.toInt = index) (hlt : index < last.toInt)
    (h : value = BitVec.ofInt 32 index ∨ last.toInt ≤ index + 1 ∧ last.toInt ≤ (value + 1).toInt) :
    Ready last.toInt (index + 1) value := by
  rcases h with rfl | h
  · left
    rw [← hstart, BitVec.ofInt_toInt]
    exact toInt_add_one (hstart ▸ hlt)
  · exact .inr h

end Int32

section Loops

variable [MachineValue V] [DecidableEq V]

/-- The variables that were visible before are still related, and the values before `n` as they
were. -/
def Kept (visible : List Identifier) (scope : Scope) (n : ℕ) (t : IrState V) (s' : State V)
    (t' : IrState V) : Prop :=
  Related visible scope s' t' ∧ ∀ k < n, t'.values k = t.values k

def Simulates (visible : List Identifier) (scope : Scope) (n : ℕ)
    (exec : State V → Outcome (Event V) (State V))
    (run : IrState V → Outcome (Event V) (IrState V)) : Prop :=
  ∀ s t, Related visible scope s t →
    Agrees NextAgrees Event.observe (fun _ => Kept visible scope n t) (exec s) (run t)

theorem loopPost_const {σ τ : Type} (I : σ → τ → Prop) (signal : Signal) :
    LoopPost I (fun _ => I) signal = I := by
  cases signal <;> rfl

variable {visible : List Identifier} {scope : Scope} {n rounds : ℕ}

variable {body : State V → Outcome (Event V) (State V)} {code : List (Instr V)} {x : Identifier}

theorem simulates_while {cond : Expr V} (hcovers : Covers scope visible n)
    (hinScope : cond.inScope visible = true) {c : Flattened V} (hc : cond.flatten scope n = some c)
    (hbody : Simulates visible ([] :: scope) (c.next + 2) body (runBlock rounds code)) :
    Simulates visible scope n (forever (whileRound cond body) rounds)
      (runBlock rounds ((makeMask c.next (c.next + 1)).map .plain ++
        [.whileStmt c.next (c.stmts.map .plain ++ .whileControl c.next c.result :: code)])) := by
  intro s t h
  have hnext := cond.le_next hc
  have hmask : Undisturbed n t (stepAll (makeMask c.next (c.next + 1)) t) :=
    (((Undisturbed.refl n t).setAlloca hnext _).setValue (Nat.le_succ_of_le hnext) _).setAlloca
      hnext _
  rw [runBlock_plain_append, runBlock_singleton]
  refine agrees_forever (Kept visible scope n t) _ ?_ (fun _ _ h => h) rounds _ _
    ⟨h.undisturbed hcovers hmask, hmask.values⟩
  intro s' t' hinv
  obtain ⟨-, hcorrect⟩ := cond.flatten_correct hcovers hinScope hc
  obtain ⟨hkept, hvalue⟩ := hcorrect s' t' hinv.1
  have hrelated := hinv.1.undisturbed hcovers hkept
  have hvalues : ∀ k < n, (stepAll c.stmts t').values k = t.values k := fun k hk =>
    (hkept.values k hk).trans (hinv.2 k hk)
  rw [runBlock_plain_append, runBlock_whileControl, hvalue, whileRound]
  split
  · exact fun _ => ⟨rfl, rfl, hrelated, hvalues⟩
  · refine (hbody s' _ hrelated.push).weaken ?_
    rw [loopPost_const]
    intro hpost
    exact ⟨hpost.1.pop, fun k hk => (hpost.2 k (by omega)).trans (hvalues k hk)⟩

variable {b e : Flattened V} {begin : Expr V} {declared : List Identifier} {last : ℤ}

omit [DecidableEq V] in
theorem agrees_forRound {index : ℤ} (hlt : index < last) {s : State V}
    {r' : Outcome (Event V) (IrState V)} {post : Signal → State V → IrState V → Prop}
    {post' : Signal → State V × ℤ → IrState V → Prop} (hbody : Agrees NextAgrees Event.observe post
      (body (s.assign x (ofInt32 (BitVec.ofInt 32 index)))) r')
    (hnext : ∀ signal s' t', post signal s' t' →
      NextAgrees (.next x index (toInt32 (s'.vars x)) last : Event V) →
      signal = .normal ∨ signal = .continued → post' signal (s', index + 1) t')
    (hstop : ∀ signal s' t', post signal s' t' → signal = .broke ∨ signal = .exhausted →
      post' signal (s', index) t') :
    Agrees NextAgrees Event.observe post' (forRound x last body (s, index)) r' := by
  intro hrequired
  have hround : ∀ e ∈ (body (s.assign x (ofInt32 (BitVec.ofInt 32 index)))).trace,
      NextAgrees e := by
    intro e he
    apply hrequired e
    simp only [forRound, hlt, if_true]
    split
    · exact mem_append_left _ he
    · exact mem_append_left _ he
    · exact he
    · exact he
  obtain ⟨htrace, hsignal, hpost⟩ := hbody hround
  simp only [forRound, hlt, if_true] at hrequired ⊢
  split at hrequired
  case _ heq =>
    simp only [heq] at hsignal hpost ⊢
    refine ⟨by simp [htrace, Event.observe], hsignal, ?_⟩
    exact hnext _ _ _ hpost (hrequired _ (mem_append_right _ mem_cons_self)) (.inl rfl)
  case _ heq =>
    simp only [heq] at hsignal hpost ⊢
    refine ⟨by simp [htrace, Event.observe], hsignal, ?_⟩
    exact hnext _ _ _ hpost (hrequired _ (mem_append_right _ mem_cons_self)) (.inr rfl)
  case _ heq =>
    simp only [heq] at hsignal hpost ⊢
    exact ⟨htrace, hsignal, hstop _ _ _ hpost (.inl rfl)⟩
  case _ heq =>
    simp only [heq] at hsignal hpost ⊢
    exact ⟨htrace, hsignal, hstop _ _ _ hpost (.inr rfl)⟩

omit [DecidableEq V] in
theorem stepAll_startLoopVar (t : IrState V) (i begin : ℕ) (hbegin : begin < i) :
    Undisturbed i t (stepAll (startLoopVar i (i + 1) begin (i + 2)) t) ∧
    (stepAll (startLoopVar i (i + 1) begin (i + 2)) t).values (i + 1) = ofInt32 1 ∧
    (stepAll (startLoopVar i (i + 1) begin (i + 2)) t).allocas i =
      ofInt32 (toInt32 (t.values begin) - 1) := by
  refine ⟨?_, ?_, ?_⟩
  · refine Undisturbed.setAlloca ?_ (Nat.le_refl i) _
    refine Undisturbed.setValue ?_ (Nat.le_add_right i 2) _
    refine Undisturbed.setValue ?_ (Nat.le_add_right i 1) _
    exact (Undisturbed.refl i t).setAlloca (Nat.le_refl i) _
  · have hne : i + 1 ≠ i + 2 := by omega
    exact (setValue_values_of_ne _ hne _).trans (setValue_values_self _ _ _)
  · have hne : begin ≠ i + 1 := by omega
    refine (setAlloca_allocas_self _ _ _).trans ((setValue_values_self _ _ _).trans ?_)
    simp only [Plain.step, subInt32, setValue_values_self, setValue_values_of_ne _ hne,
      MachineValue.toInt32_ofInt32]
    rfl

theorem runBlock_loadAndCompare (rounds : ℕ) (t : IrState V) {i last : ℕ} (mask : ℕ)
    (rest : List (Instr V)) (hlast : last < i) (hone : t.values (i + 1) = ofInt32 1) :
    ∃ t', Undisturbed (i + 6) t t' ∧
      runBlock rounds (loadAndCompare i (i + 1) last (i + 6) (i + 7) (i + 8) mask ++ rest) t =
        if (toInt32 (t.allocas i) + 1).slt (toInt32 (t.values last)) then
          runBlock rounds rest (t'.setAlloca i (ofInt32 (toInt32 (t.allocas i) + 1)))
        else ⟨[], .broke, t'⟩ := by
  let load := t.setValue (i + 6) (t.allocas i)
  let addOne := load.setValue (i + 7) (addInt32 (load.values (i + 6)) (load.values (i + 1)))
  let compare := addOne.setValue (i + 8) (cmpLtInt32 (addOne.values (i + 7)) (addOne.values last))
  have hadd : addOne.values (i + 7) = ofInt32 (toInt32 (t.allocas i) + 1) := by
    have hload : load.values (i + 6) = t.allocas i := setValue_values_self _ _ _
    have hone' : load.values (i + 1) = ofInt32 1 :=
      (setValue_values_of_ne _ (by omega) _).trans hone
    refine (setValue_values_self _ _ _).trans ?_
    rw [hload, hone', addInt32, MachineValue.toInt32_ofInt32]
  have hlast' : addOne.values last = t.values last :=
    (setValue_values_of_ne _ (by omega) _).trans (setValue_values_of_ne _ (by omega) _)
  have hcompare : isZero (compare.values (i + 8)) =
      !(toInt32 (t.allocas i) + 1).slt (toInt32 (t.values last)) := by
    have hvalue : compare.values (i + 8) = cmpLtInt32 (addOne.values (i + 7)) (addOne.values last) :=
      setValue_values_self _ _ _
    rw [hvalue, hadd, hlast', cmpLtInt32, MachineValue.isZero_ofBool, MachineValue.toInt32_ofInt32]
  have hcompare' : compare.values (i + 7) = ofInt32 (toInt32 (t.allocas i) + 1) :=
    (setValue_values_of_ne _ (by omega) _).trans hadd
  refine ⟨compare, ?_, ?_⟩
  · refine Undisturbed.setValue ?_ (Nat.le_add_right (i + 6) 2) _
    refine Undisturbed.setValue ?_ (Nat.le_add_right (i + 6) 1) _
    exact (Undisturbed.refl _ t).setValue (Nat.le_refl (i + 6)) _
  · simp only [loadAndCompare, cons_append, nil_append, runBlock_plain_cons, runBlock_whileControl]
    change (if isZero (compare.values (i + 8)) then _ else
      runBlock rounds rest (compare.setAlloca i (compare.values (i + 7)))) = _
    rw [hcompare, hcompare']
    cases (toInt32 (t.allocas i) + 1).slt (toInt32 (t.values last)) <;> rfl

theorem simulates_forWithBreak {last : Expr V}
    (hset : Setting scope visible n (x :: declared)) (hbegin : begin.inScope visible = true)
    (hlast : last.inScope visible = true)
    (hb : begin.flatten scope n = some b) (he : last.flatten scope b.next = some e)
    (hbody : Simulates (x :: visible) ([] :: scope.insert x (.alloca e.next)) (e.next + 9) body
      (runBlock rounds code)) :
    Simulates visible scope n
      (fun s => (forever (forRound x (toInt32 (last.eval s)).toInt body) rounds
        (s, (toInt32 (begin.eval s)).toInt)).mapState Prod.fst)
      (runBlock rounds ((Plain.alloca (e.next + 5) (ofInt32 0) ::
          makeMask (e.next + 3) (e.next + 4) ++ (b.stmts ++ e.stmts) ++
          startLoopVar e.next (e.next + 1) b.result (e.next + 2)).map .plain ++
        [.whileStmt (e.next + 3) (loadAndCompare e.next (e.next + 1) e.result (e.next + 6)
          (e.next + 7) (e.next + 8) (e.next + 3) ++ code)])) := by
  intro s t h
  have hcovers := hset.covers
  have hx : x ∉ visible := hset.notMem mem_cons_self
  have hnextb := begin.le_next hb
  have hnexte := last.le_next he
  obtain ⟨hltb, hcorrectb⟩ := begin.flatten_correct hcovers hbegin hb
  obtain ⟨hlte, hcorrecte⟩ := last.flatten_correct (hcovers.mono hnextb) hlast he
  -- the mask, the two bounds, and the loop variable
  let made := stepAll (Plain.alloca (e.next + 5) (ofInt32 0) ::
    makeMask (e.next + 3) (e.next + 4)) t
  have hmade : Undisturbed n t made := by
    refine Undisturbed.setAlloca ?_ (by omega) _
    refine Undisturbed.setValue ?_ (by omega) _
    refine Undisturbed.setAlloca ?_ (by omega) _
    exact (Undisturbed.refl n t).setAlloca (by omega) _
  obtain ⟨hkeptb, hvalueb⟩ := hcorrectb s made (h.undisturbed hcovers hmade)
  have hrelatedb := (h.undisturbed hcovers hmade).undisturbed hcovers hkeptb
  obtain ⟨hkepte, hvaluee⟩ := hcorrecte s _ hrelatedb
  have hrelatede := hrelatedb.undisturbed (hcovers.mono hnextb) hkepte
  let bounds := stepAll e.stmts (stepAll b.stmts made)
  have hbounds : Undisturbed n t bounds := (hmade.trans hkeptb).trans (hkepte.mono hnextb)
  obtain ⟨hkept, hone, hstart⟩ := stepAll_startLoopVar bounds e.next b.result
    (Nat.lt_of_lt_of_le hltb hnexte)
  let start := stepAll (startLoopVar e.next (e.next + 1) b.result (e.next + 2)) bounds
  have hlastValue : start.values e.result = last.eval s := (hkept.values _ hlte).trans hvaluee
  have hbeginValue : bounds.values b.result = begin.eval s :=
    (hkepte.values _ hltb).trans hvalueb
  have hstarted : Undisturbed n t start :=
    hbounds.trans (hkept.mono (Nat.le_trans hnextb hnexte))
  rw [runBlock_plain_append, stepAll_append, stepAll_append, stepAll_append, runBlock_singleton,
    Instr.run]
  refine agrees_forever (fun (p : State V × ℤ) t' =>
    Related visible scope p.1 t' ∧ (∀ k < e.next + 3, t'.values k = start.values k) ∧
      Ready (toInt32 (last.eval s)).toInt p.2 (toInt32 (t'.allocas e.next)))
    (fun _ p => Kept visible scope n t p.1) ?_ ?_ rounds _ _ ⟨?_, fun _ _ => rfl, ?_⟩
  · rintro ⟨s', index⟩ t' ⟨hrelated, hvalues, hready⟩
    have hvaluesn : ∀ k < n, t'.values k = t.values k := fun k hk =>
      (hvalues k (by omega)).trans (hstarted.values k hk)
    obtain ⟨t₂, ht₂, hrun⟩ := runBlock_loadAndCompare rounds t' (e.next + 3) code hlte
      ((hvalues _ (by omega)).trans hone)
    rw [hrun, hvalues _ (by omega), hlastValue]
    have hrelated₂ := hrelated.undisturbed (hcovers.mono (by omega)) ht₂
    by_cases hlt : index < (toInt32 (last.eval s)).toInt
    · rw [if_pos ((slt_iff _ _).2 (hready.lt_iff.2 hlt)), hready.eq hlt]
      have hstart' : (toInt32 (t'.allocas e.next) + 1).toInt = index :=
        hready.resolve_right (by omega)
      -- the loop variable has the index, on both sides
      have hentered : Related (x :: visible) ([] :: scope.insert x (.alloca e.next))
          (s'.assign x (ofInt32 (BitVec.ofInt 32 index)))
          (t₂.setAlloca e.next (ofInt32 (BitVec.ofInt 32 index))) := by
        refine (Related.insert ?_ hx ?_).push
        · refine (hrelated₂.assign_of_notMem hx _).undisturbed hcovers ?_
          exact (Undisturbed.refl n t₂).setAlloca (by omega) _
        · rw [assign_vars_self]
          exact setAlloca_allocas_self _ _ _
      have hleave : ∀ s'' t'', Kept (x :: visible) ([] :: scope.insert x (.alloca e.next))
          (e.next + 9) (t₂.setAlloca e.next (ofInt32 (BitVec.ofInt 32 index))) s'' t'' →
          Related visible scope s'' t'' ∧ ∀ k < e.next + 3, t''.values k = start.values k := by
        intro s'' t'' hkept''
        refine ⟨hkept''.1.pop.restrict (subset_cons_self _ _) fun y hy => ?_, fun k hk => ?_⟩
        · exact lookupVar_insert_of_ne (by rintro rfl; exact hx hy) _ _
        · exact ((hkept''.2 k (by omega)).trans (ht₂.values k (by omega))).trans (hvalues k hk)
      refine agrees_forRound hlt (hbody _ _ hentered) ?_ ?_
      · intro signal s'' t'' hpost hagrees hsignal
        obtain ⟨hrelated'', hvalues''⟩ := hleave s'' t'' hpost
        have hvar : t''.allocas e.next = s''.vars x := by
          refine hpost.1.pop.vars x mem_cons_self (.alloca e.next) ?_
          rw [lookupVar_insert, if_pos rfl]
        have hinv := And.intro hrelated'' (And.intro hvalues''
          (hvar ▸ ready_next hstart' hlt hagrees))
        rcases hsignal with rfl | rfl
        · exact hinv
        · exact hinv
      · intro signal s'' t'' hpost hsignal
        obtain ⟨hrelated'', hvalues''⟩ := hleave s'' t'' hpost
        have hinv : Kept visible scope n t s'' t'' := ⟨hrelated'', fun k hk =>
          (hvalues'' k (by omega)).trans (hstarted.values k hk)⟩
        rcases hsignal with rfl | rfl
        · exact hinv
        · exact hinv
    · rw [if_neg fun hslt => hlt (hready.lt_iff.1 ((slt_iff _ _).1 hslt))]
      simp only [forRound, hlt, if_false]
      exact fun _ => ⟨rfl, rfl, hrelated₂, fun k hk =>
        (ht₂.values k (by omega)).trans (hvaluesn k hk)⟩
  · rintro ⟨s', index⟩ t' ⟨hrelated, hvalues, -⟩
    exact ⟨hrelated, fun k hk => (hvalues k (by omega)).trans (hstarted.values k hk)⟩
  · exact hrelatede.undisturbed (hcovers.mono (Nat.le_trans hnextb hnexte)) hkept
  · rw [hstart, MachineValue.toInt32_ofInt32, hbeginValue]
    exact ready_begin _ _

omit [DecidableEq V] in
theorem forRound_signal_ne_broke {p : State V × ℤ} (hbroke : ∀ s, (body s).signal ≠ .broke)
    (hlt : p.2 < last) : (forRound x last body p).signal ≠ .broke := by
  have hround := hbroke (p.1.assign x (ofInt32 (BitVec.ofInt 32 p.2)))
  simp only [forRound, hlt, if_true]
  split <;> exact hround

omit [DecidableEq V] in
theorem agrees_rangeRound {loop : ℕ} {last : BitVec 32} {c : Counter V}
    (hlt : c.index.slt last = true) {body : IrState V → Outcome (Event V) (IrState V)}
    {r : Outcome (Event V) (State V × ℤ)} (hbroke : r.signal ≠ .broke)
    {post : Signal → State V × ℤ → IrState V → Prop}
    {post' : Signal → State V × ℤ → Counter V → Prop}
    (hbody : Agrees NextAgrees Event.observe post r
      (body (c.state.setLoopVar loop (ofInt32 c.index))))
    (hnext : ∀ signal p t', post signal p t' → signal = .normal ∨ signal = .continued →
      post' signal p ⟨t', c.index + 1, false⟩)
    (hstop : ∀ p t', post .exhausted p t' → post' .exhausted p ⟨t', c.index, false⟩) :
    Agrees NextAgrees Event.observe post' r (rangeRound loop last body c) := by
  intro hrequired
  obtain ⟨htrace, hsignal, hpost⟩ := hbody hrequired
  simp only [rangeRound, hlt, if_true, hsignal]
  cases heq : r.signal with
  | normal =>
    rw [heq] at hpost
    exact ⟨htrace, rfl, hnext _ _ _ hpost (.inl rfl)⟩
  | continued =>
    rw [heq] at hpost
    exact ⟨htrace, rfl, hnext _ _ _ hpost (.inr rfl)⟩
  | broke => exact absurd heq hbroke
  | exhausted =>
    rw [heq] at hpost
    exact ⟨htrace, rfl, hstop _ _ hpost⟩

theorem simulates_forRange {last : Expr V}
    (hset : Setting scope visible n (x :: declared)) (hbegin : begin.inScope visible = true)
    (hlast : last.inScope visible = true)
    (hb : begin.flatten scope n = some b) (he : last.flatten scope b.next = some e)
    (hbroke : ∀ s, (body s).signal ≠ .broke)
    (hbody : Simulates (x :: visible) (Scope.insert x (.index (e.next + 1)) ([] :: scope))
      (e.next + 2) body (runBlock rounds code)) :
    Simulates visible scope n
      (fun s => (forever (forRound x (toInt32 (last.eval s)).toInt body) rounds
        (s, (toInt32 (begin.eval s)).toInt)).mapState Prod.fst)
      (runBlock rounds ((b.stmts ++ e.stmts).map .plain ++ [.rangeFor e.next b.result e.result
          (.plain (.loopIndex (e.next + 1) e.next) :: code)])) := by
  intro s t h
  have hcovers := hset.covers
  have hx : x ∉ visible := hset.notMem mem_cons_self
  have hnextb := begin.le_next hb
  have hnexte := last.le_next he
  obtain ⟨hltb, hcorrectb⟩ := begin.flatten_correct hcovers hbegin hb
  obtain ⟨hlte, hcorrecte⟩ := last.flatten_correct (hcovers.mono hnextb) hlast he
  obtain ⟨hkeptb, hvalueb⟩ := hcorrectb s t h
  have hrelatedb := h.undisturbed hcovers hkeptb
  obtain ⟨hkepte, hvaluee⟩ := hcorrecte s _ hrelatedb
  let bounds := stepAll e.stmts (stepAll b.stmts t)
  have hbounds : Undisturbed n t bounds := hkeptb.trans (hkepte.mono hnextb)
  have hbeginValue : bounds.values b.result = begin.eval s :=
    (hkepte.values _ hltb).trans hvalueb
  have hround : ∀ (p : State V × ℤ) (c : Counter V),
      Kept visible scope n t p.1 c.state ∧ c.left = false ∧ c.index.toInt = p.2 →
      Agrees NextAgrees Event.observe (LoopPost (fun (p : State V × ℤ) (c : Counter V) =>
          Kept visible scope n t p.1 c.state ∧ c.left = false ∧ c.index.toInt = p.2)
          (fun _ p c => Kept visible scope n t p.1 c.state ∧ c.left = false))
        (forRound x (toInt32 (last.eval s)).toInt body p)
        (rangeRound e.next (toInt32 (last.eval s))
          (runBlock rounds (.plain (.loopIndex (e.next + 1) e.next) :: code)) c) := by
    rintro ⟨s', index⟩ c ⟨⟨hrelated, hvalues⟩, hleft, hindex⟩
    simp only at hrelated hindex
    by_cases hlt : index < (toInt32 (last.eval s)).toInt
    · have hslt : c.index.slt (toInt32 (last.eval s)) = true := by
        rw [slt_iff, hindex]
        exact hlt
      have hvalue : BitVec.ofInt 32 index = c.index := by rw [← hindex, BitVec.ofInt_toInt]
      let entered := (c.state.setLoopVar e.next (ofInt32 c.index)).setValue (e.next + 1)
        (ofInt32 c.index)
      have hundisturbed : Undisturbed n c.state entered :=
        ((Undisturbed.refl n c.state).setLoopVar _ _).setValue (by omega) _
      have hentered : Related (x :: visible) (Scope.insert x (.index (e.next + 1)) ([] :: scope))
          (s'.assign x (ofInt32 (BitVec.ofInt 32 index))) entered := by
        refine Related.insert ?_ hx ?_
        · exact ((hrelated.assign_of_notMem hx _).undisturbed hcovers hundisturbed).push
        · rw [assign_vars_self, hvalue]
          exact setValue_values_self _ _ _
      have hrun : runBlock rounds (.plain (.loopIndex (e.next + 1) e.next) :: code)
          (c.state.setLoopVar e.next (ofInt32 c.index)) = runBlock rounds code entered := by
        rw [runBlock_plain_cons, Plain.step]
        simp [entered, IrState.setLoopVar]
      have hleave : ∀ s'' t'', Kept (x :: visible)
          (Scope.insert x (.index (e.next + 1)) ([] :: scope)) (e.next + 2) entered s'' t'' →
          Kept visible scope n t s'' t'' := by
        intro s'' t'' hkept
        refine ⟨?_, fun k hk => ?_⟩
        · refine hkept.1.restrict (subset_cons_self _ _) fun y hy => ?_
          rw [lookupVar_insert_of_ne (by rintro rfl; exact hx hy), lookupVar_nil_cons]
        · exact ((hkept.2 k (by omega)).trans (hundisturbed.values k hk)).trans (hvalues k hk)
      have hagrees : Agrees NextAgrees Event.observe
          (fun signal (p : State V × ℤ) t' => Kept visible scope n t p.1 t' ∧
            (signal = .normal ∨ signal = .continued → p.2 = index + 1))
          (forRound x (toInt32 (last.eval s)).toInt body (s', index))
          (runBlock rounds code entered) := by
        refine agrees_forRound hlt (hbody _ _ hentered) ?_ ?_
        · exact fun signal s'' t'' hkept _ _ => ⟨hleave s'' t'' hkept, fun _ => rfl⟩
        · intro signal s'' t'' hkept hsignal
          refine ⟨hleave s'' t'' hkept, fun hcontra => ?_⟩
          rcases hsignal with rfl | rfl <;> simp at hcontra
      refine agrees_rangeRound hslt (forRound_signal_ne_broke hbroke hlt) (hrun ▸ hagrees) ?_ ?_
      · intro signal p t' hpost hsignal
        have hnext : (c.index + 1).toInt = p.2 := by
          rw [hpost.2 hsignal, toInt_add_one ((slt_iff _ _).1 hslt), hindex]
        have hinv := And.intro hpost.1 (And.intro (rfl : false = false) hnext)
        rcases hsignal with rfl | rfl
        · exact hinv
        · exact hinv
      · exact fun p t' hpost => ⟨hpost.1, rfl⟩
    · have hslt : c.index.slt (toInt32 (last.eval s)) = false := by
        rw [Bool.eq_false_iff]
        intro hslt
        exact hlt (hindex ▸ (slt_iff _ _).1 hslt)
      simp only [forRound, rangeRound, hlt, hslt, if_false, Bool.false_eq_true]
      exact fun _ => ⟨rfl, rfl, ⟨hrelated, hvalues⟩, hleft⟩
  rw [runBlock_plain_append, stepAll_append, runBlock_singleton, Instr.run, hvaluee, hbeginValue]
  intro hrequired
  obtain ⟨htrace, hsignal, hkept, hleft⟩ := agrees_forever _ _ hround
    (fun p c hinv => ⟨hinv.1, hinv.2.1⟩) rounds (s, (toInt32 (begin.eval s)).toInt)
    ⟨bounds, toInt32 (begin.eval s), false⟩
    ⟨⟨hrelatedb.undisturbed (hcovers.mono hnextb) hkepte, hbounds.values⟩, rfl, rfl⟩ hrequired
  refine ⟨htrace, ?_, hkept⟩
  simp only [leaveRange, Outcome.mapState]
  rw [hleft]
  exact hsignal

end Loops

end Quadrants.LowerAst
