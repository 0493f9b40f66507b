import Quadrants.Analysis.UniqueRuns
import Mathlib.Order.Lattice
import Mathlib.Algebra.Order.Group.Int

namespace Quadrants.Analysis

open List

namespace DataType

theorem wrap_int_eq_iff (bits : ℕ) (signed : Bool) (x y : ℤ) :
    (int bits signed).wrap x = (int bits signed).wrap y ↔ (2 ^ bits : ℤ) ∣ x - y := by
  cases signed with
  | true =>
    change x.bmod (2 ^ bits) = y.bmod (2 ^ bits) ↔ _
    rw [Int.bmod_eq_bmod_iff_bmod_sub_eq_zero, ← Int.dvd_iff_bmod_eq_zero]
    simp
  | false =>
    change x % 2 ^ bits = y % 2 ^ bits ↔ _
    rw [Int.emod_eq_emod_iff_emod_sub_eq_zero, ← Int.dvd_iff_emod_eq_zero]

end DataType

variable {bits : ℕ} {signed : Bool} {x y : ℤ}

theorem bitVec_eq_of_dvd {v w : BitVec bits}
    (h : (2 ^ bits : ℤ) ∣ (v.toNat : ℤ) - w.toNat) : v = w := by
  apply BitVec.eq_of_toNat_eq
  have hv := v.isLt
  have hw := w.isLt
  have hmod := (Int.emod_eq_emod_iff_emod_sub_eq_zero).mpr (Int.dvd_iff_emod_eq_zero.mp h)
  have hcast : ((v.toNat % 2 ^ bits : ℕ) : ℤ) = ((w.toNat % 2 ^ bits : ℕ) : ℤ) := by
    exact hmod
  rw [Nat.mod_eq_of_lt hv, Nat.mod_eq_of_lt hw] at hcast
  exact Int.ofNat.inj hcast

theorem dvd_of_ofInt_eq (h : BitVec.ofInt bits x = BitVec.ofInt bits y) :
    (2 ^ bits : ℤ) ∣ x - y := by
  have hbmod := congrArg BitVec.toInt h
  rw [BitVec.toInt_ofInt, BitVec.toInt_ofInt] at hbmod
  exact (DataType.wrap_int_eq_iff bits true x y).mp hbmod

variable {op : BinaryOpType} {otherOp : DataType → BinaryOpType → ℤ → ℤ → ℤ} {x' : ℤ}

theorem evalBinary_inj_left
    (hop : op = .add ∨ op = .sub ∨ op = .bitXor) (hx : (DataType.int bits signed).wrap x = x)
    (hx' : (DataType.int bits signed).wrap x' = x')
    (h : evalBinary otherOp (.int bits signed) op x y =
      evalBinary otherOp (.int bits signed) op x' y) : x = x' := by
  rw [← hx, ← hx', DataType.wrap_int_eq_iff]
  rcases hop with rfl | rfl | rfl <;> have hdvd := (DataType.wrap_int_eq_iff _ _ _ _).mp h
  · rwa [show x + y - (x' + y) = x - x' by omega] at hdvd
  · rwa [show x - y - (x' - y) = x - x' by omega] at hdvd
  · exact dvd_of_ofInt_eq ((BitVec.xor_left_inj _).mp (bitVec_eq_of_dvd hdvd))

theorem evalBinary_inj_right (hop : op = .add ∨ op = .sub ∨ op = .bitXor)
    {y' : ℤ} (hy : (DataType.int bits signed).wrap y = y)
    (hy' : (DataType.int bits signed).wrap y' = y')
    (h : evalBinary otherOp (.int bits signed) op x y =
      evalBinary otherOp (.int bits signed) op x y') : y = y' := by
  rw [← hy, ← hy', DataType.wrap_int_eq_iff]
  rcases hop with rfl | rfl | rfl <;> have hdvd := (DataType.wrap_int_eq_iff _ _ _ _).mp h
  · rwa [show x + y - (x + y') = y - y' by omega] at hdvd
  · rw [show x - y - (x - y') = -(y - y') by omega] at hdvd
    exact Int.dvd_neg.mp hdvd
  · exact dvd_of_ofInt_eq ((BitVec.xor_right_inj _).mp (bitVec_eq_of_dvd hdvd))

theorem evalUnary_neg_inj {otherOp : DataType → UnaryOpType → ℤ → ℤ}
    (hx : (DataType.int bits signed).wrap x = x)
    (hx' : (DataType.int bits signed).wrap x' = x')
    (h : evalUnary otherOp (.int bits signed) .neg x =
      evalUnary otherOp (.int bits signed) .neg x') : x = x' := by
  rw [← hx, ← hx', DataType.wrap_int_eq_iff]
  have hdvd := (DataType.wrap_int_eq_iff _ _ _ _).mp h
  rw [show -x - -x' = -(x - x') by omega] at hdvd
  exact Int.dvd_neg.mp hdvd

section Search

variable {task : OffloadedTask} (r : TaskRun task)

def IsInvariant (val : Val) : Prop :=
  ∀ s t σ τ, r.state s σ → r.state t τ → σ.value val = τ.value val

def Separates (val : Val) : Prop :=
  ∀ s t σ τ, r.state s σ → r.state t τ → σ.value val = τ.value val → s = t

/-- Iterations in which the statement holds the same value agree on the coordinate. -/
def TellsAxis (val : Val) (axis : ℕ) : Prop :=
  task.taskType ≠ .meshFor → ∀ s t σ τ, r.state s σ → r.state t τ →
    σ.value val = τ.value val → r.coordinate axis s = r.coordinate axis t

def Tells (val : Val) (index : ℤ) : Prop :=
  (index = -1 ∧ Separates r val) ∨ ∃ axis ∈ task.axes, index = (axis : ℕ) ∧ TellsAxis r val axis

def Reflects (stmt operand : Val) : Prop :=
  ∀ s t σ τ, r.state s σ → r.state t τ → σ.value stmt = τ.value stmt →
    σ.value operand = τ.value operand

structure SearchInv (u : LoopUniqueStmtSearcher) : Prop where
  invariant : ∀ val, u.loopInvariant val = true → IsInvariant r val
  typed : ∀ val index, u.loopUnique val = some index →
    val.WellTyped ∧ val.retType.isInt = true
  tells : ∀ val index, u.loopUnique val = some index → Tells r val index

variable {r}

variable {axis id : ℕ} {dt : DataType} {lhs operand rhs : Val} {op : BinaryOpType}
variable {u : LoopUniqueStmtSearcher}

theorem Tells.of_reflects {stmt : Val} {index : ℤ} (h : Tells r operand index)
    (hreflects : Reflects r stmt operand) : Tells r stmt index := by
  rcases h with ⟨rfl, hseparates⟩ | ⟨axis, haxis, rfl, htells⟩
  · refine Or.inl ⟨rfl, fun s t σ τ hσ hτ heq => ?_⟩
    exact hseparates s t σ τ hσ hτ (hreflects s t σ τ hσ hτ heq)
  · refine Or.inr ⟨axis, haxis, rfl, fun hmesh s t σ τ hσ hτ heq => ?_⟩
    exact htells hmesh s t σ τ hσ hτ (hreflects s t σ τ hσ hτ heq)

namespace SearchInv

variable {u : LoopUniqueStmtSearcher}

variable {stmt : Val}

theorem setInvariant (hinv : SearchInv r u) (h : IsInvariant r stmt) :
    SearchInv r (u.setInvariant stmt) where
  invariant val hval := by
    rcases eq_or_ne val stmt with rfl | hne
    · exact h
    · rw [LoopUniqueStmtSearcher.setInvariant_loopInvariant_of_ne _ hne] at hval
      exact hinv.invariant val hval
  typed := hinv.typed
  tells := hinv.tells

theorem setUnique (hinv : SearchInv r u) {index : ℤ} (htyped : stmt.WellTyped)
    (hint : stmt.retType.isInt = true) (h : Tells r stmt index) :
    SearchInv r (u.setUnique stmt index) where
  invariant := hinv.invariant
  typed val i hval := by
    rcases eq_or_ne val stmt with rfl | hne
    · exact ⟨htyped, hint⟩
    · rw [LoopUniqueStmtSearcher.setUnique_loopUnique_of_ne _ hne] at hval
      exact hinv.typed val i hval
  tells val i hval := by
    rcases eq_or_ne val stmt with rfl | hne
    · rw [LoopUniqueStmtSearcher.setUnique_loopUnique_self] at hval
      rwa [← Option.some.inj hval]
    · rw [LoopUniqueStmtSearcher.setUnique_loopUnique_of_ne _ hne] at hval
      exact hinv.tells val i hval

theorem inheritUnique (hinv : SearchInv r u) {operand : Val} {keeps : Bool}
    (htyped : stmt.WellTyped)
    (hkeeps : keeps = true → operand.WellTyped → operand.retType.isInt = true →
      stmt.retType.isInt = true ∧ Reflects r stmt operand) :
    SearchInv r (u.inheritUnique stmt operand keeps) := by
  unfold LoopUniqueStmtSearcher.inheritUnique
  split
  · rename_i index hindex
    split
    · rename_i hkeep
      obtain ⟨hoperand, hoperandInt⟩ := hinv.typed operand index hindex
      obtain ⟨hint, hreflects⟩ := hkeeps hkeep hoperand hoperandInt
      exact hinv.setUnique htyped hint ((hinv.tells operand index hindex).of_reflects hreflects)
    · exact hinv
  · exact hinv

end SearchInv

theorem DataType.exists_int (h : dt.isInt = true) : ∃ bits signed, dt = .int bits signed := by
  cases dt with
  | int bits signed => exact ⟨bits, signed, rfl⟩
  | other code => cases h

theorem keepsUnique_iff (op : BinaryOpType) :
    LoopUniqueStmtSearcher.keepsUnique op = true ↔ op = .add ∨ op = .sub ∨ op = .bitXor := by
  cases op <;> simp [LoopUniqueStmtSearcher.keepsUnique]

theorem reflects_neg
    (htyped : (Val.unary id dt .neg operand).WellTyped) (hint : operand.retType.isInt = true) :
    Reflects r (.unary id dt .neg operand) operand := by
  obtain ⟨hoperand, hdt⟩ := htyped
  obtain ⟨bits, signed, htype⟩ := DataType.exists_int hint
  obtain rfl : DataType.int bits signed = dt := htype.symm.trans (hdt rfl)
  intro s t σ τ hσ hτ heq
  rw [σ.value_unary, τ.value_unary] at heq
  have hwrap := σ.value_wrap operand hoperand
  have hwrap' := τ.value_wrap operand hoperand
  rw [htype] at hwrap hwrap'
  exact evalUnary_neg_inj hwrap hwrap' heq

theorem reflects_left
    (htyped : (Val.binary id dt op lhs rhs).WellTyped) (hint : lhs.retType.isInt = true)
    (hop : op = .add ∨ op = .sub ∨ op = .bitXor) (hrhs : IsInvariant r rhs) :
    Reflects r (.binary id dt op lhs rhs) lhs := by
  obtain ⟨hlhs, -, hdt⟩ := htyped
  obtain ⟨bits, signed, htype⟩ := DataType.exists_int hint
  obtain rfl : DataType.int bits signed = dt := htype.symm.trans (hdt hop).1
  intro s t σ τ hσ hτ heq
  rw [σ.value_binary, τ.value_binary, (r.operators_const s t σ τ hσ hτ).1,
    hrhs s t σ τ hσ hτ] at heq
  have hwrap := σ.value_wrap lhs hlhs
  have hwrap' := τ.value_wrap lhs hlhs
  rw [htype] at hwrap hwrap'
  exact evalBinary_inj_left hop hwrap hwrap' heq

theorem reflects_right
    (htyped : (Val.binary id dt op lhs rhs).WellTyped) (hint : rhs.retType.isInt = true)
    (hop : op = .add ∨ op = .sub ∨ op = .bitXor) (hlhs : IsInvariant r lhs) :
    Reflects r (.binary id dt op lhs rhs) rhs := by
  obtain ⟨-, hrhs, hdt⟩ := htyped
  obtain ⟨bits, signed, htype⟩ := DataType.exists_int hint
  obtain rfl : DataType.int bits signed = dt := htype.symm.trans (hdt hop).2
  intro s t σ τ hσ hτ heq
  rw [σ.value_binary, τ.value_binary, (r.operators_const s t σ τ hσ hτ).1,
    hlhs s t σ τ hσ hτ] at heq
  have hwrap := σ.value_wrap rhs hrhs
  have hwrap' := τ.value_wrap rhs hrhs
  rw [htype] at hwrap hwrap'
  exact evalBinary_inj_right hop hwrap hwrap' heq

theorem SearchInv.inheritLeft (hinv : SearchInv r u)
    (htyped : (Val.binary id dt op lhs rhs).WellTyped) :
    SearchInv r (u.inheritUnique (.binary id dt op lhs rhs) lhs
      (u.loopInvariant rhs && LoopUniqueStmtSearcher.keepsUnique op)) := by
  refine hinv.inheritUnique htyped fun hkeeps _ hint => ?_
  obtain ⟨hrhs, hkeep⟩ := Bool.and_eq_true _ _ ▸ hkeeps
  have hop := (keepsUnique_iff op).mp hkeep
  refine ⟨?_, reflects_left htyped hint hop (hinv.invariant rhs hrhs)⟩
  rwa [← (htyped.2.2 hop).1]

theorem SearchInv.inheritRight (hinv : SearchInv r u)
    (htyped : (Val.binary id dt op lhs rhs).WellTyped) :
    SearchInv r (u.inheritUnique (.binary id dt op lhs rhs) rhs
      (u.loopInvariant lhs && LoopUniqueStmtSearcher.keepsUnique op)) := by
  refine hinv.inheritUnique htyped fun hkeeps _ hint => ?_
  obtain ⟨hlhs, hkeep⟩ := Bool.and_eq_true _ _ ▸ hkeeps
  have hop := (keepsUnique_iff op).mp hkeep
  refine ⟨?_, reflects_right htyped hint hop (hinv.invariant lhs hlhs)⟩
  rwa [← (htyped.2.2 hop).2]

theorem SearchInv.visitValue (hinv : SearchInv r u)
    (hwf : task.WellFormed) {val : Val} (hval : .value val ∈ task.body) :
    SearchInv r (u.visitValue val) := by
  have htyped := hwf.wellTyped val hval
  cases val with
  | loopIndex id loop index =>
    simp only [LoopUniqueStmtSearcher.visitValue]
    split
    · rename_i hloop
      subst hloop
      refine hinv.setUnique htyped rfl (Or.inr ⟨index, hwf.loopIndex_mem id index hval, rfl, ?_⟩)
      intro hmesh s t σ τ hσ hτ heq
      exact r.loopIndex_inj hmesh s t σ τ hσ hτ id index hval heq
    · exact hinv
  | loopUnique id dt input covers =>
    refine hinv.setUnique htyped htyped.2.2 (Or.inl ⟨rfl, ?_⟩)
    intro s t σ τ hσ hτ heq
    exact r.loopUnique_inj s t σ τ hσ hτ id dt input covers hval heq
  | const id dt c =>
    refine hinv.setInvariant fun s t σ τ _ _ => ?_
    rw [σ.value_const, τ.value_const]
  | shapeAlongAxis id axis argId =>
    exact hinv.setInvariant fun s t σ τ hσ hτ => r.shape_const s t σ τ hσ hτ id axis argId
  | unary id dt op operand =>
    have hfirst : SearchInv r (if u.loopInvariant operand then
        u.setInvariant (.unary id dt op operand) else u) := by
      split
      · rename_i hoperand
        refine hinv.setInvariant fun s t σ τ hσ hτ => ?_
        rw [σ.value_unary, τ.value_unary, (r.operators_const s t σ τ hσ hτ).2,
          hinv.invariant operand hoperand s t σ τ hσ hτ]
      · exact hinv
    refine hfirst.inheritUnique htyped fun hkeeps _ hint => ?_
    obtain rfl := beq_iff_eq.mp hkeeps
    refine ⟨?_, reflects_neg htyped hint⟩
    rwa [← htyped.2 rfl]
  | binary id dt op lhs rhs =>
    have hfirst : SearchInv r (if u.loopInvariant lhs && u.loopInvariant rhs then
        u.setInvariant (.binary id dt op lhs rhs) else u) := by
      split
      · rename_i hboth
        obtain ⟨hlhs, hrhs⟩ := Bool.and_eq_true _ _ ▸ hboth
        refine hinv.setInvariant fun s t σ τ hσ hτ => ?_
        rw [σ.value_binary, τ.value_binary, (r.operators_const s t σ τ hσ hτ).1,
          hinv.invariant lhs hlhs s t σ τ hσ hτ, hinv.invariant rhs hrhs s t σ τ hσ hτ]
      · exact hinv
    exact (hfirst.inheritLeft htyped).inheritRight htyped
  | _ => exact hinv

theorem mem_decoratedAxes :
    axis ∈ task.decoratedAxes ↔ ∃ operand, .decoration .offloaded operand axis ∈ task.body := by
  unfold OffloadedTask.decoratedAxes
  rw [mem_dedup, mem_filterMap]
  constructor
  · rintro ⟨stmt, hmem, haxis⟩
    match stmt, hmem, haxis with
    | .decoration .offloaded operand _, hmem, rfl => exact ⟨operand, hmem⟩
  · rintro ⟨operand, hmem⟩
    exact ⟨_, hmem, rfl⟩

theorem mem_axes_of_decoration (hwf : task.WellFormed)
    (h : .decoration .offloaded operand axis ∈ task.body) : axis ∈ task.axes := by
  have hmem : axis ∈ task.decoratedAxes := mem_decoratedAxes.mpr ⟨operand, h⟩
  simp only [OffloadedTask.axes, (hwf.decoration_complete operand axis h).1,
    if_neg (ne_nil_of_mem hmem)]
  exact hmem

theorem SearchInv.visitDecoration (hinv : SearchInv r u) (hwf : task.WellFormed)
    (h : .decoration .offloaded operand axis ∈ task.body) :
    SearchInv r (u.visitDecoration operand axis) := by
  unfold LoopUniqueStmtSearcher.visitDecoration
  split
  · exact hinv
  · obtain ⟨htyped, id, code, lhs, rhs, rfl⟩ := hwf.decoration_binary _ _ _ h
    have hset : SearchInv r (u.setUnique (.binary id .i32 (.other code) lhs rhs) axis) := by
      refine hinv.setUnique htyped rfl (Or.inr ⟨axis, mem_axes_of_decoration hwf h, rfl, ?_⟩)
      intro _ s t σ τ hσ hτ heq
      exact r.decoration_inj s t σ τ hσ hτ _ axis h heq
    exact ⟨hset.invariant, hset.typed, hset.tells⟩

theorem SearchInv.visit (hinv : SearchInv r u)
    (hwf : task.WellFormed) {stmt : BodyStmt} (hmem : stmt ∈ task.body)
    (hown : stmt.isInnerDecoration = false) : SearchInv r (u.visit stmt) := by
  match stmt, hmem, hown with
  | .value val, hmem, _ => exact hinv.visitValue hwf hmem
  | .decoration .offloaded operand axis, hmem, _ => exact hinv.visitDecoration hwf hmem
  | .pointer ptr, _, _ => exact hinv
  | .other id, _, _ => exact hinv

theorem SearchInv.foldl (hinv : SearchInv r u) (hwf : task.WellFormed) {stmts : List BodyStmt}
    (hstmts : ∀ stmt ∈ stmts, stmt ∈ task.body ∧ stmt.isInnerDecoration = false) :
    SearchInv r (stmts.foldl LoopUniqueStmtSearcher.visit u) := by
  induction stmts generalizing u with
  | nil => exact hinv
  | cons stmt stmts ih =>
    rw [forall_mem_cons] at hstmts
    exact ih (hinv.visit hwf hstmts.1.1 hstmts.1.2) hstmts.2

theorem searchInv_ownUnique (hwf : task.WellFormed) : SearchInv r task.ownUnique := by
  have hinit : SearchInv r ⟨fun _ => false, fun _ => none, task.numLoopIndices⟩ :=
    ⟨nofun, nofun, nofun⟩
  refine hinit.foldl hwf fun stmt hstmt => ?_
  simpa using hstmt

end Search

section Number

variable {task : OffloadedTask} {u : LoopUniqueStmtSearcher}

namespace LoopUniqueStmtSearcher

theorem inheritUnique_num (stmt operand : Val) (keeps : Bool) :
    (u.inheritUnique stmt operand keeps).numDifferentLoopIndices = u.numDifferentLoopIndices := by
  unfold inheritUnique
  split
  · split <;> rfl
  · rfl

theorem visitValue_num (val : Val) :
    (u.visitValue val).numDifferentLoopIndices = u.numDifferentLoopIndices := by
  cases val with
  | loopIndex id loop index =>
    simp only [visitValue]
    split <;> rfl
  | unary id dt op operand =>
    simp only [visitValue, visitUnary, inheritUnique_num]
    split <;> rfl
  | binary id dt op lhs rhs =>
    simp only [visitValue, visitBinary, inheritUnique_num]
    split <;> rfl
  | _ => rfl

theorem inheritUnique_loopUnique {stmt operand val : Val} {keeps : Bool}
    (h : val = stmt → keeps = false) :
    (u.inheritUnique stmt operand keeps).loopUnique val = u.loopUnique val := by
  unfold inheritUnique
  split
  · split
    · rename_i hkeeps
      refine setUnique_loopUnique_of_ne u fun heq => ?_
      rw [h heq] at hkeeps
      cases hkeeps
    · rfl
  · rfl

theorem visitValue_loopUnique_other (val : Val) (id code : ℕ) (lhs rhs : Val) :
    (u.visitValue val).loopUnique (.binary id .i32 (.other code) lhs rhs) =
      u.loopUnique (.binary id .i32 (.other code) lhs rhs) := by
  cases val with
  | loopIndex id' loop index =>
    simp only [visitValue]
    split
    · exact setUnique_loopUnique_of_ne u (by simp)
    · rfl
  | loopUnique id' dt input covers => exact setUnique_loopUnique_of_ne u (by simp)
  | unary id' dt op operand =>
    simp only [visitValue, visitUnary]
    rw [inheritUnique_loopUnique (by simp)]
    split <;> rfl
  | binary id' dt op lhs' rhs' =>
    have hkeeps : ∀ b : Bool, Val.binary id .i32 (.other code) lhs rhs =
        .binary id' dt op lhs' rhs' → (b && keepsUnique op) = false := by
      intro b heq
      obtain ⟨-, -, rfl, -, -⟩ := Val.binary.inj heq
      exact Bool.and_false b
    simp only [visitValue, visitBinary]
    rw [inheritUnique_loopUnique (hkeeps _), inheritUnique_loopUnique (hkeeps _)]
    split <;> rfl
  | _ => rfl

end LoopUniqueStmtSearcher

structure NumberInv (task : OffloadedTask) (visited : List BodyStmt)
    (u : LoopUniqueStmtSearcher) : Prop where
  decorated : ∀ id code lhs rhs index,
    u.loopUnique (.binary id .i32 (.other code) lhs rhs) = some index →
    ∃ loop axis, .decoration loop (.binary id .i32 (.other code) lhs rhs) axis ∈ visited
  start : task.numLoopIndices ≤ u.numDifferentLoopIndices
  bound : ∀ loop operand (axis : ℕ), .decoration loop operand axis ∈ visited →
    (axis : ℤ) + 1 ≤ u.numDifferentLoopIndices
  attained : u.numDifferentLoopIndices = task.numLoopIndices ∨
    ∃ loop operand, ∃ axis : ℕ, .decoration loop operand axis ∈ visited ∧
      u.numDifferentLoopIndices = axis + 1

namespace NumberInv

variable {visited : List BodyStmt}

variable {stmt : BodyStmt}

theorem skip (hinv : NumberInv task visited u)
    (hstmt : ∀ loop operand axis, stmt ≠ .decoration loop operand axis)
    {u' : LoopUniqueStmtSearcher}
    (hunique : ∀ id code lhs rhs, u'.loopUnique (.binary id .i32 (.other code) lhs rhs) =
      u.loopUnique (.binary id .i32 (.other code) lhs rhs))
    (hnum : u'.numDifferentLoopIndices = u.numDifferentLoopIndices) :
    NumberInv task (visited ++ [stmt]) u' where
  decorated id code lhs rhs index h := by
    rw [hunique] at h
    obtain ⟨loop, axis, hmem⟩ := hinv.decorated id code lhs rhs index h
    exact ⟨loop, axis, mem_append_left _ hmem⟩
  start := hnum ▸ hinv.start
  bound loop operand axis h := by
    rw [hnum]
    rcases mem_append.mp h with h | h
    · exact hinv.bound loop operand axis h
    · exact absurd (mem_singleton.mp h).symm (hstmt loop operand axis)
  attained := by
    rw [hnum]
    rcases hinv.attained with h | ⟨loop, operand, axis, hmem, h⟩
    · exact Or.inl h
    · exact Or.inr ⟨loop, operand, axis, mem_append_left _ hmem, h⟩

theorem visitDecoration (hinv : NumberInv task visited u) (hwf : task.WellFormed) {loop : Loop}
    {operand : Val} {axis : ℕ} (hmem : .decoration loop operand axis ∈ task.body)
    (hvisited : ∀ stmt ∈ visited, stmt ∈ task.body) :
    NumberInv task (visited ++ [.decoration loop operand axis])
      (u.visitDecoration operand axis) := by
  obtain ⟨-, id, code, lhs, rhs, rfl⟩ := hwf.decoration_binary _ _ _ hmem
  have hlast : BodyStmt.decoration loop (.binary id .i32 (.other code) lhs rhs) axis ∈
      visited ++ [.decoration loop (.binary id .i32 (.other code) lhs rhs) axis] :=
    mem_append_right _ mem_cons_self
  unfold LoopUniqueStmtSearcher.visitDecoration
  split
  · rename_i index hindex
    -- the operand has been decorated before, with the same axis
    obtain ⟨loop', axis', hmem'⟩ := hinv.decorated _ _ _ _ _ hindex
    obtain rfl := hwf.decoration_axis _ _ _ _ _ hmem (hvisited _ hmem')
    refine ⟨?_, hinv.start, ?_, ?_⟩
    · intro id' code' lhs' rhs' index' h
      obtain ⟨loop'', axis'', h''⟩ := hinv.decorated id' code' lhs' rhs' index' h
      exact ⟨loop'', axis'', mem_append_left _ h''⟩
    · intro loop'' operand'' axis'' h
      rcases mem_append.mp h with h | h
      · exact hinv.bound loop'' operand'' axis'' h
      · obtain ⟨-, -, rfl⟩ := BodyStmt.decoration.inj (mem_singleton.mp h)
        exact hinv.bound _ _ _ hmem'
    · rcases hinv.attained with h | ⟨loop'', operand'', axis'', h'', h⟩
      · exact Or.inl h
      · exact Or.inr ⟨loop'', operand'', axis'', mem_append_left _ h'', h⟩
  · refine ⟨?_, le_max_of_le_right hinv.start, ?_, ?_⟩
    · intro id' code' lhs' rhs' index' h
      rcases eq_or_ne (Val.binary id' .i32 (.other code') lhs' rhs')
        (.binary id .i32 (.other code) lhs rhs) with heq | hne
      · rw [heq]
        exact ⟨loop, axis, hlast⟩
      · obtain ⟨loop'', axis'', h''⟩ := hinv.decorated id' code' lhs' rhs' index'
          ((LoopUniqueStmtSearcher.setUnique_loopUnique_of_ne u hne).symm.trans h)
        exact ⟨loop'', axis'', mem_append_left _ h''⟩
    · intro loop'' operand'' axis'' h
      rcases mem_append.mp h with h | h
      · exact le_max_of_le_right (hinv.bound loop'' operand'' axis'' h)
      · obtain ⟨-, -, rfl⟩ := BodyStmt.decoration.inj (mem_singleton.mp h)
        exact le_max_left _ _
    · rcases max_choice ((axis : ℤ) + 1) u.numDifferentLoopIndices with hmax | hmax
      · exact Or.inr ⟨loop, _, axis, hlast, hmax⟩
      · rcases hinv.attained with h | ⟨loop'', operand'', axis'', h'', h⟩
        · exact Or.inl (hmax.trans h)
        · exact Or.inr ⟨loop'', operand'', axis'', mem_append_left _ h'', hmax.trans h⟩

theorem visit (hinv : NumberInv task visited u) (hwf : task.WellFormed)
    (hmem : stmt ∈ task.body) (hvisited : ∀ stmt ∈ visited, stmt ∈ task.body) :
    NumberInv task (visited ++ [stmt]) (u.visit stmt) := by
  cases stmt with
  | value val =>
    exact hinv.skip (by simp)
      (fun id code lhs rhs =>
        LoopUniqueStmtSearcher.visitValue_loopUnique_other val id code lhs rhs)
      (LoopUniqueStmtSearcher.visitValue_num val)
  | decoration loop operand axis => exact hinv.visitDecoration hwf hmem hvisited
  | pointer ptr => exact hinv.skip (by simp) (fun _ _ _ _ => rfl) rfl
  | other id => exact hinv.skip (by simp) (fun _ _ _ _ => rfl) rfl

theorem foldl (hinv : NumberInv task visited u) (hwf : task.WellFormed) {stmts : List BodyStmt}
    (hstmts : ∀ stmt ∈ stmts, stmt ∈ task.body) (hvisited : ∀ stmt ∈ visited, stmt ∈ task.body) :
    NumberInv task (visited ++ stmts) (stmts.foldl LoopUniqueStmtSearcher.visit u) := by
  induction stmts generalizing u visited with
  | nil => rwa [append_nil]
  | cons stmt stmts ih =>
    rw [forall_mem_cons] at hstmts
    rw [append_cons]
    refine ih (hinv.visit hwf hstmts.1 hvisited) hstmts.2 fun stmt' h => ?_
    rcases mem_append.mp h with h | h
    · exact hvisited stmt' h
    · rw [mem_singleton.mp h]
      exact hstmts.1

end NumberInv

theorem numberInv_ownUnique (hwf : task.WellFormed) :
    NumberInv task (task.body.filter fun stmt => !stmt.isInnerDecoration) task.ownUnique := by
  have hinit : NumberInv task [] ⟨fun _ => false, fun _ => none, task.numLoopIndices⟩ :=
    ⟨nofun, le_refl _, nofun, Or.inl rfl⟩
  exact hinit.foldl hwf (fun stmt h => (mem_filter.mp h).1) nofun

end Number

end Quadrants.Analysis
