import Quadrants.Simplify.AlgRules

/-!
The operands of a statement that has a value, and statements with the same value.
-/

namespace Quadrants.Simplify

open Folding Library.BinaryRounding List Option Bool

variable {env : Env} {fastMath : Bool} {next i : ℕ} {lhs rhs s s' : Stmt} {op : BinaryOp}
  {t : IntType}

variable {a b : Value t} {d : DataType} {v x : Scalar} {z : ℤ}

theorem castValue_type (h : castValue d x = some v) : v.type = d := by
  cases d with
  | int u =>
    by_cases hu : u = .u1
    · subst hu
      rw [castValue_bool] at h
      cases h
      rfl
    · cases x with
      | int t a =>
        cases h
        rfl
      | real f y hy =>
        obtain ⟨z, -, -, rfl⟩ := (castValue_float hu hy).1 h
        rfl
  | real f =>
    rw [castValue_real] at h
    cases h
    rfl

theorem castValue_self (s : Scalar) : castValue s.type s = some s := by
  cases s with
  | int t v =>
    rw [Scalar.type, castValue_int_int, if_pos rfl, BitVec.setWidth_eq]
  | real f x h =>
    rw [Scalar.type, castValue, if_pos rfl]

theorem castBits_eq_some (h : castBits d x = some v) :
    ∃ t u a, x = .int t a ∧ d = .int u ∧ t.bits = u.bits ∧ v = .int u (a.setWidth u.bits) := by
  cases d with
  | int u =>
    cases x with
    | int t a =>
      obtain ⟨b, hb, rfl⟩ := map_eq_some_iff.1 h
      rw [runUnary] at hb
      split at hb
      · next hbits =>
          cases hb
          exact ⟨t, u, a, rfl, rfl, hbits, rfl⟩
      · cases hb
    | real f y hy => cases h
  | real f => cases h

theorem runOp_eq_some {y : Scalar} (h : runOp op x y = some v) :
    (∃ t t' a b r, x = .int t a ∧ y = .int t' b ∧ op = .pow ∧
        transformPow t t' a b = some r ∧ v = .int t r) ∨
      ∃ t a b r, x = .int t a ∧ y = .int t b ∧ op ≠ .pow ∧ runBinary op t a b = some r ∧
        v = .int (op.retType t) r := by
  cases x with
  | real f z hz => cases h
  | int t a =>
    cases y with
    | real f z hz => cases h
    | int t' b =>
      rw [runOp] at h
      split at h
      · next hop =>
          obtain ⟨r, hr, rfl⟩ := map_eq_some_iff.1 h
          exact .inl ⟨t, t', a, b, r, rfl, rfl, hop, hr, rfl⟩
      · next hop =>
          split at h
          · next htype =>
              subst htype
              obtain ⟨r, hr, rfl⟩ := map_eq_some_iff.1 h
              exact .inr ⟨_, a, b, r, rfl, rfl, hop, hr, rfl⟩
          · cases h

theorem retType_binary (i : ℕ) (op : BinaryOp) (lhs rhs : Stmt) (h : lhs.retType = .int t) :
    (Stmt.binary i op lhs rhs).retType = .int (op.retType t) := by
  rw [Stmt.retType, BinaryOp.retType, h]
  split <;> rfl

theorem eval_type (h : s.eval env = some v) : v.type = s.retType := by
  induction s generalizing v with
  | const i t a =>
    cases h
    rfl
  | other i t content =>
    cases content <;> cases h <;> rfl
  | unary i castOp d a ih =>
    cases castOp with
    | castValue =>
      obtain ⟨x, -, hv⟩ := bind_eq_some_iff.1 h
      exact castValue_type hv
    | castBits =>
      obtain ⟨x, -, hv⟩ := bind_eq_some_iff.1 h
      obtain ⟨t, u, b, -, rfl, -, rfl⟩ := castBits_eq_some hv
      rfl
  | binary i op a b iha ihb =>
    obtain ⟨x, hx, h⟩ := bind_eq_some_iff.1 h
    obtain ⟨y, hy, hv⟩ := bind_eq_some_iff.1 h
    have htype := iha hx
    rcases runOp_eq_some hv with
      ⟨t, t', c, d, r, rfl, rfl, rfl, -, rfl⟩ | ⟨t, c, d, r, rfl, rfl, -, -, rfl⟩
    · exact (retType_binary i .pow a b htype.symm).symm
    · exact (retType_binary i op a b htype.symm).symm

theorem retType_of_eval (h : s.eval env = some (.int t a)) : s.retType = .int t :=
  (eval_type h).symm

/-- If the one statement has a value, then the other one has the same. -/
def Keeps (env : Env) (s s' : Stmt) : Prop :=
  ∀ v, s.eval env = some v → s'.eval env = some v

theorem keeps_of (hop : op ≠ .pow)
    (h : ∀ t a b r, lhs.eval env = some (.int t a) → rhs.eval env = some (.int t b) →
      runBinary op t a b = some r → s'.eval env = some (.int (op.retType t) r)) :
    Keeps env (.binary i op lhs rhs) s' := by
  intro v hv
  obtain ⟨x, hx, hv⟩ := bind_eq_some_iff.1 hv
  obtain ⟨y, hy, hv⟩ := bind_eq_some_iff.1 hv
  rcases runOp_eq_some hv with
    ⟨t, t', a, b, r, -, -, hpow, -⟩ | ⟨t, a, b, r, rfl, rfl, -, hr, rfl⟩
  · exact absurd hpow hop
  · exact h t a b r hx hy hr

theorem eval_binary (hop : op ≠ .pow) {r : Value (op.retType t)}
    (ha : lhs.eval env = some (.int t a)) (hb : rhs.eval env = some (.int t b))
    (hr : runBinary op t a b = some r) :
    (Stmt.binary i op lhs rhs).eval env = some (.int (op.retType t) r) := by
  rw [Stmt.eval, ha, hb, bind_some, bind_some, runOp, if_neg hop, dif_pos rfl]
  exact congrArg (Option.map (Scalar.int (op.retType t))) hr

theorem eval_of_algIsValue (h : algIsValue z s = true)
    (hs : s.eval env = some (.int t b)) : b = constantOf t z := by
  cases s with
  | const j u c =>
    obtain ⟨rfl, hc⟩ := Scalar.int.inj (Option.some.inj hs)
    rw [← eq_of_heq hc]
    exact beq_iff_eq.1 h
  | other | unary | binary => cases h

theorem eval_of_algIsPot (h : algIsPot s = true)
    (hs : s.eval env = some (.int t b)) : isPowerOfTwo (valAsInt64 t b) = true := by
  cases s with
  | const j u c =>
    obtain ⟨rfl, hc⟩ := Scalar.int.inj (Option.some.inj hs)
    rw [← eq_of_heq hc]
    exact h
  | other | unary | binary => cases h

theorem eval_getLog2rhs {c : Stmt} (h : getLog2rhs next lhs rhs = some c)
    (ha : lhs.eval env = some (.int t a)) (hb : rhs.eval env = some (.int t b)) :
    c.eval env = some (.int t (constantOf t (log2int (valAsInt64 t b).toNat : ℕ))) := by
  cases rhs with
  | const j u d =>
    obtain ⟨rfl, hd⟩ := Scalar.int.inj (Option.some.inj hb)
    rw [getLog2rhs, retType_of_eval ha] at h
    cases h
    rw [← eq_of_heq hd]
    rfl
  | other | unary | binary => cases h

theorem eval_replaceWith (h : replaceWith next s z = .replaced s')
    (ht : s.retType = .int t) : s'.eval env = some (.int t (constantOf t z)) := by
  rw [replaceWith, ht] at h
  cases h
  rfl

theorem mem_parts_self (s : Stmt) : s ∈ s.parts := by
  cases s <;> exact mem_cons_self

theorem eval_of_equal {u : IntType} {v : Value t} {w : Value u}
    (h : equalTypeAndValue t v u w = true) : Scalar.int t v = .int u w := by
  rw [equalTypeAndValue] at h
  split at h
  · next htype =>
      subst htype
      rw [beq_iff_eq.1 h]
  · cases h

theorem eval_of_sameValue {a b : Stmt}
    (hids : ∀ x ∈ a.parts ++ b.parts, ∀ y ∈ a.parts ++ b.parts, x.id = y.id → x = y)
    (h : sameValue a b = true) : a.eval env = b.eval env := by
  have hleft : ∀ x ∈ a.parts, x ∈ a.parts ++ b.parts := fun _ hx => mem_append_left _ hx
  have hright : ∀ x ∈ b.parts, x ∈ a.parts ++ b.parts := fun _ hx => mem_append_right _ hx
  rw [sameValue, or_eq_true, beq_iff_eq] at h
  rcases h with h | h
  · rw [hids a (hleft a (mem_parts_self a)) b (hright b (mem_parts_self b)) h]
  · cases a with
    | const i t v =>
      cases b with
      | const j u w => exact congrArg some (eval_of_equal h)
      | other | unary | binary => cases h
    | other i t content =>
      cases content with
      | none => cases h
      | some c =>
        cases b with
        | other j u content' =>
          cases content' with
          | none => cases h
          | some c' =>
            rw [basicCheck, and_eq_true, beq_iff_eq, beq_iff_eq] at h
            obtain ⟨rfl, rfl⟩ := h
            rfl
        | const | unary | binary => cases h
    | unary i castOp d x =>
      cases b with
      | unary j castOp' d' y =>
        simp only [basicCheck, and_eq_true, beq_iff_eq] at h
        obtain ⟨⟨rfl, rfl⟩, hid⟩ := h
        have hsame : x = y :=
          hids x (hleft x (mem_cons_of_mem _ (mem_parts_self x)))
            y (hright y (mem_cons_of_mem _ (mem_parts_self y))) hid
        rw [hsame]
        cases castOp <;> rfl
      | const | other | binary => cases h
    | binary i op x y =>
      cases b with
      | binary j op' x' y' =>
        simp only [basicCheck, and_eq_true, beq_iff_eq] at h
        obtain ⟨⟨⟨rfl, -⟩, hx⟩, hy⟩ := h
        have hsame : x = x' := by
          refine hids x (hleft x ?_) x' (hright x' ?_) hx
          · exact mem_cons_of_mem _ (mem_append_left _ (mem_parts_self x))
          · exact mem_cons_of_mem _ (mem_append_left _ (mem_parts_self x'))
        have hsame' : y = y' := by
          refine hids y (hleft y ?_) y' (hright y' ?_) hy
          · exact mem_cons_of_mem _ (mem_append_right _ (mem_parts_self y))
          · exact mem_cons_of_mem _ (mem_append_right _ (mem_parts_self y'))
        rw [hsame, hsame']
        rfl
      | const | other | unary => cases h

end Quadrants.Simplify
