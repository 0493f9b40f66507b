import Quadrants.Library.MixedRadix
import Mathlib.Data.Int.Notation
import Mathlib.Data.List.GetD
import Mathlib.Data.List.Perm.Basic

/-!
`qd.ndrange`: the iterator of `_ndrange.py`, and the index decomposition that `build_ndrange_for`
and `build_grouped_ndrange_for` of `ast_transformer.py` emit for a loop over it in a kernel.
-/

namespace Quadrants.Frontend

open List Quadrants.Library.MixedRadix Nat Function Int

inductive Arg where
  | scalar (end' : ℤ)
  | pair (begin end' : ℤ)

inductive NdrangeError where
  | axesLength | notPermutation | loopVariables | literalRange
  deriving DecidableEq

/-- `_Ndrange` after its arguments were checked. -/
structure Ndrange where
  canonicalBounds : List (ℤ × ℤ)
  physicalToCanonical : List ℕ
  perm : physicalToCanonical.Perm (List.range canonicalBounds.length)
  ordered : ∀ b ∈ canonicalBounds, b.1 ≤ b.2

def Arg.bounds : Arg → ℤ × ℤ
  | .scalar end' => (0, max 0 end')
  | .pair begin end' => (begin, max begin end')

theorem Arg.bounds_ordered {args : List Arg} : ∀ b ∈ args.map Arg.bounds, b.1 ≤ b.2 := by
  intro b hb
  obtain ⟨arg, -, rfl⟩ := mem_map.1 hb
  cases arg <;> exact Int.le_max_left _ _

/-- `_Ndrange.__init__`, for bounds and axes that are integers -/
def Ndrange.init (args : List Arg) : Option (List ℤ) → Except NdrangeError Ndrange
  | none => .ok ⟨args.map Arg.bounds, List.range (args.map Arg.bounds).length, .refl _,
      Arg.bounds_ordered⟩
  | some axes =>
    if axes.length ≠ args.length then .error .axesLength
    else if h : axes.Perm ((List.range (args.map Arg.bounds).length).map ofNat) then
      .ok ⟨args.map Arg.bounds, axes.map toNat, by
        simpa [comp_def] using h.map toNat, Arg.bounds_ordered⟩
    else .error .notPermutation

def Ndrange.bounds (r : Ndrange) : List (ℤ × ℤ) :=
  r.physicalToCanonical.map fun c => r.canonicalBounds.getD c (0, 0)

def Ndrange.dimensions (r : Ndrange) : List ℤ :=
  r.bounds.map fun b => b.2 - b.1

/-- `acc_dimensions[i] = acc_dimensions[i] * acc_dimensions[i + 1]`, from the end -/
def accumulate : List ℤ → List ℤ
  | [] => []
  | d :: ds =>
    match accumulate ds with
    | [] => [d]
    | a :: as => d * a :: a :: as

def Ndrange.accDimensions (r : Ndrange) : List ℤ :=
  if accumulate r.dimensions = [] then [1] else accumulate r.dimensions

/-- `range(b, e)` -/
def pyRange (b e : ℤ) : List ℤ :=
  (List.range (e - b).toNat).map fun k : ℕ => b + k

/-- `gen` of `__iter__`, from the level on that the first of the axes belongs to -/
def gen (bounds : List (ℤ × ℤ)) : List ℕ → List ℤ → List (List ℤ)
  | [], current => [current]
  | ax :: axs, current =>
    (pyRange (bounds.getD ax (0, 0)).1 (bounds.getD ax (0, 0)).2).flatMap fun t =>
      gen bounds axs (current.set ax t)

/-- `_Ndrange.__iter__` -/
def Ndrange.iter (r : Ndrange) : List (List ℤ) :=
  gen r.canonicalBounds r.physicalToCanonical (replicate r.physicalToCanonical.length 0)

/-- A result of the type `i32`. -/
def i32 (x : ℤ) : ℤ := x.bmod (2 ^ 32)

/-- `make_constant_expr`, where `default_ip` is `i32` -/
def literal (x : ℤ) : Except NdrangeError ℤ :=
  if -2 ^ 31 ≤ x ∧ x < 2 ^ 31 then .ok x else .error .literalRange

/-- The statements for one physical level: the last one does not divide. -/
structure Level where
  divisor : Option ℤ
  target : ℕ
  begin : ℤ

def Ndrange.divisor (r : Ndrange) (p : ℕ) : Except NdrangeError (Option ℤ) :=
  if p + 1 < r.dimensions.length then some <$> literal (r.accDimensions.getD (p + 1) 0)
  else .ok none

def Ndrange.level (r : Ndrange) (p : ℕ) : Except NdrangeError Level := do
  let divisor ← r.divisor p
  let begin ← literal (r.bounds.getD p (0, 0)).1
  return ⟨divisor, r.physicalToCanonical.getD p 0, begin⟩

/-- A loop over flat indices from zero on, and what its body starts with. -/
structure Loop where
  endIdx : ℤ
  levels : List Level
  numTargets : ℕ

def Ndrange.build (r : Ndrange) : Except NdrangeError Loop := do
  let endIdx ← literal (r.accDimensions.getD 0 0)
  let levels ← (List.range r.dimensions.length).mapM r.level
  return ⟨endIdx, levels, r.dimensions.length⟩

/-- `build_ndrange_for`: one variable for each dimension -/
def buildNdrangeFor (r : Ndrange) (targets : ℕ) : Except NdrangeError Loop :=
  if targets ≠ r.dimensions.length then .error .loopVariables else r.build

/-- `build_grouped_ndrange_for`: one vector of all dimensions -/
def buildGroupedNdrangeFor (r : Ndrange) (targets : ℕ) : Except NdrangeError Loop :=
  if targets ≠ 1 then .error .loopVariables else r.build

/-- There is no quotient by zero. -/
def floordiv (a b : ℤ) : Option ℤ :=
  if b = 0 then none else some (i32 (a.fdiv b))

/-- What is left of the flat index, and the targets, after a level. -/
def Level.exec (s : ℤ × List ℤ) (l : Level) : Option (ℤ × List ℤ) :=
  match l.divisor with
  | none => some (s.1, s.2.set l.target (i32 (s.1 + l.begin)))
  | some d => do
    let tmp ← floordiv s.1 d
    return (i32 (s.1 - i32 (tmp * d)), s.2.set l.target (i32 (tmp + l.begin)))

def Loop.targetsAt (loop : Loop) (index : ℤ) : Option (List ℤ) :=
  (loop.levels.foldlM Level.exec (index, replicate loop.numTargets 0)).map Prod.snd

/-- The targets for all flat indices, in order. -/
def Loop.run (loop : Loop) : Option (List (List ℤ)) :=
  (List.range loop.endIdx.toNat).mapM fun k : ℕ => loop.targetsAt k

section Decomposition

variable {bounds : List (ℤ × ℤ)} {ax : ℕ} {axs : List ℕ} {current : List ℤ} {k : ℕ}

def extent (bounds : List (ℤ × ℤ)) (ax : ℕ) : ℕ :=
  ((bounds.getD ax (0, 0)).2 - (bounds.getD ax (0, 0)).1).toNat

/-- The targets for a flat index, without machine arithmetic. -/
def decode (bounds : List (ℤ × ℤ)) : List ℕ → ℕ → List ℤ → List ℤ
  | [], _, current => current
  | ax :: axs, k, current =>
    decode bounds axs (k % capacity (extent bounds) axs) <|
      current.set ax ((bounds.getD ax (0, 0)).1 + ↑(k / capacity (extent bounds) axs))

theorem range_mul (d n : ℕ) :
    List.range (d * n) = (List.range d).flatMap fun j => (List.range n).map fun k => j * n + k := by
  induction d with
  | zero => simp
  | succ d ih =>
    rw [succ_mul, range_add, ih, range_succ, flatMap_append, flatMap_singleton]

/-- Decomposing all flat indices in order is nesting the ranges. -/
theorem map_decode_eq_gen (axs : List ℕ) (current : List ℤ) :
    ((List.range (capacity (extent bounds) axs)).map fun k => decode bounds axs k current) =
      gen bounds axs current := by
  induction axs generalizing current with
  | nil => simp [decode, gen, range_succ]
  | cons ax axs ih =>
    rw [capacity_cons, range_mul, map_flatMap, gen, pyRange, flatMap_map]
    congr 1
    funext j
    rw [map_map, ← ih]
    refine map_congr_left fun k hk => ?_
    have hk := mem_range.1 hk
    simp only [comp_apply, decode]
    rw [Nat.mul_comm, mul_add_div (by omega), div_eq_of_lt hk, Nat.add_zero,
      mul_add_mod, mod_eq_of_lt hk]

theorem i32_of_range {x : ℤ} (hlow : -2 ^ 31 ≤ x) (hhigh : x < 2 ^ 31) : i32 x = x :=
  bmod_eq_of_le (by omega) (by omega)

theorem i32_natCast {n : ℕ} (h : n < 2 ^ 31) : i32 n = n :=
  i32_of_range (by omega) (by omega)

theorem floordiv_natCast {c : ℕ} (hc : 0 < c) (hk : k < 2 ^ 31) : floordiv k c = some ↑(k / c) := by
  rw [floordiv, if_neg (by omega), fdiv_eq_ediv_of_nonneg _ (natCast_nonneg _),
    ← natCast_ediv, i32_natCast (lt_of_le_of_lt (Nat.div_le_self k c) hk)]

theorem rest_natCast {c : ℕ} (hk : k < 2 ^ 31) : i32 (k - i32 (↑(k / c) * c)) = ↑(k % c) := by
  have hle : k / c * c ≤ k := div_mul_le_self k c
  have hmod : k - k / c * c = k % c := by
    rw [Nat.mul_comm, Nat.sub_eq_of_eq_add' (div_add_mod k c).symm]
  rw [← natCast_mul, i32_natCast (lt_of_le_of_lt hle hk), ← Int.natCast_sub hle, hmod,
    i32_natCast (lt_of_le_of_lt (mod_le k c) hk)]

/-- The levels from a physical level on -/
def levelsOf (bounds : List (ℤ × ℤ)) : List ℕ → List Level
  | [] => []
  | ax :: axs =>
    ⟨if axs = [] then none else some ↑(capacity (extent bounds) axs), ax,
      (bounds.getD ax (0, 0)).1⟩ :: levelsOf bounds axs

/-- All values of the axes are numbers of the type `i32`. -/
def Fits (bounds : List (ℤ × ℤ)) (axs : List ℕ) : Prop :=
  ∀ ax ∈ axs, -2 ^ 31 ≤ (bounds.getD ax (0, 0)).1 ∧ (bounds.getD ax (0, 0)).2 ≤ 2 ^ 31

theorem foldlM_levelsOf (hfits : Fits bounds axs) (hk : k < capacity (extent bounds) axs)
    (hsmall : capacity (extent bounds) axs < 2 ^ 31) :
    ((levelsOf bounds axs).foldlM Level.exec ((k : ℤ), current)).map Prod.snd =
      some (decode bounds axs k current) := by
  induction axs generalizing k current with
  | nil => rfl
  | cons ax axs ih =>
    obtain ⟨hlow, hhigh⟩ := hfits ax mem_cons_self
    rw [capacity_cons] at hk hsmall
    have hinner : 0 < capacity (extent bounds) axs := by
      refine Nat.pos_of_ne_zero fun hzero => ?_
      rw [hzero] at hk
      exact absurd hk (Nat.not_lt_zero k)
    have hdigit : k / capacity (extent bounds) axs < extent bounds ax :=
      Nat.div_lt_of_lt_mul (Nat.mul_comm _ _ ▸ hk)
    have hvalue : i32 (↑(k / capacity (extent bounds) axs) + (bounds.getD ax (0, 0)).1) =
        (bounds.getD ax (0, 0)).1 + ↑(k / capacity (extent bounds) axs) := by
      rw [extent] at hdigit
      generalize k / capacity (extent bounds) axs = q at *
      rw [Int.add_comm, i32_of_range] <;> omega
    have hsmallk : k < 2 ^ 31 := hk.trans hsmall
    cases axs with
    | nil =>
      have hone : k / capacity (extent bounds) [] = k := Nat.div_one k
      rw [hone] at hvalue
      simp only [levelsOf, if_true, foldlM_cons, foldlM_nil, Level.exec, decode, hone, hvalue]
      rfl
    | cons ax' axs' =>
      rw [levelsOf, if_neg (cons_ne_nil _ _), foldlM_cons]
      simp only [Level.exec, floordiv_natCast hinner hsmallk, Option.bind_eq_bind,
        Option.bind_some, rest_natCast hsmallk, hvalue]
      exact ih (fun ax hax => hfits ax (mem_cons_of_mem _ hax)) (mod_lt k hinner)
        (lt_of_le_of_lt (Nat.le_mul_of_pos_left _ (zero_lt_of_lt hdigit)) hsmall)

end Decomposition

section Built

variable {bounds : List (ℤ × ℤ)} {axs : List ℕ} {p : ℕ} {r : Ndrange}

theorem accumulate_ne_nil (d : ℤ) (ds : List ℤ) : accumulate (d :: ds) ≠ [] := by
  rw [accumulate]
  split <;> exact cons_ne_nil _ _

theorem accumulate_getD (hp : p < axs.length) :
    (accumulate (axs.map fun ax => (extent bounds ax : ℤ))).getD p 0 =
      capacity (extent bounds) (axs.drop p) := by
  induction axs generalizing p with
  | nil => exact absurd hp (Nat.not_lt_zero p)
  | cons ax axs ih =>
    rw [map_cons, accumulate]
    cases axs with
    | nil =>
      obtain rfl : p = 0 := by simpa using hp
      simp [accumulate]
    | cons ax' axs' =>
      split
      next hnil => exact absurd hnil (accumulate_ne_nil _ _)
      next a as heq =>
        have hhead := ih (p := 0) (by simp)
        rw [heq] at hhead ih
        cases p with
        | zero =>
          rw [drop_zero] at hhead
          rw [getD_cons_zero, drop_zero, capacity_cons, natCast_mul, ← hhead, getD_cons_zero]
        | succ p => exact ih (lt_of_succ_lt_succ hp)

theorem levelsOf_length (axs : List ℕ) : (levelsOf bounds axs).length = axs.length := by
  induction axs with
  | nil => rfl
  | cons ax axs ih => rw [levelsOf, length_cons, length_cons, ih]

theorem levelsOf_getD (hp : p < axs.length) (l : Level) : (levelsOf bounds axs).getD p l =
      ⟨if axs.drop (p + 1) = [] then none
        else some ↑(capacity (extent bounds) (axs.drop (p + 1))), axs.getD p 0,
        (bounds.getD (axs.getD p 0) (0, 0)).1⟩ := by
  induction axs generalizing p with
  | nil => exact absurd hp (Nat.not_lt_zero p)
  | cons ax axs ih =>
    cases p with
    | zero => simp [levelsOf]
    | succ p => exact ih (lt_of_succ_lt_succ hp)

theorem mapM_eq_pure {m : Type → Type} [Monad m] [LawfulMonad m] {α β : Type} {f : α → m β}
    {g : α → β} {l : List α} (h : ∀ x ∈ l, f x = pure (g x)) : l.mapM f = pure (l.map g) := by
  induction l with
  | nil => simp
  | cons x l ih =>
    rw [mapM_cons, h x mem_cons_self, ih fun y hy => h y (mem_cons_of_mem _ hy)]
    simp

theorem Ndrange.dimensions_eq (r : Ndrange) : r.dimensions =
    r.physicalToCanonical.map fun ax => (extent r.canonicalBounds ax : ℤ) := by
  rw [dimensions, Ndrange.bounds, map_map]
  refine map_congr_left fun ax hax => ?_
  have hlt : ax < r.canonicalBounds.length := mem_range.1 (r.perm.mem_iff.1 hax)
  have hmem : r.canonicalBounds.getD ax (0, 0) ∈ r.canonicalBounds := by
    rw [getD_eq_getElem _ _ hlt]
    exact getElem_mem hlt
  have hle := r.ordered _ hmem
  simp only [comp_apply, extent]
  omega

theorem Ndrange.accDimensions_getD (hp : p < r.physicalToCanonical.length ∨ p = 0) :
    r.accDimensions.getD p 0 =
      capacity (extent r.canonicalBounds) (r.physicalToCanonical.drop p) := by
  rw [accDimensions, dimensions_eq]
  cases haxs : r.physicalToCanonical with
  | nil =>
    obtain rfl : p = 0 := by simpa [haxs] using hp
    rfl
  | cons ax axs =>
    rw [if_neg (by exact accumulate_ne_nil _ _)]
    refine accumulate_getD ?_
    rcases hp with hp | rfl
    · exact haxs ▸ hp
    · simp

/-- What the loop is made of, where all literals are in range. -/
theorem Ndrange.build_eq (hbounds : ∀ b ∈ r.canonicalBounds, -2 ^ 31 ≤ b.1 ∧ b.1 < 2 ^ 31)
    (hacc : ∀ a ∈ r.accDimensions, a < 2 ^ 31) :
    r.build = .ok ⟨capacity (extent r.canonicalBounds) r.physicalToCanonical,
      levelsOf r.canonicalBounds r.physicalToCanonical, r.physicalToCanonical.length⟩ := by
  have hlength : r.dimensions.length = r.physicalToCanonical.length := by
    rw [dimensions_eq, length_map]
  have hliteral : ∀ p, p < r.physicalToCanonical.length ∨ p = 0 →
      literal (r.accDimensions.getD p 0) =
        .ok ↑(capacity (extent r.canonicalBounds) (r.physicalToCanonical.drop p)) := by
    intro p hp
    have hsmall : r.accDimensions.getD p 0 < 2 ^ 31 := by
      rw [getD_eq_getElem?_getD]
      cases hget : r.accDimensions[p]? with
      | none => decide
      | some a => exact hacc a (mem_of_getElem? hget)
    rw [accDimensions_getD hp] at hsmall ⊢
    exact if_pos ⟨by omega, hsmall⟩
  have hlevel : ∀ p ∈ List.range r.physicalToCanonical.length, r.level p =
      pure ((levelsOf r.canonicalBounds r.physicalToCanonical).getD p ⟨none, 0, 0⟩) := by
    intro p hp
    have hp := mem_range.1 hp
    have hget := getD_eq_getElem r.physicalToCanonical 0 hp
    have hlt := mem_range.1 (r.perm.mem_iff.1 (getElem_mem hp))
    have hbegin : (r.bounds.getD p (0, 0)).1 =
        (r.canonicalBounds.getD (r.physicalToCanonical.getD p 0) (0, 0)).1 := by
      rw [Ndrange.bounds, getD_eq_getElem _ _ (by rw [length_map]; exact hp), getElem_map, hget]
    have hrange : literal (r.bounds.getD p (0, 0)).1 = .ok (r.bounds.getD p (0, 0)).1 := by
      refine if_pos ?_
      rw [hbegin, hget, getD_eq_getElem _ _ hlt]
      exact hbounds _ (getElem_mem hlt)
    rw [level, divisor, hlength, levelsOf_getD hp]
    by_cases hlast : p + 1 < r.physicalToCanonical.length
    · rw [if_pos hlast, hliteral _ (.inl hlast), hrange, hbegin,
        if_neg (by rw [drop_eq_nil_iff]; omega)]
      rfl
    · rw [if_neg hlast, hrange, hbegin, if_pos (drop_eq_nil_iff.2 (by omega))]
      rfl
  have hlevels : (List.range r.physicalToCanonical.length).mapM r.level =
      .ok (levelsOf r.canonicalBounds r.physicalToCanonical) := by
    rw [mapM_eq_pure hlevel]
    refine congrArg Except.ok (ext_getElem (by simp [levelsOf_length]) fun p hp hp' => ?_)
    rw [getElem_map, getElem_range, getD_eq_getElem _ _ hp']
  rw [build, hliteral 0 (.inr rfl), hlength, hlevels]
  rfl

theorem Ndrange.init_bounds {args : List Arg} {axes : Option (List ℤ)}
    (h : Ndrange.init args axes = .ok r) : r.canonicalBounds = args.map Arg.bounds := by
  cases axes with
  | none =>
    cases h
    rfl
  | some axes =>
    rw [Ndrange.init] at h
    split_ifs at h
    cases h
    rfl

/-- Both loops over an ndrange visit in the kernel what the Python iterator visits, and divide by no
empty extent. -/
theorem buildNdrangeFor_agrees {args : List Arg} {axes : Option (List ℤ)}
    (hinit : Ndrange.init args axes = .ok r)
    (hargs : ∀ b ∈ args.map Arg.bounds, -2 ^ 31 ≤ b.1 ∧ b.1 < 2 ^ 31 ∧ b.2 ≤ 2 ^ 31)
    (hacc : ∀ a ∈ r.accDimensions, a < 2 ^ 31) :
    ∃ loop, buildNdrangeFor r r.dimensions.length = .ok loop ∧
      buildGroupedNdrangeFor r 1 = .ok loop ∧ loop.run = some r.iter := by
  have hbounds := hargs
  rw [← Ndrange.init_bounds hinit] at hbounds
  have hbuild := r.build_eq (fun b hb => ⟨(hbounds b hb).1, (hbounds b hb).2.1⟩) hacc
  refine ⟨_, (if_neg (not_not.2 rfl)).trans hbuild, (if_neg (not_not.2 rfl)).trans hbuild, ?_⟩
  have hsmall : capacity (extent r.canonicalBounds) r.physicalToCanonical < 2 ^ 31 := by
    have hhead := Ndrange.accDimensions_getD (r := r) (p := 0) (.inr rfl)
    rw [drop_zero] at hhead
    have hlt : r.accDimensions.getD 0 0 < 2 ^ 31 := by
      rw [getD_eq_getElem?_getD]
      cases hget : r.accDimensions[0]? with
      | none => decide
      | some a => exact hacc a (mem_of_getElem? hget)
    omega
  have hfits : Fits r.canonicalBounds r.physicalToCanonical := by
    intro ax hax
    have hlt := mem_range.1 (r.perm.mem_iff.1 hax)
    rw [getD_eq_getElem _ _ hlt]
    have h := hbounds _ (getElem_mem hlt)
    exact ⟨h.1, h.2.2⟩
  have htargets : ∀ k ∈ List.range (capacity (extent r.canonicalBounds) r.physicalToCanonical),
      Loop.targetsAt ⟨capacity (extent r.canonicalBounds) r.physicalToCanonical,
        levelsOf r.canonicalBounds r.physicalToCanonical, r.physicalToCanonical.length⟩ k =
        pure (decode r.canonicalBounds r.physicalToCanonical k
          (replicate r.physicalToCanonical.length 0)) :=
    fun k hk => foldlM_levelsOf hfits (mem_range.1 hk) hsmall
  rw [Loop.run, toNat_natCast, mapM_eq_pure htargets, map_decode_eq_gen]
  rfl

/-- Two axes, the second one around the first -/
def transposed : Ndrange := ⟨[(3, 5), (0, 2)], [1, 0], by decide, by decide⟩

theorem buildNdrangeFor_agrees_transposed : ∃ loop,
    buildNdrangeFor transposed transposed.dimensions.length = .ok loop ∧
    buildGroupedNdrangeFor transposed 1 = .ok loop ∧ loop.run = some transposed.iter := by
  have hinit : Ndrange.init [.pair 3 5, .scalar 2] (some [1, 0]) = .ok transposed := by
    rfl
  exact buildNdrangeFor_agrees hinit (by decide) (by decide)

/-- The second value of the range is not one of the type `i32`. -/
theorem buildNdrangeFor_wraps : ∃ r, Ndrange.init [.pair (2 ^ 31 - 1) (2 ^ 31 + 1)] none = .ok r ∧
      r.accDimensions = [2] ∧ ∃ loop, buildNdrangeFor r 1 = .ok loop ∧
      loop.run = some [[2 ^ 31 - 1], [-2 ^ 31]] ∧ r.iter = [[2 ^ 31 - 1], [2 ^ 31]] :=
  ⟨_, rfl, by decide, _, rfl, by decide, by decide⟩

end Built

end Quadrants.Frontend
