import Mathlib.Data.Fintype.Card
import Mathlib.Logic.Function.Basic
import Mathlib.Logic.Relation

/-!
# Store destinations of real functions

One depth-first walk over the call graph adds to the summary of every function what the functions
of its component and the functions they reach store to.
-/

namespace Quadrants.Analysis.GatherFuncStoreDests

open List

/-- A statement as a store destination. -/
inductive Dest where
  | externalPtr (id : ℕ)
  | matrixPtr (id : ℕ) (origin : Dest)
  | other (id : ℕ)
  deriving DecidableEq

def Dest.isExternal : Dest → Bool
  | externalPtr _ | matrixPtr _ (externalPtr _) => true
  | _ => false

/-- The statements of a body in the order of the visit, with the destinations of those that store.
Statements with blocks have none of their own. -/
inductive BodyStmt (F : Type) where
  | plain (storeDestination : List Dest)
  | funcCall (func : F)

variable {F : Type} [DecidableEq F]

/-- `size` is the number of functions with a number, and `funcStack` has its top first. -/
structure TarjanData (F : Type) where
  funcDfn : F → Option ℕ
  size : ℕ
  funcLow : F → ℕ
  funcStack : List F
  storeDests : F → Finset Dest

/-- The component of `func` leaves the stack, and each of its members gets the results. -/
def popComponent (func : F) (results : Finset Dest) :
    List F → (F → Finset Dest) → List F × (F → Finset Dest)
  | [], dests => ([], dests)
  | top :: stack, dests =>
    let dests := Function.update dests top (dests top ∪ results)
    if top = func then (stack, dests) else popComponent func results stack dests

def lowerTo (t : TarjanData F) (func : F) (n : ℕ) : TarjanData F :=
  { t with funcLow := Function.update t.funcLow func (min (t.funcLow func) n) }

/-- A statement of the body of `current`; `run` is the walk from a function. -/
def visit (run : F → TarjanData F → Finset Dest × TarjanData F) (current : F)
    (p : Finset Dest × TarjanData F) : BodyStmt F → Finset Dest × TarjanData F
  | .plain dests => (p.1 ∪ (dests.filter fun d => !d.isExternal).toFinset, p.2)
  | .funcCall func =>
    match p.2.funcDfn func with
    | none =>
      let q := run func p.2
      (p.1 ∪ q.1, lowerTo q.2 current (q.2.funcLow func))
    | some n =>
      if func ∈ p.2.funcStack then (p.1, lowerTo p.2 current n)
      else (p.1 ∪ p.2.storeDests func, p.2)

section Walk

variable (body : F → List (BodyStmt F))

def discover (func : F) (t : TarjanData F) : TarjanData F :=
  { t with
    funcDfn := Function.update t.funcDfn func (some t.size)
    size := t.size + 1
    funcLow := Function.update t.funcLow func t.size
    funcStack := func :: t.funcStack }

def finish (func : F) (p : Finset Dest × TarjanData F) : Finset Dest × TarjanData F :=
  if p.2.funcDfn func = some (p.2.funcLow func) then
    let q := popComponent func p.1 p.2.funcStack p.2.storeDests
    (p.1, { p.2 with funcStack := q.1, storeDests := q.2 })
  else p

/-- The walk from a function without a number. The fuel bounds the depth of the recursion. -/
def run : ℕ → F → TarjanData F → Finset Dest × TarjanData F
  | 0, _, t => (∅, t)
  | fuel + 1, func, t =>
    finish func ((body func).foldl (visit (run fuel) func) (∅, discover func t))

/-- `gather_func_store_dests` of a kernel with these calls, over what earlier runs left in
`store_dests`. -/
def gatherFuncStoreDests [Fintype F] (calls : List F) (dests : F → Finset Dest) :
    F → Finset Dest :=
  (calls.foldl
    (fun t func => if t.funcDfn func = none then (run body (Fintype.card F) func t).2 else t)
    ⟨fun _ => none, 0, fun _ => 0, [], dests⟩).storeDests

/-- The calls in the body of one function lead to the other. -/
def Reach : F → F → Prop := Relation.ReflTransGen fun f g => .funcCall g ∈ body f

/-- A statement stores to `d`, which is not external. -/
def Stores (l : List (BodyStmt F)) (d : Dest) : Prop :=
  ∃ dests, .plain dests ∈ l ∧ d ∈ dests ∧ d.isExternal = false

/-- A function that `f` reaches stores to `d`. -/
def Closure (f : F) (d : Dest) : Prop := ∃ g, Reach body f g ∧ Stores (body g) d

/-- A function that `f` reaches stores to `d`, or had it in its summary before. -/
def ClosureWith (old : F → Finset Dest) (f : F) (d : Dest) : Prop :=
  ∃ g, Reach body f g ∧ (Stores (body g) d ∨ d ∈ old g)

variable {body} {old : F → Finset Dest} {f g x : F} {d : Dest}

omit [DecidableEq F] in
theorem Reach.call (h : .funcCall g ∈ body f) : Reach body f g := Relation.ReflTransGen.single h

omit [DecidableEq F] in
theorem Closure.reach (hd : Closure body g d) (h : Reach body f g) : Closure body f d := by
  obtain ⟨k, hk, hs⟩ := hd
  exact ⟨k, h.trans hk, hs⟩

omit [DecidableEq F] in
theorem ClosureWith.reach (hd : ClosureWith body old g d) (h : Reach body f g) :
    ClosureWith body old f d := by
  obtain ⟨k, hk, hs⟩ := hd
  exact ⟨k, h.trans hk, hs⟩

theorem popComponent_append {T S : List F} (hf : f ∉ T) (r : Finset Dest)
    (dests : F → Finset Dest) : popComponent f r (T ++ f :: S) dests =
      (S, fun g => if g ∈ T ∨ g = f then dests g ∪ r else dests g) := by
  induction T generalizing dests with
  | nil =>
    simp only [nil_append, popComponent, if_true, Prod.mk.injEq, true_and]
    funext g
    by_cases hg : g = f
    · simp [hg]
    · simp [hg]
  | cons a T ih =>
    obtain ⟨hfa, hfT⟩ := not_or.1 (mem_cons.not.1 hf)
    simp only [cons_append, popComponent, if_neg (Ne.symm hfa), ih hfT, Prod.mk.injEq, true_and]
    funext g
    by_cases hg : g = a
    · simp [hg, Finset.union_assoc]
    · simp [hg]

/-- What holds between two visits. -/
structure Inv (body : F → List (BodyStmt F)) (old : F → Finset Dest) (t : TarjanData F) :
    Prop where
  lt : ∀ x n, t.funcDfn x = some n → n < t.size
  stacked : ∀ x ∈ t.funcStack, t.funcDfn x ≠ none
  closed : ∀ x, t.funcDfn x ≠ none → x ∉ t.funcStack → ∀ y, .funcCall y ∈ body x →
    t.funcDfn y ≠ none
  complete : ∀ x, t.funcDfn x ≠ none → x ∉ t.funcStack → ∀ d, Closure body x d →
    d ∈ t.storeDests x
  sound : ∀ x, ∀ d ∈ t.storeDests x, ClosureWith body old x d
  kept : ∀ x, old x ⊆ t.storeDests x

/-- A called function is in the component under way, or below it at `lo` or later, or all it
reaches is in the results. -/
def Handled (body : F → List (BodyStmt F)) (t : TarjanData F) (news below : List F) (lo : ℕ)
    (r : Finset Dest) (x : F) : Prop :=
  x ∈ news ∨ (x ∈ below ∧ ∃ n, t.funcDfn x = some n ∧ lo ≤ n) ∨
    t.funcDfn x ≠ none ∧ ∀ d, Closure body x d → d ∈ r

/-- The statements `l` of a function are in the results or lead to handled functions. -/
def Covered (body : F → List (BodyStmt F)) (t : TarjanData F) (news below : List F) (lo : ℕ)
    (r : Finset Dest) (l : List (BodyStmt F)) : Prop :=
  (∀ d, Stores l d → d ∈ r) ∧ ∀ x, .funcCall x ∈ l → Handled body t news below lo r x

variable {t t' : TarjanData F} {news news' below below' : List F} {lo lo' : ℕ} {r r' : Finset Dest}
  {l : List (BodyStmt F)}

omit [DecidableEq F] in
theorem Handled.mono (h : Handled body t news below lo r x)
    (hkeeps : ∀ x n, t.funcDfn x = some n → t'.funcDfn x = some n) (hnews : news ⊆ news')
    (hbelow : below ⊆ news' ++ below') (hlo : lo' ≤ lo) (hr : r ⊆ r') :
    Handled body t' news' below' lo' r' x := by
  rcases h with hx | ⟨hx, n, hn, hle⟩ | ⟨hx, hd⟩
  · exact .inl (hnews hx)
  · rcases mem_append.1 (hbelow hx) with hx | hx
    · exact .inl hx
    · exact .inr (.inl ⟨hx, n, hkeeps x n hn, hlo.trans hle⟩)
  · obtain ⟨n, hn⟩ := Option.ne_none_iff_exists'.1 hx
    exact .inr (.inr ⟨by simp [hkeeps x n hn], fun d hc => hr (hd d hc)⟩)

omit [DecidableEq F] in
theorem Covered.mono (h : Covered body t news below lo r l)
    (hkeeps : ∀ x n, t.funcDfn x = some n → t'.funcDfn x = some n) (hnews : news ⊆ news')
    (hbelow : below ⊆ news' ++ below') (hlo : lo' ≤ lo) (hr : r ⊆ r') :
    Covered body t' news' below' lo' r' l :=
  ⟨fun d hd => hr (h.1 d hd), fun x hx => (h.2 x hx).mono hkeeps hnews hbelow hlo hr⟩

/-- The walk from `f` that started at `start`, after the statements `done` of its body, with `U`
added to the stack. -/
structure Walked (body : F → List (BodyStmt F)) (old : F → Finset Dest) (f : F)
    (start : TarjanData F) (done : List (BodyStmt F)) (r : Finset Dest) (t : TarjanData F)
    (U : List F) : Prop where
  inv : Inv body old t
  keeps : ∀ x n, start.funcDfn x = some n → t.funcDfn x = some n
  fresh : ∀ x n, start.funcDfn x = none → t.funcDfn x = some n → start.size ≤ n
  frame : ∀ x, start.funcDfn x ≠ none → t.funcLow x = start.funcLow x
  self : t.funcDfn f = some start.size
  stack : t.funcStack = U ++ start.funcStack
  linked : ∀ w ∈ U, start.funcDfn w = none ∧ Reach body f w ∧ Reach body w f
  covered : ∀ w ∈ U, Covered body t U start.funcStack (t.funcLow f) r
    (if w = f then done else body w)
  sound : ∀ d ∈ r, ClosureWith body old f d

/-- A walk that still visits the body of `f`, above which `T` lies on the stack. -/
structure Visiting (body : F → List (BodyStmt F)) (old : F → Finset Dest) (f : F)
    (start : TarjanData F) (done : List (BodyStmt F)) (r : Finset Dest) (t : TarjanData F)
    (T : List F) : Prop extends Walked body old f start done r t (T ++ [f]) where
  not_mem : f ∉ T
  low_le : t.funcLow f ≤ start.size
  low_mem : t.funcLow f = start.size ∨
    ∃ x ∈ start.funcStack, start.funcDfn x = some (t.funcLow f) ∧ Reach body f x

/-- A walk that has ended, with a complete summary or inside an open component. -/
structure Ran (body : F → List (BodyStmt F)) (old : F → Finset Dest) (f : F)
    (start : TarjanData F) (r : Finset Dest) (t : TarjanData F) (U : List F) : Prop
    extends Walked body old f start (body f) r t U where
  result : U = [] ∧ t.funcLow f = start.size ∧ (∀ d, Closure body f d → d ∈ r) ∨
    f ∈ U ∧ ∃ x ∈ start.funcStack, start.funcDfn x = some (t.funcLow f) ∧ Reach body f x

variable {start : TarjanData F} {done : List (BodyStmt F)} {T U : List F}

/-- The members of the component stay covered when the walk goes on by `l`. -/
theorem covered_next (h : ∀ w ∈ U, Covered body t news below lo r (if w = f then done else body w))
    (hkeeps : ∀ x n, t.funcDfn x = some n → t'.funcDfn x = some n) (hnews : news ⊆ news')
    (hbelow : below ⊆ news' ++ below') (hlo : lo' ≤ lo) (hr : r ⊆ r')
    (hl : Covered body t' news' below' lo' r' l) :
    ∀ w ∈ U, Covered body t' news' below' lo' r' (if w = f then done ++ l else body w) := by
  intro w hw
  have hold := (h w hw).mono hkeeps hnews hbelow hlo hr
  split_ifs at hold ⊢ with hwf
  · refine ⟨?_, fun x hx => (mem_append.1 hx).elim (hold.2 x) (hl.2 x)⟩
    rintro d ⟨dests, hmem, hrest⟩
    rcases mem_append.1 hmem with hmem | hmem
    · exact hold.1 d ⟨dests, hmem, hrest⟩
    · exact hl.1 d ⟨dests, hmem, hrest⟩
  · exact hold

omit [DecidableEq F] in
theorem covered_call (hg : Handled body t news below lo r g) :
    Covered body t news below lo r [.funcCall g] := by
  refine ⟨fun d hd => by simp [Stores] at hd, fun x hx => ?_⟩
  obtain rfl : x = g := by simpa using hx
  exact hg

theorem visiting_discover (h : Inv body old t) (hf : t.funcDfn f = none) :
    Visiting body old f t [] ∅ (discover f t) [] := by
  have hkeeps : ∀ x n, t.funcDfn x = some n → (discover f t).funcDfn x = some n := by
    intro x n hx
    have hne : x ≠ f := by
      rintro rfl
      exact absurd hx (by simp [hf])
    simp [discover, hne, hx]
  have hold : ∀ x, x ∉ (discover f t).funcStack → x ≠ f ∧ x ∉ t.funcStack := by
    intro x hx
    exact not_or.1 (mem_cons.not.1 hx)
  have hdfn : ∀ x, x ≠ f → (discover f t).funcDfn x = t.funcDfn x := by
    intro x hx
    simp [discover, hx]
  refine ⟨⟨⟨?_, ?_, ?_, ?_, h.sound, h.kept⟩, hkeeps, ?_, ?_, by simp [discover], rfl, ?_, ?_,
    fun _ hd => absurd hd (Finset.notMem_empty _)⟩, not_mem_nil, by simp [discover],
    .inl (by simp [discover])⟩
  · intro x n hx
    by_cases hxf : x = f
    · obtain rfl : t.size = n := by simpa [discover, hxf] using hx
      exact Nat.lt_succ_self _
    · rw [hdfn x hxf] at hx
      exact (h.lt x n hx).trans (Nat.lt_succ_self _)
  · intro x hx
    by_cases hxf : x = f
    · simp [discover, hxf]
    · rw [hdfn x hxf]
      exact h.stacked x ((mem_cons.1 hx).resolve_left hxf)
  · intro x hx hstack y hy
    obtain ⟨hxf, hxs⟩ := hold x hstack
    rw [hdfn x hxf] at hx
    obtain ⟨n, hn⟩ := Option.ne_none_iff_exists'.1 (h.closed x hx hxs y hy)
    simp [hkeeps y n hn]
  · intro x hx hstack
    obtain ⟨hxf, hxs⟩ := hold x hstack
    exact h.complete x (hdfn x hxf ▸ hx) hxs
  · intro x n hx hn
    by_cases hxf : x = f
    · exact (by simpa [discover, hxf] using hn : t.size = n).le
    · exact absurd (hdfn x hxf ▸ hn) (by simp [hx])
  · intro x hx
    have hxf : x ≠ f := by
      rintro rfl
      exact hx hf
    simp [discover, hxf]
  · intro w hw
    obtain rfl : w = f := by simpa using hw
    exact ⟨hf, .refl, .refl⟩
  · intro w hw
    obtain rfl : w = f := by simpa using hw
    rw [if_pos rfl]
    exact ⟨fun _ hd => by simp [Stores] at hd, fun _ hx => absurd hx not_mem_nil⟩

theorem Visiting.start_none (h : Visiting body old f start done r t T) : start.funcDfn f = none :=
  (h.linked f (by simp)).1

/-- A statement that only adds to the results. -/
theorem Visiting.grow (h : Visiting body old f start done r t T) (hr : r ⊆ r')
    (hsound : ∀ d ∈ r', ClosureWith body old f d)
    (hl : Covered body t (T ++ [f]) start.funcStack (t.funcLow f) r' l) :
    Visiting body old f start (done ++ l) r' t T :=
  ⟨⟨h.inv, h.keeps, h.fresh, h.frame, h.self, h.stack, h.linked, covered_next h.covered
    (fun _ _ hx => hx) (List.Subset.refl _) (subset_append_right ..) le_rfl hr hl, hsound⟩,
    h.not_mem, h.low_le, h.low_mem⟩

theorem Visiting.plain (h : Visiting body old f start done r t T) {dests : List Dest}
    (hmem : .plain dests ∈ body f) : Visiting body old f start (done ++ [.plain dests])
      (r ∪ (dests.filter fun d => !d.isExternal).toFinset) t T := by
  refine h.grow Finset.subset_union_left (fun d hd => ?_) ⟨?_, fun x hx => by simp at hx⟩
  · rcases Finset.mem_union.1 hd with hd | hd
    · exact h.sound d hd
    · obtain ⟨hd, hext⟩ : d ∈ dests ∧ d.isExternal = false := by simpa using hd
      exact ⟨f, .refl, .inl ⟨dests, hmem, hd, hext⟩⟩
  · rintro d ⟨l, hl, hd, hext⟩
    obtain rfl : l = dests := by simpa using hl
    exact Finset.mem_union_right _ (by simp [hd, hext])

/-- A call of a function that has left the stack. -/
theorem Visiting.callSettled (h : Visiting body old f start done r t T)
    (hmem : .funcCall g ∈ body f) (hdfn : t.funcDfn g ≠ none) (hg : g ∉ t.funcStack) :
    Visiting body old f start (done ++ [.funcCall g]) (r ∪ t.storeDests g) t T := by
  refine h.grow Finset.subset_union_left (fun d hd => ?_) (covered_call
    (.inr (.inr ⟨hdfn, fun d hd => Finset.mem_union_right _ (h.inv.complete g hdfn hg d hd)⟩)))
  rcases Finset.mem_union.1 hd with hd | hd
  · exact h.sound d hd
  · exact (h.inv.sound g d hd).reach (.call hmem)

/-- A call of a function on the stack. -/
theorem Visiting.callStacked (h : Visiting body old f start done r t T)
    (hstart : Inv body old start) (hmem : .funcCall g ∈ body f) {n : ℕ}
    (hdfn : t.funcDfn g = some n) (hg : g ∈ t.funcStack) :
    Visiting body old f start (done ++ [.funcCall g]) r (lowerTo t f n) T := by
  have hlow : (lowerTo t f n).funcLow f = min (t.funcLow f) n := by simp [lowerTo]
  have hside : g ∈ T ++ [f] ∨ g ∈ start.funcStack := mem_append.1 (h.stack ▸ hg)
  have hhandled : Handled body (lowerTo t f n) (T ++ [f]) start.funcStack
      ((lowerTo t f n).funcLow f) r g :=
    hside.imp id fun hs => .inl ⟨hs, n, hdfn, hlow ▸ min_le_right _ _⟩
  refine ⟨⟨⟨h.inv.lt, h.inv.stacked, h.inv.closed, h.inv.complete, h.inv.sound, h.inv.kept⟩,
    h.keeps, h.fresh, ?_, h.self, h.stack, h.linked, covered_next h.covered (fun _ _ hx => hx)
    (List.Subset.refl _) (subset_append_right ..) (hlow ▸ min_le_left _ _) subset_rfl
    (covered_call hhandled), h.sound⟩, h.not_mem, hlow ▸ (min_le_left _ _).trans h.low_le, ?_⟩
  · intro x hx
    have hxf : x ≠ f := by
      rintro rfl
      exact hx h.start_none
    simpa [lowerTo, hxf] using h.frame x hx
  · rw [hlow]
    rcases le_total (t.funcLow f) n with hle | hle
    · rw [min_eq_left hle]
      exact h.low_mem
    · rw [min_eq_right hle]
      rcases hside with hs | hs
      · have hn := h.fresh g n (h.linked g hs).1 hdfn
        exact .inl (le_antisymm (hle.trans h.low_le) hn)
      · obtain ⟨m, hm⟩ := Option.ne_none_iff_exists'.1 (hstart.stacked g hs)
        obtain rfl : m = n := by simpa [h.keeps g m hm] using hdfn
        exact .inr ⟨g, hs, hm, .call hmem⟩

theorem Visiting.stack_reach (h : Visiting body old f start done r t T)
    (hstack : ∀ x ∈ start.funcStack, Reach body x f) : ∀ x ∈ t.funcStack, Reach body x f := by
  intro x hx
  rw [h.stack] at hx
  exact (mem_append.1 hx).elim (fun hx => (h.linked x hx).2.2) (hstack x)

/-- A call of a function without a number, after the walk from it. -/
theorem Visiting.callRun (h : Visiting body old f start done r t T)
    (hstack : ∀ x ∈ start.funcStack, Reach body x f) (hmem : .funcCall g ∈ body f)
    (hg : Ran body old g t r' t' U) :
    Visiting body old f start (done ++ [.funcCall g]) (r ∪ r') (lowerTo t' f (t'.funcLow g))
      (U ++ T) := by
  have hlater : start.size < t.size := h.inv.lt f _ h.self
  have hframe : t'.funcLow f = t.funcLow f := hg.frame f (by simp [h.self])
  have hlow : (lowerTo t' f (t'.funcLow g)).funcLow f = min (t.funcLow f) (t'.funcLow g) := by
    simp [lowerTo, hframe]
  have hnone : ∀ w ∈ U, start.funcDfn w = none := by
    intro w hw
    by_contra hne
    obtain ⟨n, hn⟩ := Option.ne_none_iff_exists'.1 hne
    exact absurd (hg.linked w hw).1 (by simp [h.keeps w n hn])
  have hfU : f ∉ U := fun hmem => absurd (hg.linked f hmem).1 (by simp [h.self])
  have hhandled : Handled body (lowerTo t' f (t'.funcLow g)) (U ++ T ++ [f]) start.funcStack
      ((lowerTo t' f (t'.funcLow g)).funcLow f) (r ∪ r') g := by
    rcases hg.result with ⟨-, -, hclosure⟩ | ⟨hgU, -⟩
    · exact .inr (.inr ⟨by simp [lowerTo, hg.self], fun d hd =>
        Finset.mem_union_right _ (hclosure d hd)⟩)
    · exact .inl (by simp [hgU])
  refine ⟨⟨⟨hg.inv.lt, hg.inv.stacked, hg.inv.closed, hg.inv.complete, hg.inv.sound,
    hg.inv.kept⟩, fun x n hx => hg.keeps x n (h.keeps x n hx), ?_, ?_, hg.keeps f _ h.self, ?_, ?_,
    ?_, ?_⟩, fun hmem => (mem_append.1 hmem).elim hfU h.not_mem,
    hlow ▸ (min_le_left _ _).trans h.low_le, ?_⟩
  · intro x n hx hn
    cases hxt : t.funcDfn x with
    | none => exact hlater.le.trans (hg.fresh x n hxt hn)
    | some m =>
      obtain rfl : m = n := by simpa [lowerTo, hg.keeps x m hxt] using hn
      exact h.fresh x m hx hxt
  · intro x hx
    have hxf : x ≠ f := by
      rintro rfl
      exact hx h.start_none
    obtain ⟨n, hn⟩ := Option.ne_none_iff_exists'.1 hx
    rw [← h.frame x hx, ← hg.frame x (by simp [h.keeps x n hn])]
    simp [lowerTo, hxf]
  · change t'.funcStack = _
    rw [hg.stack, h.stack, append_assoc, append_assoc, append_assoc]
  · intro w hw
    rw [append_assoc] at hw
    rcases mem_append.1 hw with hw | hw
    · obtain ⟨-, hgw, hwg⟩ := hg.linked w hw
      refine ⟨hnone w hw, (Reach.call hmem).trans hgw, hwg.trans ?_⟩
      rcases hg.result with ⟨hU, -⟩ | ⟨-, x, hx, -, hreach⟩
      · exact absurd (hU ▸ hw) not_mem_nil
      · exact hreach.trans (h.stack_reach hstack x hx)
    · exact h.linked w hw
  · intro w hw
    rw [append_assoc] at hw
    rcases mem_append.1 hw with hw | hw
    · have hwf : w ≠ f := fun heq => hfU (heq ▸ hw)
      have hcov := hg.covered w hw
      have hbody : (if w = g then body g else body w) = body w := by
        split_ifs with hwg
        · rw [hwg]
        · rfl
      rw [hbody] at hcov
      rw [if_neg hwf]
      refine hcov.mono (fun _ _ hx => hx) ?_ ?_ (hlow ▸ min_le_right _ _) Finset.subset_union_right
      · rw [append_assoc]
        exact subset_append_left ..
      · rw [h.stack, append_assoc U, append_assoc U]
        exact subset_append_right ..
    · refine covered_next h.covered hg.keeps ?_ (subset_append_right ..) (hlow ▸ min_le_left _ _)
        Finset.subset_union_left (covered_call hhandled) w hw
      rw [append_assoc]
      exact subset_append_right ..
  · intro d hd
    rcases Finset.mem_union.1 hd with hd | hd
    · exact h.sound d hd
    · exact (hg.sound d hd).reach (.call hmem)
  · rw [hlow]
    rcases hg.result with ⟨-, hlowg, -⟩ | ⟨-, x, hx, hxlow, hreach⟩
    · rw [min_eq_left (by rw [hlowg]; exact h.low_le.trans hlater.le)]
      exact h.low_mem
    · rcases le_total (t.funcLow f) (t'.funcLow g) with hle | hle
      · rw [min_eq_left hle]
        exact h.low_mem
      · rw [min_eq_right hle]
        cases hxs : start.funcDfn x with
        | none => exact .inl (le_antisymm (hle.trans h.low_le) (h.fresh x _ hxs hxlow))
        | some m =>
          obtain rfl : m = t'.funcLow g := by simpa [h.keeps x m hxs] using hxlow
          refine .inr ⟨x, ?_, hxs, (Reach.call hmem).trans hreach⟩
          refine (mem_append.1 (h.stack ▸ hx)).resolve_left fun hT => ?_
          exact absurd (h.linked x hT).1 (by simp [hxs])

theorem Visiting.covered_body (h : Visiting body old f start (body f) r t T) {w : F}
    (hw : w ∈ T ++ [f]) : Covered body t (T ++ [f]) start.funcStack (t.funcLow f) r (body w) := by
  have hcov := h.covered w hw
  split_ifs at hcov with hwf
  · rwa [hwf]
  · exact hcov

/-- The component that `f` closes reaches no other function that has no complete summary. -/
theorem Visiting.closure_subset (h : Visiting body old f start (body f) r t T)
    (hstart : Inv body old start) (hlow : t.funcLow f = start.size) (hd : Closure body f d) :
    d ∈ r := by
  obtain ⟨g, hfg, hstores⟩ := hd
  have hinside : g ∈ T ++ [f] ∨ ∀ d, Closure body g d → d ∈ r := by
    clear hstores
    induction hfg with
    | refl => exact .inl (by simp)
    | tail _ hcall ih =>
      rcases ih with hmem | hall
      · rcases (h.covered_body hmem).2 _ hcall with hnew | ⟨hbelow, n, hn, hle⟩ | ⟨-, hall⟩
        · exact .inl hnew
        · obtain ⟨m, hm⟩ := Option.ne_none_iff_exists'.1 (hstart.stacked _ hbelow)
          have hlt := hstart.lt _ m hm
          obtain rfl : m = n := by simpa [h.keeps _ m hm] using hn
          omega
        · exact .inr hall
      · exact .inr fun d hd => hall d (hd.reach (.call hcall))
  rcases hinside with hmem | hall
  · exact (h.covered_body hmem).1 d hstores
  · exact hall d ⟨g, .refl, hstores⟩

theorem Visiting.finished (h : Visiting body old f start (body f) r t T)
    (hstart : Inv body old start) :
    ∃ U, Ran body old f start (finish f (r, t)).1 (finish f (r, t)).2 U := by
  by_cases hlow : t.funcLow f = start.size
  · have hclosure : ∀ d, Closure body f d → d ∈ r := fun d hd => h.closure_subset hstart hlow hd
    have hmem : ∀ x, (x ∈ T ∨ x = f) ↔ x ∈ T ++ [f] := fun x => by simp
    have hout : ∀ x, x ∉ T ++ [f] → x ∉ start.funcStack → x ∉ t.funcStack := by
      intro x hxT hx hs
      exact (mem_append.1 (h.stack ▸ hs)).elim hxT hx
    have hfin : finish f (r, t) = (r, { t with
        funcStack := start.funcStack
        storeDests := fun g => if g ∈ T ++ [f] then t.storeDests g ∪ r else t.storeDests g }) := by
      have hstack : t.funcStack = T ++ f :: start.funcStack := by simp [h.stack]
      simp only [finish, h.self, hlow, if_true, hstack, popComponent_append h.not_mem, hmem]
    rw [hfin]
    refine ⟨[], ⟨⟨h.inv.lt, fun x hx => ?_, fun x hx hstack y hy => ?_, fun x hx hstack d hd => ?_,
      fun x d hd => ?_, fun x d hd => ?_⟩, h.keeps, h.fresh, h.frame, h.self, rfl,
      fun _ hw => absurd hw not_mem_nil, fun _ hw => absurd hw not_mem_nil, h.sound⟩,
      .inl ⟨rfl, hlow, hclosure⟩⟩
    · exact h.inv.stacked x (h.stack ▸ mem_append_right _ hx)
    · by_cases hxT : x ∈ T ++ [f]
      · rcases (h.covered_body hxT).2 y hy with hnew | ⟨-, n, hn, -⟩ | ⟨hdfn, -⟩
        · exact h.inv.stacked y (h.stack ▸ mem_append_left _ hnew)
        · simp [hn]
        · exact hdfn
      · exact h.inv.closed x hx (hout x hxT hstack) y hy
    · by_cases hxT : x ∈ T ++ [f]
      · have hr := hclosure d (hd.reach (h.linked x hxT).2.1)
        simp only [if_pos hxT, Finset.mem_union, hr, or_true]
      · have hold := h.inv.complete x hx (hout x hxT hstack) d hd
        simpa only [if_neg hxT] using hold
    · dsimp only at hd
      split_ifs at hd with hxT
      · rcases Finset.mem_union.1 hd with hd | hd
        · exact h.inv.sound x d hd
        · exact (h.sound d hd).reach (h.linked x hxT).2.2
      · exact h.inv.sound x d hd
    · have hold := h.inv.kept x hd
      dsimp only
      split_ifs with hxT
      · exact Finset.mem_union_left _ hold
      · exact hold
  · have hfin : finish f (r, t) = (r, t) := by
      rw [finish, if_neg]
      rw [h.self]
      exact fun heq => hlow (Option.some.inj heq).symm
    rw [hfin]
    exact ⟨T ++ [f], h.toWalked, .inr ⟨by simp, h.low_mem.resolve_left hlow⟩⟩

/-- The functions without a number. -/
def undiscovered [Fintype F] (t : TarjanData F) : Finset F :=
  Finset.univ.filter fun x => t.funcDfn x = none

theorem run_spec [Fintype F] (fuel : ℕ) : ∀ (f : F) (start : TarjanData F), Inv body old start →
    start.funcDfn f = none → (∀ x ∈ start.funcStack, Reach body x f) →
    (undiscovered start).card ≤ fuel →
    ∃ U, Ran body old f start (run body fuel f start).1 (run body fuel f start).2 U := by
  induction fuel with
  | zero =>
    intro f start _ hf _ hfuel
    have hmem : f ∈ undiscovered start := by simp [undiscovered, hf]
    exact absurd hfuel (Finset.card_pos.2 ⟨f, hmem⟩).not_ge
  | succ fuel ih =>
    intro f start hstart hf hstack hfuel
    have hbody : ∀ (rest done : List (BodyStmt F)) (p : Finset Dest × TarjanData F) (T : List F),
        done ++ rest = body f → Visiting body old f start done p.1 p.2 T →
        ∃ T', Visiting body old f start (body f) (rest.foldl (visit (run body fuel) f) p).1
          (rest.foldl (visit (run body fuel) f) p).2 T' := by
      intro rest
      induction rest with
      | nil =>
        intro done p T hdone h
        exact ⟨T, by simpa [← hdone] using h⟩
      | cons stmt rest ihrest =>
        rintro done ⟨r, t⟩ T hdone h
        replace h : Visiting body old f start done r t T := h
        have hmem : stmt ∈ body f := by simp [← hdone]
        have hnext : done ++ [stmt] ++ rest = body f := by simpa using hdone
        cases stmt with
        | plain dests => exact ihrest _ _ T hnext (h.plain hmem)
        | funcCall g =>
          simp only [foldl_cons, visit]
          cases hg : t.funcDfn g with
          | none =>
            have hless : (undiscovered t).card ≤ fuel := by
              refine Nat.le_of_lt_succ (lt_of_lt_of_le (Finset.card_lt_card ?_) hfuel)
              refine Finset.ssubset_iff_of_subset (fun x hx => ?_) |>.2 ⟨f, ?_, ?_⟩
              · cases hx' : start.funcDfn x with
                | none => simp [undiscovered, hx']
                | some n => simp [undiscovered, h.keeps x n hx'] at hx
              · simp [undiscovered, hf]
              · simp [undiscovered, h.self]
            obtain ⟨U, hU⟩ := ih g t h.inv hg
              (fun x hx => (h.stack_reach hstack x hx).trans (Reach.call hmem)) hless
            exact ihrest _ _ (U ++ T) hnext (h.callRun hstack hmem hU)
          | some n =>
            split_ifs with hon
            · exact ihrest _ _ T hnext (h.callStacked hstart hmem hg hon)
            · exact ihrest _ _ T hnext (h.callSettled hmem (by simp [hg]) hon)
    obtain ⟨T, hT⟩ := hbody (body f) [] (∅, discover f start) [] rfl (visiting_discover hstart hf)
    exact hT.finished hstart

/-- The summaries hold at least what reachable functions store to, and besides only what was in
their summaries before. -/
theorem gatherFuncStoreDests_between [Fintype F] (calls : List F) (old : F → Finset Dest) {c : F}
    (hc : c ∈ calls) (hf : Reach body c f) :
    (∀ d, Closure body f d → d ∈ gatherFuncStoreDests body calls old f) ∧
      (∀ d ∈ gatherFuncStoreDests body calls old f, ClosureWith body old f d) ∧
      old f ⊆ gatherFuncStoreDests body calls old f := by
  have hcalls : ∀ (rest : List F) (t : TarjanData F), Inv body old t → t.funcStack = [] →
      ∃ t', Inv body old t' ∧ t'.funcStack = [] ∧
        (∀ x, x ∈ rest ∨ t.funcDfn x ≠ none → t'.funcDfn x ≠ none) ∧
        rest.foldl (fun t func => if t.funcDfn func = none then
          (run body (Fintype.card F) func t).2 else t) t = t' := by
    intro rest
    induction rest with
    | nil => exact fun t h hs => ⟨t, h, hs, fun x hx => hx.resolve_left not_mem_nil, rfl⟩
    | cons g rest ih =>
      intro t h hs
      simp only [foldl_cons]
      by_cases hg : t.funcDfn g = none
      · rw [if_pos hg]
        obtain ⟨U, hU⟩ := run_spec (Fintype.card F) g t h hg (by simp [hs]) (Finset.card_le_univ _)
        have hstack : (run body (Fintype.card F) g t).2.funcStack = [] := by
          rcases hU.result with ⟨rfl, -⟩ | ⟨-, x, hx, -⟩
          · simpa [hs] using hU.stack
          · exact absurd (hs ▸ hx) not_mem_nil
        obtain ⟨t', hinv, hs', hdfn, heq⟩ := ih _ hU.inv hstack
        refine ⟨t', hinv, hs', fun x hx => ?_, heq⟩
        rcases hx with hx | hx
        · rcases mem_cons.1 hx with rfl | hx
          · exact hdfn x (.inr (by simp [hU.self]))
          · exact hdfn x (.inl hx)
        · obtain ⟨n, hn⟩ := Option.ne_none_iff_exists'.1 hx
          exact hdfn x (.inr (by simp [hU.keeps x n hn]))
      · rw [if_neg hg]
        obtain ⟨t', hinv, hs', hdfn, heq⟩ := ih t h hs
        refine ⟨t', hinv, hs', fun x hx => ?_, heq⟩
        rcases hx with hx | hx
        · rcases mem_cons.1 hx with rfl | hx
          · exact hdfn x (.inr hg)
          · exact hdfn x (.inl hx)
        · exact hdfn x (.inr hx)
  have hinit : Inv body old ⟨fun _ => none, 0, fun _ => 0, [], old⟩ :=
    ⟨fun _ _ h => by simp at h, by simp, fun x h => absurd rfl h, fun x h => absurd rfl h,
      fun x d hd => ⟨x, .refl, .inr hd⟩, fun _ => subset_rfl⟩
  obtain ⟨t, hinv, hstack, hdfn, heq⟩ := hcalls calls _ hinit rfl
  have hreached : t.funcDfn f ≠ none := by
    induction hf with
    | refl => exact hdfn c (.inl hc)
    | tail _ hcall ih => exact hinv.closed _ ih (by simp [hstack]) _ hcall
  rw [gatherFuncStoreDests, heq]
  exact ⟨hinv.complete f hreached (by simp [hstack]), hinv.sound f, hinv.kept f⟩

/-- After the pass the summary of every reachable function is exactly what the functions it reaches
store to, if and only if nothing else was in the summaries before. -/
theorem gatherFuncStoreDests_exact_iff [Fintype F] (body : F → List (BodyStmt F)) (calls : List F)
    (old : F → Finset Dest) : (∀ c ∈ calls, ∀ f, Reach body c f →
      ∀ d, d ∈ gatherFuncStoreDests body calls old f ↔ Closure body f d) ↔
    ∀ c ∈ calls, ∀ f, Reach body c f → ∀ d ∈ old f, Closure body f d := by
  constructor
  · intro h c hc f hf d hd
    exact (h c hc f hf d).1 ((gatherFuncStoreDests_between calls old hc hf).2.2 hd)
  · intro h c hc f hf d
    obtain ⟨hcomplete, hsound, -⟩ := gatherFuncStoreDests_between calls old hc hf
    refine ⟨fun hd => ?_, hcomplete d⟩
    obtain ⟨g, hg, hstores | hold⟩ := hsound d hd
    · exact ⟨g, hg, hstores⟩
    · exact (h c hc g (hf.trans hg) d hold).reach hg

/-- A function that stores to a local variable and to a field when its summary is first gathered,
and only to the field once it is optimized: the second run keeps the variable. -/
theorem gatherFuncStoreDests_stale :
    let written : Unit → List (BodyStmt Unit) := fun _ => [.plain [.other 0], .plain [.other 1]]
    let optimized : Unit → List (BodyStmt Unit) := fun _ => [.plain [.other 1]]
    ¬ ∀ d, d ∈ gatherFuncStoreDests optimized [()]
        (gatherFuncStoreDests written [()] fun _ => ∅) () ↔ Closure optimized () d := by
  intro written optimized h
  obtain ⟨g, -, dests, hmem, hd, -⟩ := (h (.other 0)).1 (by decide)
  obtain rfl : dests = [.other 1] := by simpa [optimized] using hmem
  simp at hd

end Walk

end Quadrants.Analysis.GatherFuncStoreDests
