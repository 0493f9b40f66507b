import Quadrants.Library.Tarjan
import Mathlib.Data.List.Chain
import Mathlib.Data.List.Pairwise
import Mathlib.Algebra.Order.Ring.Int

/-!
The invariant of the frame loop of Tarjan's algorithm, and the five moves a step
of the loop is made of: discovering a node, lowering a lowlink, advancing a frame,
leaving a frame and popping a component.
-/

namespace Quadrants.Library.Tarjan

open List

section Invariant

variable (next : Nat → List Nat)

def Reach : Nat → Nat → Prop := Relation.ReflTransGen (fun a b => b ∈ next a)

def Climb (index : Nat → Int) (a b : Nat) : Prop :=
  b ∈ next a ∧ index a ≠ -1 ∧ index a < index b

def Climbs (index : Nat → Int) : Nat → Nat → Prop := Relation.ReflTransGen (Climb next index)

def path (st : State) : List Nat := st.frames.map Prod.fst

def Scanned (st : State) (w x : Nat) : Prop :=
  (st.finish w ≠ -1 ∧ x ∈ next w) ∨ ∃ k, (w, k) ∈ st.frames ∧ x ∈ (next w).take k

def Origin (index : Nat → Int) (v : Nat) : Prop :=
  ∀ x y, index x ≠ -1 → index x < index v → y ∈ next x → index y ≠ -1 ∧ index y < index v

structure Numbered (n : Nat) (st : State) : Prop where
  index_range : ∀ v, st.index v ≠ -1 → 0 ≤ st.index v ∧ st.index v < st.nextIndex ∧ v < n
  nextIndex_nonneg : 0 ≤ st.nextIndex
  index_inj : ∀ v w, st.index v ≠ -1 → st.index v = st.index w → v = w
  first : ∀ v, st.index v ≠ -1 → st.index 0 ≠ -1 ∧ st.index 0 ≤ st.index v
  origin : ∀ v, st.index v ≠ -1 → Origin next st.index v ∨ ∃ u, Climb next st.index u v

structure Stacked (st : State) : Prop where
  mem_stack : ∀ w, w ∈ st.stack ↔ st.index w ≠ -1 ∧ st.sccId w = -1
  stack_sorted : st.stack.Pairwise (fun a b => st.index b < st.index a)
  onStack_iff : ∀ w, st.onStack w = true ↔ w ∈ st.stack
  path_stack : ∀ u ∈ path st, u ∈ st.stack
  path_chain : (path st).IsChain (fun a b => Climb next st.index b a)

structure Finished (st : State) : Prop where
  nextFinish_nonneg : 0 ≤ st.nextFinish
  finish_range : ∀ w, st.finish w ≠ -1 → 0 ≤ st.finish w ∧ st.finish w < st.nextFinish
  finish_inj : ∀ v w, st.finish v ≠ -1 → st.finish v = st.finish w → v = w
  unfinished : ∀ w, st.finish w = -1 ↔ st.index w = -1 ∨ w ∈ path st
  finish_order : ∀ u v, st.finish u ≠ -1 → v ∈ next u →
    (st.finish v ≠ -1 ∧ st.finish v < st.finish u) ∨ Climbs next st.index v u

/-- A frame's segment of the stack is what lies above it and below the next frame;
its lowlink is below every stack node an edge from the segment leads to. -/
structure Linked (st : State) : Prop where
  scanned : ∀ w x, Scanned next st w x → st.index x ≠ -1
  path_reach : ∀ f ∈ path st, ∀ w ∈ st.stack, st.index f ≤ st.index w → Reach next f w
  stack_reach : ∀ w ∈ st.stack, ∃ f ∈ path st, st.index f ≤ st.index w ∧ Reach next w f
  low_le : ∀ f ∈ path st, st.lowlink f ≤ st.index f
  low_sound : ∀ f ∈ path st, ∃ x ∈ st.stack, st.index x = st.lowlink f ∧ Reach next f x
  low_complete : ∀ f ∈ path st, ∀ w ∈ st.stack, st.index f ≤ st.index w →
    (∀ g ∈ path st, st.index f < st.index g → st.index w < st.index g) →
    ∀ x ∈ st.stack, Scanned next st w x → st.lowlink f ≤ st.index x

structure Assigned (st : State) : Prop where
  sccId_range : ∀ w, st.sccId w ≠ -1 →
    0 ≤ st.sccId w ∧ st.sccId w < st.components.length ∧ st.index w ≠ -1
  component : ∀ (s : Nat) c, st.components[s]? = some c →
    c ≠ [] ∧ c.Nodup ∧ ∀ w, w ∈ c ↔ st.sccId w = s
  assigned_closed : ∀ w x, st.sccId w ≠ -1 → x ∈ next w →
    st.sccId x ≠ -1 ∧ st.sccId x ≤ st.sccId w
  component_reach : ∀ v w, st.sccId v ≠ -1 → st.sccId v = st.sccId w → Reach next v w

structure Inv (n : Nat) (st : State) : Prop extends Numbered next n st, Stacked next st,
    Finished next st, Linked next st, Assigned next st

end Invariant

variable {next : Nat → List Nat} {n : Nat} {st : State}

theorem Climbs.index_le {index : Nat → Int} {a b : Nat} (h : Climbs next index a b) :
    index a ≤ index b := by
  induction h with
  | refl => exact le_refl _
  | tail _ hbc ih => exact le_trans ih (le_of_lt hbc.2.2)

variable {f u : Nat}

theorem mem_path {k : Nat} (h : (u, k) ∈ st.frames) : u ∈ path st :=
  mem_map.mpr ⟨(u, k), h, rfl⟩

theorem inv_initial : Inv next n initial := by
  constructor <;> constructor <;> simp [initial, path, Scanned, Reach]

theorem Inv.path_sorted (h : Inv next n st) :
    (path st).Pairwise (fun a b => st.index b < st.index a) := by
  have hchain : (path st).IsChain (fun a b => st.index b < st.index a) :=
    h.path_chain.imp fun _ _ hab => hab.2.2
  exact isChain_iff_pairwise.mp hchain

theorem Inv.path_index (h : Inv next n st) (hf : f ∈ path st) : st.index f ≠ -1 :=
  ((h.mem_stack f).mp (h.path_stack f hf)).1

theorem Inv.le_top (h : Inv next n st) {rest : List Nat} (hp : path st = u :: rest)
    (hf : f ∈ path st) : st.index f ≤ st.index u := by
  have hs := h.path_sorted
  rw [hp] at hf hs
  rcases mem_cons.mp hf with rfl | hf
  · exact le_refl _
  · exact le_of_lt (rel_of_pairwise_cons hs hf)

theorem Inv.path_reach_path (h : Inv next n st) {g : Nat} (hf : f ∈ path st)
    (hg : g ∈ path st) (hle : st.index f ≤ st.index g) : Reach next f g :=
  h.path_reach f hf g (h.path_stack g hg) hle

theorem Inv.stack_eq_nil (h : Inv next n st) (hp : path st = []) : st.stack = [] := by
  rw [eq_nil_iff_forall_not_mem]
  intro w hw
  obtain ⟨f, hf, _⟩ := h.stack_reach w hw
  rw [hp] at hf
  exact absurd hf not_mem_nil

theorem Inv.assigned_of_path_nil (h : Inv next n st) (hp : path st = []) {w : Nat}
    (hw : st.index w ≠ -1) : st.sccId w ≠ -1 := by
  intro hc
  have hmem := (h.mem_stack w).mpr ⟨hw, hc⟩
  rw [h.stack_eq_nil hp] at hmem
  exact absurd hmem not_mem_nil

section Discover

variable {v : Nat}

theorem discover_index_self : (discover st v).index v = st.nextIndex := by simp [discover]

variable {a b w : Nat}

theorem discover_index (hv : st.index v = -1) (hw : st.index w ≠ -1) :
    (discover st v).index w = st.index w := by
  have hne : w ≠ v := by rintro rfl; exact hw hv
  simp [discover, hne]

theorem discover_index_ne (h : Inv next n st) :
    (discover st v).index w ≠ -1 ↔ w = v ∨ st.index w ≠ -1 := by
  have hn := h.nextIndex_nonneg
  by_cases hw : w = v
  · subst hw
    rw [discover_index_self]
    omega
  · simp [discover, hw]

theorem Inv.discover_index_lt (h : Inv next n st) (hv : st.index v = -1)
    (hw : st.index w ≠ -1) : (discover st v).index w < (discover st v).index v := by
  rw [discover_index hv hw, discover_index_self]
  exact (h.index_range w hw).2.1

theorem Climb.discovered (h : Inv next n st) (hv : st.index v = -1)
    (hab : Climb next st.index a b) : Climb next (discover st v).index a b := by
  obtain ⟨hmem, ha, hlt⟩ := hab
  have hb : st.index b ≠ -1 := by
    have := h.index_range a ha
    omega
  refine ⟨hmem, ?_, ?_⟩
  · rw [discover_index hv ha]
    exact ha
  · rw [discover_index hv ha, discover_index hv hb]
    exact hlt

theorem Climbs.discovered (h : Inv next n st) (hv : st.index v = -1)
    (hab : Climbs next st.index a b) : Climbs next (discover st v).index a b :=
  Relation.ReflTransGen.mono (fun _ _ hc => hc.discovered h hv) _ _ hab

theorem scanned_discover {x : Nat} (hs : Scanned next (discover st v) w x) :
    Scanned next st w x := by
  rcases hs with hs | ⟨k, hk, hx⟩
  · exact Or.inl hs
  · rcases mem_cons.mp hk with heq | hk
    · obtain ⟨-, rfl⟩ := Prod.mk.injEq .. ▸ heq
      simp at hx
    · exact Or.inr ⟨k, hk, hx⟩

theorem mem_discover_stack : w ∈ (discover st v).stack ↔ w = v ∨ w ∈ st.stack :=
  mem_cons

theorem Inv.stack_index (h : Inv next n st) (hw : w ∈ st.stack) : st.index w ≠ -1 :=
  ((h.mem_stack w).mp hw).1

-- A node is discovered as an origin, without frames, or from the top frame.
theorem Inv.discover_numbered (h : Inv next n st) (hv : st.index v = -1) (hvn : v < n)
    (hfirst : v = 0 ∨ st.index 0 ≠ -1)
    (hfrom : path st = [] ∨ ∃ u rest, path st = u :: rest ∧ v ∈ next u) :
    Numbered next n (discover st v) := by
  have hidx := @discover_index_self st v
  have hlt := fun {w} hw => h.discover_index_lt (w := w) hv hw
  refine ⟨?_, ?_, ?_, ?_, ?_⟩
  · intro w hw
    have hn := h.nextIndex_nonneg
    rcases (discover_index_ne h).mp hw with rfl | hw
    · rw [hidx]
      exact ⟨hn, Int.lt_succ _, hvn⟩
    · rw [discover_index hv hw]
      obtain ⟨h0, h1, h2⟩ := h.index_range w hw
      exact ⟨h0, Int.lt_add_one_of_le (le_of_lt h1), h2⟩
  · exact Int.le_add_one h.nextIndex_nonneg
  · intro a b ha hab
    have hb : (discover st v).index b ≠ -1 := hab ▸ ha
    rcases (discover_index_ne h).mp ha with rfl | ha'
    · rcases (discover_index_ne h).mp hb with rfl | hb
      · rfl
      · exact absurd hab (ne_of_gt (hlt hb))
    · rcases (discover_index_ne h).mp hb with rfl | hb
      · exact absurd hab (ne_of_lt (hlt ha'))
      · rw [discover_index hv ha', discover_index hv hb] at hab
        exact h.index_inj a b ha' hab
  · intro w hw
    have h0 : (discover st v).index 0 ≠ -1 := by
      rw [discover_index_ne h]
      rcases hfirst with rfl | h0
      · exact Or.inl rfl
      · exact Or.inr h0
    refine ⟨h0, ?_⟩
    rcases (discover_index_ne h).mp hw with rfl | hw
    · rcases (discover_index_ne h).mp h0 with rfl | h0
      · exact le_refl _
      · exact le_of_lt (hlt h0)
    · have h0' := h.first w hw
      rw [discover_index hv h0'.1, discover_index hv hw]
      exact h0'.2
  · intro w hw
    rcases (discover_index_ne h).mp hw with rfl | hw'
    · rcases hfrom with hnil | ⟨u, rest, hp, hu⟩
      · refine Or.inl fun x y hx hxw hy => ?_
        have hx' : st.index x ≠ -1 := by
          rcases (discover_index_ne h).mp hx with rfl | hx
          · exact absurd hxw (lt_irrefl _)
          · exact hx
        have hy' := (h.sccId_range y (h.assigned_closed x y (h.assigned_of_path_nil hnil hx') hy).1).2.2
        exact ⟨(discover_index_ne h).mpr (Or.inr hy'), hlt hy'⟩
      · have hu' : st.index u ≠ -1 := h.path_index (by rw [hp]; exact mem_cons_self)
        exact Or.inr ⟨u, hu, (discover_index_ne h).mpr (Or.inr hu'), hlt hu'⟩
    · rcases h.origin w hw' with ho | ⟨u, hu⟩
      · refine Or.inl fun x y hx hxw hy => ?_
        have hx' : st.index x ≠ -1 := by
          rcases (discover_index_ne h).mp hx with rfl | hx
          · exact absurd hxw (not_lt.mpr (le_of_lt (hlt hw')))
          · exact hx
        rw [discover_index hv hx', discover_index hv hw'] at hxw
        obtain ⟨hy', hyw⟩ := ho x y hx' hxw hy
        rw [discover_index hv hy', discover_index hv hw']
        exact ⟨hy', hyw⟩
      · exact Or.inr ⟨u, hu.discovered h hv⟩

theorem Inv.discover_stacked (h : Inv next n st) (hv : st.index v = -1)
    (hfrom : path st = [] ∨ ∃ u rest, path st = u :: rest ∧ v ∈ next u) :
    Stacked next (discover st v) := by
  have hscc : st.sccId v = -1 := by
    by_contra hc
    exact (h.sccId_range v hc).2.2 hv
  have hlt := fun {w} hw => h.discover_index_lt (w := w) hv hw
  have hpath : path (discover st v) = v :: path st := rfl
  refine ⟨?_, ?_, ?_, ?_, ?_⟩
  · intro w
    rw [mem_discover_stack, discover_index_ne h, h.mem_stack]
    constructor
    · rintro (rfl | ⟨hw, hs⟩)
      · exact ⟨Or.inl rfl, hscc⟩
      · exact ⟨Or.inr hw, hs⟩
    · rintro ⟨rfl | hw, hs⟩
      · exact Or.inl rfl
      · exact Or.inr ⟨hw, hs⟩
  · refine pairwise_cons.mpr ⟨fun w hw => hlt (h.stack_index hw), ?_⟩
    refine h.stack_sorted.imp_of_mem fun {a b} ha hb hab => ?_
    rw [discover_index hv (h.stack_index ha), discover_index hv (h.stack_index hb)]
    exact hab
  · intro w
    rw [mem_discover_stack, ← h.onStack_iff]
    by_cases hw : w = v
    · simp [discover, hw]
    · simp [discover, hw]
  · intro u hu
    rcases mem_cons.mp hu with rfl | hu
    · exact mem_cons_self
    · exact mem_cons_of_mem _ (h.path_stack u hu)
  · rw [hpath]
    have hchain := h.path_chain.imp fun _ _ hab => Climb.discovered h hv hab
    rcases hfrom with hnil | ⟨u, rest, hp, hu⟩
    · rw [hnil]
      exact isChain_singleton _
    · have hu' : st.index u ≠ -1 := h.path_index (by rw [hp]; exact mem_cons_self)
      rw [hp] at hchain ⊢
      exact isChain_cons_cons.mpr
        ⟨⟨hu, (discover_index_ne h).mpr (Or.inr hu'), hlt hu'⟩, hchain⟩

theorem Inv.discover_finished (h : Inv next n st) (hv : st.index v = -1) :
    Finished next (discover st v) := by
  have hpath : path (discover st v) = v :: path st := rfl
  refine ⟨h.nextFinish_nonneg, h.finish_range, h.finish_inj, ?_, ?_⟩
  · intro w
    rw [hpath, mem_cons]
    by_cases hw : w = v
    · subst hw
      simp [discover, (h.unfinished w).mpr (Or.inl hv)]
    · have hu := h.unfinished w
      have hi : (discover st v).index w = st.index w := by simp [discover, hw]
      rw [hi]
      simp only [hw, false_or]
      exact hu
  · intro u w hu hw
    rcases h.finish_order u w hu hw with hlt | hc
    · exact Or.inl hlt
    · exact Or.inr (hc.discovered h hv)

theorem Inv.discover_linked (h : Inv next n st) (hv : st.index v = -1)
    (hfrom : path st = [] ∨ ∃ u rest, path st = u :: rest ∧ v ∈ next u) :
    Linked next (discover st v) := by
  have hreach : ∀ f ∈ path st, Reach next f v := by
    rcases hfrom with hnil | ⟨u, rest, hp, hu⟩
    · rw [hnil]
      intro f hf
      exact absurd hf not_mem_nil
    · intro f hf
      exact (h.path_reach_path hf (by rw [hp]; exact mem_cons_self) (h.le_top hp hf)).tail hu
  have hlt := fun {w} hw => h.discover_index_lt (w := w) hv hw
  refine ⟨?_, ?_, ?_, ?_, ?_, ?_⟩
  · intro w x hs
    exact (discover_index_ne h).mpr (Or.inr (h.scanned w x (scanned_discover hs)))
  · intro f hf w hw hle
    rcases mem_cons.mp hf with rfl | hf'
    · rcases mem_discover_stack.mp hw with rfl | hw
      · exact Relation.ReflTransGen.refl
      · exact absurd hle (not_le.mpr (hlt (h.stack_index hw)))
    · rcases mem_discover_stack.mp hw with rfl | hw
      · exact hreach f hf'
      · rw [discover_index hv (h.path_index hf'), discover_index hv (h.stack_index hw)] at hle
        exact h.path_reach f hf' w hw hle
  · intro w hw
    rcases mem_discover_stack.mp hw with rfl | hw
    · exact ⟨w, mem_cons_self, le_refl _, Relation.ReflTransGen.refl⟩
    · obtain ⟨f, hf, hle, hr⟩ := h.stack_reach w hw
      refine ⟨f, mem_cons_of_mem _ hf, ?_, hr⟩
      rw [discover_index hv (h.path_index hf), discover_index hv (h.stack_index hw)]
      exact hle
  · intro f hf
    rcases mem_cons.mp hf with rfl | hf'
    · simp [discover]
    · have hne : f ≠ v := by rintro rfl; exact h.path_index hf' hv
      simpa [discover, hne] using h.low_le f hf'
  · intro f hf
    rcases mem_cons.mp hf with rfl | hf'
    · exact ⟨f, mem_cons_self, by simp [discover], Relation.ReflTransGen.refl⟩
    · have hne : f ≠ v := by rintro rfl; exact h.path_index hf' hv
      obtain ⟨x, hx, hxl, hr⟩ := h.low_sound f hf'
      refine ⟨x, mem_cons_of_mem _ hx, ?_, hr⟩
      rw [discover_index hv (h.stack_index hx)]
      simpa [discover, hne] using hxl
  · intro f hf w hw hle hbelow x hx hs
    have hs' := scanned_discover hs
    have hx' := h.scanned w x hs'
    have hxs : x ∈ st.stack := by
      rcases mem_discover_stack.mp hx with rfl | hx
      · exact absurd hv hx'
      · exact hx
    have hwv : w ≠ v := by
      rintro rfl
      have hf' := h.unfinished w
      rcases hs' with ⟨hfin, -⟩ | ⟨k, hk, -⟩
      · exact hfin (hf'.mpr (Or.inl hv))
      · exact h.path_index (mem_path hk) hv
    have hws : w ∈ st.stack := (mem_discover_stack.mp hw).resolve_left hwv
    have hfv : f ≠ v := by
      rintro rfl
      exact absurd hle (not_le.mpr (hlt (h.stack_index hws)))
    have hfp : f ∈ path st := (mem_cons.mp hf).resolve_left hfv
    rw [discover_index hv hx']
    have hlow : (discover st v).lowlink f = st.lowlink f := by simp [discover, hfv]
    rw [hlow]
    rw [discover_index hv (h.path_index hfp), discover_index hv (h.stack_index hws)] at hle
    refine h.low_complete f hfp w hws hle ?_ x hxs hs'
    intro g hg hfg
    have := hbelow g (mem_cons_of_mem _ hg)
    rw [discover_index hv (h.path_index hfp), discover_index hv (h.path_index hg),
      discover_index hv (h.stack_index hws)] at this
    exact this hfg

theorem Inv.discovered (h : Inv next n st) (hv : st.index v = -1) (hvn : v < n)
    (hfirst : v = 0 ∨ st.index 0 ≠ -1)
    (hfrom : path st = [] ∨ ∃ u rest, path st = u :: rest ∧ v ∈ next u) :
    Inv next n (discover st v) := by
  refine
    { h.discover_numbered hv hvn hfirst hfrom, h.discover_stacked hv hfrom,
      h.discover_finished hv, h.discover_linked hv hfrom, h.toAssigned with sccId_range := ?_ }
  intro w hw
  obtain ⟨h0, h1, h2⟩ := h.sccId_range w hw
  exact ⟨h0, h1, (discover_index_ne h).mpr (Or.inr h2)⟩

end Discover

section Lower

variable {u : Nat}

variable {low : Int}

theorem lower_of_le (hle : st.lowlink u ≤ low) : lower st u low = st := by
  rw [lower, if_neg (not_lt.mpr hle)]

theorem lower_lowlink_self : (lower st u low).lowlink u = min (st.lowlink u) low := by
  unfold lower
  split
  · rename_i hlt
    simp [min_eq_right (le_of_lt hlt)]
  · rename_i hlt
    simp [min_eq_left (not_lt.mp hlt)]

theorem lower_frames : (lower st u low).frames = st.frames := by
  unfold lower
  split <;> rfl

theorem lower_index : (lower st u low).index = st.index := by
  unfold lower
  split <;> rfl

theorem lower_lowlink_of_ne {w : Nat} (hw : w ≠ u) : (lower st u low).lowlink w = st.lowlink w := by
  unfold lower
  split
  · simp [hw]
  · rfl

theorem Inv.lowered (h : Inv next n st) {x : Nat} (hx : x ∈ st.stack) (hr : Reach next u x) :
    Inv next n (lower st u (st.index x)) := by
  by_cases hlt : st.index x < st.lowlink u
  swap
  · rw [lower_of_le (not_lt.mp hlt)]
    exact h
  have hle : ∀ f, (lower st u (st.index x)).lowlink f ≤ st.lowlink f := by
    intro f
    by_cases hf : f = u
    · subst hf
      rw [lower_lowlink_self]
      exact min_le_left _ _
    · rw [lower_lowlink_of_ne hf]
  have hself : (lower st u (st.index x)).lowlink u = st.index x := by
    rw [lower_lowlink_self, min_eq_right (le_of_lt hlt)]
  have hlow_sound : ∀ f ∈ path st, ∃ y ∈ st.stack,
      st.index y = (lower st u (st.index x)).lowlink f ∧ Reach next f y := by
    intro f hf
    by_cases hfu : f = u
    · subst hfu
      exact ⟨x, hx, hself.symm, hr⟩
    · rw [lower_lowlink_of_ne hfu]
      exact h.low_sound f hf
  have hlow_le := fun f hf => le_trans (hle f) (h.low_le f hf)
  have hlow_complete : ∀ f ∈ path st, ∀ w ∈ st.stack, st.index f ≤ st.index w →
      (∀ g ∈ path st, st.index f < st.index g → st.index w < st.index g) →
      ∀ x' ∈ st.stack, Scanned next st w x' →
        (lower st u (st.index x)).lowlink f ≤ st.index x' :=
    fun f hf w hw hfw hbelow y hy hs => le_trans (hle f) (h.low_complete f hf w hw hfw hbelow y hy hs)
  rw [lower, if_pos hlt] at hlow_sound hlow_le hlow_complete ⊢
  exact { h with low_le := hlow_le, low_sound := hlow_sound, low_complete := hlow_complete }

end Lower

section Advance

variable {u k v : Nat} {pre post : List (Nat × Nat)}

theorem scanned_advance (hf : st.frames = pre ++ (u, k) :: post) (hv : (next u)[k]? = some v)
    {w x : Nat} (hs : Scanned next { st with frames := pre ++ (u, k + 1) :: post } w x) :
    Scanned next st w x ∨ (w = u ∧ x = v) := by
  rcases hs with hs | ⟨j, hj, hx⟩
  · exact Or.inl (Or.inl hs)
  · rcases mem_append.mp hj with hj | hj
    · exact Or.inl (Or.inr ⟨j, hf ▸ mem_append_left _ hj, hx⟩)
    · rcases mem_cons.mp hj with heq | hj
      · obtain ⟨rfl, rfl⟩ := Prod.mk.inj heq
        rw [take_add_one, hv, Option.toList_some, mem_append, mem_singleton] at hx
        rcases hx with hx | hx
        · exact Or.inl (Or.inr ⟨k, by rw [hf]; simp, hx⟩)
        · exact Or.inr ⟨rfl, hx⟩
      · exact Or.inl (Or.inr ⟨j, hf ▸ mem_append_right _ (mem_cons_of_mem _ hj), hx⟩)

theorem Inv.advanced (h : Inv next n st) (hf : st.frames = pre ++ (u, k) :: post)
    (hv : (next u)[k]? = some v) (hdisc : st.index v ≠ -1)
    (hlow : v ∈ st.stack → st.lowlink u ≤ st.index v) :
    Inv next n { st with frames := pre ++ (u, k + 1) :: post } := by
  have hpath : path { st with frames := pre ++ (u, k + 1) :: post } = path st := by
    simp [path, hf]
  have hu : u ∈ path st := by simp [path, hf]
  refine
    { h with
      path_stack := hpath ▸ h.path_stack
      path_chain := hpath ▸ h.path_chain
      unfinished := hpath ▸ h.unfinished, scanned := ?_, path_reach := hpath ▸ h.path_reach
      stack_reach := hpath ▸ h.stack_reach, low_le := hpath ▸ h.low_le
      low_sound := hpath ▸ h.low_sound, low_complete := ?_ }
  · intro w x hs
    rcases scanned_advance hf hv hs with hs | ⟨-, rfl⟩
    · exact h.scanned w x hs
    · exact hdisc
  · rw [hpath]
    intro f hfp w hw hle hbelow x hx hs
    rcases scanned_advance hf hv hs with hs | ⟨rfl, rfl⟩
    · exact h.low_complete f hfp w hw hle hbelow x hx hs
    · -- `w` is itself a frame, so it is the frame whose segment it lies in
      have hfw : f = w := by
        apply h.index_inj f w (h.path_index hfp)
        by_contra hne
        exact lt_irrefl _ (hbelow w hu (lt_of_le_of_ne hle hne))
      rw [hfw]
      exact hlow hx

end Advance

section Retire

variable {u k : Nat} {post : List (Nat × Nat)}

variable {x : Nat}

theorem scanned_retire (hf : st.frames = (u, k) :: post) (hk : (next u).length ≤ k)
    {w : Nat} (hs : Scanned next (retire st u) w x) : Scanned next st w x := by
  rcases hs with ⟨hfin, hx⟩ | ⟨j, hj, hx⟩
  · by_cases hw : w = u
    · subst hw
      refine Or.inr ⟨k, by rw [hf]; exact mem_cons_self, ?_⟩
      rw [take_of_length_le hk]
      exact hx
    · refine Or.inl ⟨?_, hx⟩
      simpa [retire, hw] using hfin
  · refine Or.inr ⟨j, ?_, hx⟩
    have hj' : (w, j) ∈ st.frames.tail := hj
    exact mem_of_mem_tail hj'

theorem Inv.scanned_top (hf : st.frames = (u, k) :: post) (hk : (next u).length ≤ k)
    (hx : x ∈ next u) : Scanned next st u x :=
  Or.inr ⟨k, by rw [hf]; exact mem_cons_self, by rw [take_of_length_le hk]; exact hx⟩

theorem retire_finish (hw : w ≠ u) : (retire st u).finish w = st.finish w := by simp [retire, hw]

theorem retire_finish_self : (retire st u).finish u = st.nextFinish := by simp [retire]

theorem Inv.top_not_mem (h : Inv next n st) {rest : List Nat} (hp : path st = u :: rest) :
    u ∉ rest := by
  intro hu
  have hs := h.path_sorted
  rw [hp] at hs
  exact lt_irrefl _ (rel_of_pairwise_cons hs hu)

theorem Inv.climbs_path (h : Inv next n st) {f g : Nat} (hf : f ∈ path st) (hg : g ∈ path st)
    (hle : st.index f ≤ st.index g) : Climbs next st.index f g := by
  have : IsTrans Nat (fun a b => Climbs next st.index b a) := ⟨fun a b c hab hbc => hbc.trans hab⟩
  have hchain : (path st).IsChain (fun a b => Climbs next st.index b a) :=
    h.path_chain.imp fun _ _ hab => Relation.ReflTransGen.single hab
  have hpair : (path st).Pairwise (fun a b => Climbs next st.index a b ∨ Climbs next st.index b a) :=
    (isChain_iff_pairwise.mp hchain).imp fun hab => Or.inr hab
  have : Std.Symm (fun a b => Climbs next st.index a b ∨ Climbs next st.index b a) :=
    ⟨fun _ _ => Or.symm⟩
  by_cases hfg : f = g
  · rw [hfg]
    exact Relation.ReflTransGen.refl
  rcases hpair.forall hf hg hfg with hc | hc
  · exact hc
  · exact absurd (h.index_inj f g (h.path_index hf) (le_antisymm hle hc.index_le)) hfg

theorem Inv.retire_finished (h : Inv next n st) (hf : st.frames = (u, k) :: post)
    (hk : (next u).length ≤ k) : Finished next (retire st u) := by
  have hp : path st = u :: path (retire st u) := by simp [path, retire, hf]
  have hn := h.nextFinish_nonneg
  have hu : u ∈ path st := by rw [hp]; exact mem_cons_self
  have hne : ∀ {w}, (retire st u).finish w ≠ -1 → w ≠ u → st.finish w ≠ -1 := by
    intro w hw hwu
    rwa [retire_finish hwu] at hw
  have hlt : ∀ {w}, st.finish w ≠ -1 → (retire st u).finish w < (retire st u).finish u := by
    intro w hw
    have hwu : w ≠ u := by
      rintro rfl
      exact hw ((h.unfinished w).mpr (Or.inr hu))
    rw [retire_finish hwu, retire_finish_self]
    exact (h.finish_range w hw).2
  refine ⟨Int.le_add_one hn, ?_, ?_, ?_, ?_⟩
  · intro w hw
    by_cases hwu : w = u
    · rw [hwu, retire_finish_self]
      exact ⟨hn, Int.lt_succ _⟩
    · obtain ⟨h0, h1⟩ := h.finish_range w (hne hw hwu)
      rw [retire_finish hwu]
      exact ⟨h0, Int.lt_add_one_of_le (le_of_lt h1)⟩
  · intro a b ha hab
    have hb : (retire st u).finish b ≠ -1 := hab ▸ ha
    by_cases hau : a = u
    · by_cases hbu : b = u
      · rw [hau, hbu]
      · rw [hau] at hab
        exact absurd hab (ne_of_gt (hlt (hne hb hbu)))
    · by_cases hbu : b = u
      · rw [hbu] at hab
        exact absurd hab (ne_of_lt (hlt (hne ha hau)))
      · rw [retire_finish hau, retire_finish hbu] at hab
        exact h.finish_inj a b (hne ha hau) hab
  · intro w
    by_cases hwu : w = u
    · subst hwu
      rw [retire_finish_self]
      have h1 := h.path_index hu
      have h2 := h.top_not_mem hp
      constructor
      · omega
      · rintro (hc | hc)
        · exact absurd hc h1
        · exact absurd hc h2
    · rw [retire_finish hwu, h.unfinished, hp, mem_cons]
      simp only [hwu, false_or]
      rfl
  · intro a b ha hb
    by_cases hau : a = u
    · subst hau
      have hdisc := h.scanned a b (scanned_top hf hk hb)
      by_cases hfin : st.finish b = -1
      · have hbp := ((h.unfinished b).mp hfin).resolve_left hdisc
        exact Or.inr (h.climbs_path hbp hu (h.le_top hp hbp))
      · refine Or.inl ⟨?_, hlt hfin⟩
        have hba : b ≠ a := by
          rintro rfl
          exact hfin ((h.unfinished b).mpr (Or.inr hu))
        rwa [retire_finish hba]
    · rcases h.finish_order a b (hne ha hau) hb with ⟨hfin, hlt⟩ | hc
      · have hbu : b ≠ u := by
          rintro rfl
          exact hfin ((h.unfinished b).mpr (Or.inr hu))
        rw [retire_finish hbu, retire_finish hau]
        exact Or.inl ⟨hfin, hlt⟩
      · exact Or.inr hc

theorem Inv.retired (h : Inv next n st) (hf : st.frames = (u, k) :: post)
    (hk : (next u).length ≤ k) (hlow : st.lowlink u < st.index u)
    (hparent : ∀ p j, st.frames.tail.head? = some (p, j) → st.lowlink p ≤ st.lowlink u) :
    Inv next n (retire st u) := by
  have hp : path st = u :: path (retire st u) := by simp [path, retire, hf]
  have hu : u ∈ path st := by rw [hp]; exact mem_cons_self
  have hsub : ∀ {f}, f ∈ path (retire st u) → f ∈ path st := by
    intro f hf'
    rw [hp]
    exact mem_cons_of_mem _ hf'
  -- a lower frame that `u` reaches, by its lowlink
  obtain ⟨x, hx, hxl, hux⟩ := h.low_sound u hu
  obtain ⟨g, hg, hgx, hxg⟩ := h.stack_reach x hx
  have hgu : st.index g < st.index u := by omega
  have hgp : g ∈ path (retire st u) := by
    rw [hp] at hg
    rcases mem_cons.mp hg with rfl | hg
    · exact absurd hgu (lt_irrefl _)
    · exact hg
  refine
    { h.retire_finished hf hk, h with
      path_stack := fun f hf' => h.path_stack f (hsub hf'), path_chain := ?_
      scanned := fun w y hs => h.scanned w y (scanned_retire hf hk hs)
      path_reach := fun f hf' => h.path_reach f (hsub hf'), stack_reach := ?_
      low_le := fun f hf' => h.low_le f (hsub hf')
      low_sound := fun f hf' => h.low_sound f (hsub hf'), low_complete := ?_ }
  · have hc := h.path_chain
    rw [hp] at hc
    exact hc.tail
  · intro w hw
    obtain ⟨f, hf', hfw, hwf⟩ := h.stack_reach w hw
    rw [hp] at hf'
    rcases mem_cons.mp hf' with rfl | hf'
    · exact ⟨g, hgp, le_trans (le_of_lt hgu) hfw, hwf.trans (hux.trans hxg)⟩
    · exact ⟨f, hf', hfw, hwf⟩
  · intro f hf' w hw hfw hbelow y hy hs
    have hs := scanned_retire hf hk hs
    by_cases hwu : st.index w < st.index u
    · refine h.low_complete f (hsub hf') w hw hfw ?_ y hy hs
      intro e he hfe
      rw [hp] at he
      rcases mem_cons.mp he with rfl | he
      · exact hwu
      · exact hbelow e he hfe
    · -- `w` was in the segment of `u`, which now belongs to the parent
      have hyu : st.lowlink u ≤ st.index y := by
        refine h.low_complete u hu w hw (not_lt.mp hwu) ?_ y hy hs
        intro e he hue
        exact absurd hue (not_lt.mpr (h.le_top hp he))
      obtain ⟨⟨q, j⟩, tail, htail⟩ : ∃ fr tail, st.frames.tail = fr :: tail := by
        cases htail : st.frames.tail with
        | nil =>
          have hnil : path (retire st u) = [] := by simp [path, retire, htail]
          rw [hnil] at hf'
          exact absurd hf' not_mem_nil
        | cons fr tail => exact ⟨fr, tail, rfl⟩
      have hrest : path (retire st u) = q :: tail.map Prod.fst := by
        simp [path, retire, htail]
      have hq : q ∈ path (retire st u) := by rw [hrest]; exact mem_cons_self
      have hqu : st.index q < st.index u := by
        have hs := h.path_sorted
        rw [hp] at hs
        exact rel_of_pairwise_cons hs hq
      have hfq : f = q := by
        by_contra hne
        have hlt : st.index f < st.index q := by
          have hs := h.path_sorted
          rw [hp, hrest] at hs
          rw [hrest] at hf'
          exact rel_of_pairwise_cons hs.of_cons ((mem_cons.mp hf').resolve_left hne)
        exact hwu (lt_trans (hbelow q hq hlt) hqu)
      have hql := hparent q j (by rw [htail]; rfl)
      rw [hfq]
      exact le_trans hql hyu

end Retire

section Pop

variable {u k : Nat} {post : List (Nat × Nat)}

variable {l : List Nat} {w : Nat}

theorem popUntil_append : (popUntil u l).1 ++ (popUntil u l).2 = l := by
  induction l with
  | nil => rfl
  | cons w rest ih =>
    unfold popUntil
    split
    · rfl
    · rw [cons_append, ih]

theorem popUntil_last (hu : u ∈ l) : ∃ pre, (popUntil u l).1 = pre ++ [u] := by
  induction l with
  | nil => exact absurd hu not_mem_nil
  | cons w rest ih =>
    unfold popUntil
    split
    · rename_i hw
      exact ⟨[], by rw [hw]; rfl⟩
    · rename_i hw
      obtain ⟨pre, hpre⟩ := ih ((mem_cons.mp hu).resolve_left (Ne.symm hw))
      exact ⟨w :: pre, by rw [hpre]; rfl⟩

theorem mem_popUntil {index : Nat → Int} (hu : u ∈ l)
    (hs : l.Pairwise (fun a b => index b < index a)) (w : Nat) :
    (w ∈ (popUntil u l).1 ↔ w ∈ l ∧ index u ≤ index w) ∧
      (w ∈ (popUntil u l).2 ↔ w ∈ l ∧ index w < index u) := by
  obtain ⟨pre, hpre⟩ := popUntil_last hu
  have happ := @popUntil_append u l
  have hs' := hs
  rw [← happ, hpre] at hs'
  have hsplit := pairwise_append.mp hs'
  have hsplit' := pairwise_append.mp hsplit.1
  have hlow : ∀ y ∈ (popUntil u l).2, index y < index u := fun y hy =>
    hsplit.2.2 u (by simp) y hy
  have hhigh : ∀ y ∈ (popUntil u l).1, index u ≤ index y := by
    intro y hy
    rw [hpre] at hy
    rcases mem_append.mp hy with hy | hy
    · exact le_of_lt (hsplit'.2.2 y hy u (by simp))
    · rw [mem_singleton.mp hy]
  have hmem : w ∈ l ↔ w ∈ (popUntil u l).1 ∨ w ∈ (popUntil u l).2 := by
    rw [← mem_append, happ]
  constructor
  · constructor
    · intro hw
      exact ⟨hmem.mpr (Or.inl hw), hhigh w hw⟩
    · rintro ⟨hw, hle⟩
      rcases hmem.mp hw with hw | hw
      · exact hw
      · exact absurd (hlow w hw) (not_lt.mpr hle)
  · constructor
    · intro hw
      exact ⟨hmem.mpr (Or.inr hw), hlow w hw⟩
    · rintro ⟨hw, hlt⟩
      rcases hmem.mp hw with hw | hw
      · exact absurd hlt (not_lt.mpr (hhigh w hw))
      · exact hw

theorem popComponent_sccId : (popComponent st u).sccId w =
    if w ∈ (popUntil u st.stack).1 then (st.components.length : Int) else st.sccId w := rfl

theorem Inv.not_mem_popped (h : Inv next n st) (hw : st.sccId w ≠ -1) :
    w ∉ (popUntil u st.stack).1 := by
  intro hmem
  have : w ∈ st.stack := by
    rw [← @popUntil_append u st.stack]
    exact mem_append_left _ hmem
  exact hw ((h.mem_stack w).mp this).2

theorem Inv.popComponent_sccId_old (h : Inv next n st) (hw : st.sccId w ≠ -1) :
    (popComponent st u).sccId w = st.sccId w := by
  rw [popComponent_sccId, if_neg (h.not_mem_popped hw)]

theorem Inv.pop_stacked (h : Inv next n st) (hf : st.frames = (u, k) :: post) :
    Stacked next (retire (popComponent st u) u) := by
  have hp : path st = u :: path (retire st u) := by simp [path, retire, hf]
  have hu : u ∈ st.stack := h.path_stack u (by rw [hp]; exact mem_cons_self)
  have hpop := mem_popUntil hu h.stack_sorted
  refine ⟨?_, ?_, ?_, ?_, ?_⟩
  · intro w
    change w ∈ (popUntil u st.stack).2 ↔ st.index w ≠ -1 ∧ (popComponent st u).sccId w = -1
    rw [(hpop w).2, popComponent_sccId]
    constructor
    · rintro ⟨hw, hlt⟩
      have hnot : w ∉ (popUntil u st.stack).1 := fun hc =>
        not_le.mpr hlt ((hpop w).1.mp hc).2
      rw [if_neg hnot]
      exact (h.mem_stack w).mp hw
    · rintro ⟨hw, hs⟩
      split at hs
      · omega
      · rename_i hnot
        have hmem := (h.mem_stack w).mpr ⟨hw, hs⟩
        exact ⟨hmem, not_le.mp fun hle => hnot ((hpop w).1.mpr ⟨hmem, hle⟩)⟩
  · have hs := h.stack_sorted
    rw [← @popUntil_append u st.stack] at hs
    exact (pairwise_append.mp hs).2.1
  · intro w
    change (if w ∈ (popUntil u st.stack).1 then false else st.onStack w) = true ↔
      w ∈ (popUntil u st.stack).2
    rw [(hpop w).2]
    split
    · rename_i hmem
      have := ((hpop w).1.mp hmem).2
      simp only [Bool.false_eq_true, false_iff, not_and, not_lt]
      exact fun _ => this
    · rename_i hnot
      rw [h.onStack_iff]
      constructor
      · intro hw
        exact ⟨hw, not_le.mp fun hle => hnot ((hpop w).1.mpr ⟨hw, hle⟩)⟩
      · exact fun hw => hw.1
  · intro f hf'
    have hs := h.path_sorted
    rw [hp] at hs
    exact (hpop f).2.mpr
      ⟨h.path_stack f (by rw [hp]; exact mem_cons_of_mem _ hf'), rel_of_pairwise_cons hs hf'⟩
  · have hc := h.path_chain
    rw [hp] at hc
    exact hc.tail

theorem Inv.pop_linked (h : Inv next n st) (hf : st.frames = (u, k) :: post)
    (hk : (next u).length ≤ k) : Linked next (retire (popComponent st u) u) := by
  have hp : path st = u :: path (retire st u) := by simp [path, retire, hf]
  have hu : u ∈ st.stack := h.path_stack u (by rw [hp]; exact mem_cons_self)
  have hpop : ∀ w, w ∈ (retire (popComponent st u) u).stack ↔
      w ∈ st.stack ∧ st.index w < st.index u := fun w => (mem_popUntil hu h.stack_sorted w).2
  have hsub : ∀ {f}, f ∈ path (retire st u) → f ∈ path st ∧ st.index f < st.index u := by
    intro f hf'
    have hs := h.path_sorted
    rw [hp] at hs ⊢
    exact ⟨mem_cons_of_mem _ hf', rel_of_pairwise_cons hs hf'⟩
  refine ⟨fun w x hs => h.scanned w x (scanned_retire hf hk hs), ?_, ?_,
    fun f hf' => h.low_le f (hsub hf').1, ?_, ?_⟩
  · intro f hf' w hw
    exact h.path_reach f (hsub hf').1 w ((hpop w).mp hw).1
  · intro w hw
    obtain ⟨hw, hwu⟩ := (hpop w).mp hw
    obtain ⟨f, hf', hfw, hr⟩ := h.stack_reach w hw
    rw [hp] at hf'
    rcases mem_cons.mp hf' with rfl | hf'
    · exact absurd hwu (not_lt.mpr hfw)
    · exact ⟨f, hf', hfw, hr⟩
  · intro f hf'
    obtain ⟨hfp, hfu⟩ := hsub hf'
    obtain ⟨x, hx, hxl, hr⟩ := h.low_sound f hfp
    have hle := h.low_le f hfp
    exact ⟨x, (hpop x).mpr ⟨hx, by omega⟩, hxl, hr⟩
  · intro f hf' w hw hfw hbelow x hx hs
    obtain ⟨hw, hwu⟩ := (hpop w).mp hw
    refine h.low_complete f (hsub hf').1 w hw hfw ?_ x ((hpop x).mp hx).1 (scanned_retire hf hk hs)
    intro g hg hfg
    rw [hp] at hg
    rcases mem_cons.mp hg with rfl | hg
    · exact hwu
    · exact hbelow g hg hfg

theorem Inv.scanned_popped (h : Inv next n st) (hf : st.frames = (u, k) :: post)
    (hk : (next u).length ≤ k) {x : Nat} (hw : w ∈ st.stack) (hle : st.index u ≤ st.index w)
    (hx : x ∈ next w) : Scanned next st w x := by
  have hp : path st = u :: path (retire st u) := by simp [path, retire, hf]
  by_cases hwu : w = u
  · subst hwu
    exact scanned_top hf hk hx
  · refine Or.inl ⟨fun hfin => ?_, hx⟩
    have hwp := ((h.unfinished w).mp hfin).resolve_left (h.stack_index hw)
    have hle' := h.le_top hp hwp
    exact hwu (h.index_inj w u (h.stack_index hw) (le_antisymm hle' hle))

theorem Inv.pop_assigned (h : Inv next n st) (hf : st.frames = (u, k) :: post)
    (hk : (next u).length ≤ k) (hlow : st.lowlink u = st.index u) :
    Assigned next (retire (popComponent st u) u) := by
  have hp : path st = u :: path (retire st u) := by simp [path, retire, hf]
  have hup : u ∈ path st := by rw [hp]; exact mem_cons_self
  have hu : u ∈ st.stack := h.path_stack u hup
  have hpop := fun w => (mem_popUntil hu h.stack_sorted w).1
  have hnew : ∀ {w}, w ∈ (popUntil u st.stack).1 →
      (popComponent st u).sccId w = (st.components.length : Int) := fun hw => by
    rw [popComponent_sccId, if_pos hw]
  have hcases : ∀ {w}, (popComponent st u).sccId w ≠ -1 →
      w ∈ (popUntil u st.stack).1 ∨ st.sccId w ≠ -1 := by
    intro w hw
    by_cases hmem : w ∈ (popUntil u st.stack).1
    · exact Or.inl hmem
    · rw [popComponent_sccId, if_neg hmem] at hw
      exact Or.inr hw
  refine ⟨?_, ?_, ?_, ?_⟩
  · intro w hw
    change 0 ≤ (popComponent st u).sccId w ∧
      (popComponent st u).sccId w < (st.components ++ [(popUntil u st.stack).1]).length ∧ _
    rcases hcases hw with hmem | hold
    · rw [hnew hmem]
      have := h.stack_index ((hpop w).mp hmem).1
      exact ⟨by omega, by simp, this⟩
    · rw [h.popComponent_sccId_old hold]
      obtain ⟨h0, h1, h2⟩ := h.sccId_range w hold
      exact ⟨h0, by rw [length_append]; push_cast; omega, h2⟩
  · intro s c hc
    change (st.components ++ [(popUntil u st.stack).1])[s]? = some c at hc
    change c ≠ [] ∧ c.Nodup ∧ ∀ w, w ∈ c ↔ (popComponent st u).sccId w = s
    rcases lt_trichotomy s st.components.length with hlt | heq | hgt
    · rw [List.getElem?_append_left hlt] at hc
      obtain ⟨h0, h1, h2⟩ := h.component s c hc
      refine ⟨h0, h1, fun w => ?_⟩
      rw [h2 w]
      constructor
      · intro hw
        rw [h.popComponent_sccId_old (by omega), hw]
      · intro hw
        rcases hcases (w := w) (by omega) with hmem | hold
        · rw [hnew hmem] at hw
          omega
        · rwa [h.popComponent_sccId_old hold] at hw
    · subst heq
      obtain rfl : (popUntil u st.stack).1 = c := by simpa using hc
      obtain ⟨pre, hpre⟩ := popUntil_last hu
      refine ⟨by rw [hpre]; simp, ?_, fun w => ?_⟩
      · have hs := h.stack_sorted
        rw [← @popUntil_append u st.stack] at hs
        exact (pairwise_append.mp hs).1.imp fun hab heq => by
          rw [heq] at hab
          exact lt_irrefl _ hab
      · constructor
        · exact fun hw => hnew hw
        · intro hw
          rcases hcases (w := w) (by omega) with hmem | hold
          · exact hmem
          · rw [h.popComponent_sccId_old hold] at hw
            have := (h.sccId_range w hold).2.1
            omega
    · rw [List.getElem?_eq_none (by simp; omega)] at hc
      exact absurd hc (by simp)
  · intro w x hw hx
    change (popComponent st u).sccId x ≠ -1 ∧
      (popComponent st u).sccId x ≤ (popComponent st u).sccId w
    rcases hcases hw with hmem | hold
    · obtain ⟨hws, hle⟩ := (hpop w).mp hmem
      have hsc := h.scanned_popped hf hk hws hle hx
      rw [hnew hmem]
      by_cases hxs : st.sccId x = -1
      · -- `x` is still on the stack; the lowlink of `u` says it is popped too
        have hxstack := (h.mem_stack x).mpr ⟨h.scanned w x hsc, hxs⟩
        have hux : st.index u ≤ st.index x := by
          rw [← hlow]
          refine h.low_complete u hup w hws hle ?_ x hxstack hsc
          intro g hg hug
          exact absurd hug (not_lt.mpr (h.le_top hp hg))
        rw [hnew ((hpop x).mpr ⟨hxstack, hux⟩)]
        omega
      · have := h.sccId_range x hxs
        rw [h.popComponent_sccId_old hxs]
        omega
    · obtain ⟨hxs, hle⟩ := h.assigned_closed w x hold hx
      rw [h.popComponent_sccId_old hxs, h.popComponent_sccId_old hold]
      exact ⟨hxs, hle⟩
  · intro v w hv hvw
    change (popComponent st u).sccId v = (popComponent st u).sccId w at hvw
    have hw : (popComponent st u).sccId w ≠ -1 := hvw ▸ hv
    rcases hcases hv with hvm | hvo
    · rcases hcases hw with hwm | hwo
      · obtain ⟨hvs, hvu⟩ := (hpop v).mp hvm
        obtain ⟨hws, hwu⟩ := (hpop w).mp hwm
        obtain ⟨f, hf', -, hvf⟩ := h.stack_reach v hvs
        have hfu := h.path_reach_path hf' hup (h.le_top hp hf')
        have huw := h.path_reach u hup w hws hwu
        exact (hvf.trans hfu).trans huw
      · rw [hnew hvm, h.popComponent_sccId_old hwo] at hvw
        have := (h.sccId_range w hwo).2.1
        omega
    · rcases hcases hw with hwm | hwo
      · rw [hnew hwm, h.popComponent_sccId_old hvo] at hvw
        have := (h.sccId_range v hvo).2.1
        omega
      · rw [h.popComponent_sccId_old hvo, h.popComponent_sccId_old hwo] at hvw
        exact h.component_reach v w hvo hvw

theorem Inv.popped (h : Inv next n st) (hf : st.frames = (u, k) :: post)
    (hk : (next u).length ≤ k) (hlow : st.lowlink u = st.index u) :
    Inv next n (retire (popComponent st u) u) :=
  { h.retire_finished hf hk, h.pop_stacked hf, h.pop_linked hf hk, h.pop_assigned hf hk hlow,
    h.toNumbered with }

end Pop

end Quadrants.Library.Tarjan
