import Quadrants.Library.TarjanInvariant
import Mathlib.Algebra.BigOperators.Group.Finset.Basic
import Mathlib.Algebra.Order.BigOperators.Group.Finset

/-!
What Tarjan's algorithm returns: every node has a component, components are
strongly connected and ordered against the edges, and an edge against the
post-order closes a cycle with a climbing path.
-/

namespace Quadrants.Library.Tarjan

open List

variable {next : Nat → List Nat} {n : Nat} {st : State}

section Step

variable {u k : Nat} {rest : List (Nat × Nat)}

theorem Inv.step_discover (h : Inv next n st) (hf : st.frames = (u, k) :: rest) {v : Nat}
    (hv : (next u)[k]? = some v) (hvn : v < n) (hdisc : st.index v = -1) :
    Inv next n (discover { st with frames := (u, k + 1) :: rest } v) := by
  have hu : u ∈ path st := mem_path (k := k) (by rw [hf]; exact mem_cons_self)
  have hmem : v ∈ next u := mem_of_getElem? hv
  have hp : path st = u :: rest.map Prod.fst := by simp [path, hf]
  have hd := h.discovered hdisc hvn (Or.inr (h.first u (h.path_index hu)).1)
    (Or.inr ⟨u, _, hp, hmem⟩)
  have hne : u ≠ v := by
    rintro rfl
    exact h.path_index hu hdisc
  have hlow : (discover st v).lowlink u ≤ (discover st v).index v := by
    have h1 := h.low_le u hu
    have h2 := (h.index_range u (h.path_index hu)).2.1
    have h3 : (discover st v).lowlink u = st.lowlink u := by simp [discover, hne]
    rw [discover_index_self]
    omega
  have hframes : (discover st v).frames = [(v, 0)] ++ (u, k) :: rest := by simp [discover, hf]
  exact hd.advanced hframes hv ((discover_index_ne h).mpr (Or.inl rfl)) (fun _ => hlow)

theorem Inv.step_lower (h : Inv next n st) (hf : st.frames = (u, k) :: rest) {v : Nat}
    (hv : (next u)[k]? = some v) (hdisc : st.index v ≠ -1) (hon : v ∈ st.stack) :
    Inv next n (lower { st with frames := (u, k + 1) :: rest } u (st.index v)) := by
  have hmem : v ∈ next u := mem_of_getElem? hv
  have hl := h.lowered hon (Relation.ReflTransGen.single hmem)
  have heq : lower { st with frames := (u, k + 1) :: rest } u (st.index v) =
      { lower st u (st.index v) with frames := [] ++ (u, k + 1) :: rest } := by
    unfold lower
    split <;> rfl
  rw [heq]
  refine hl.advanced (by rw [lower_frames, hf]; rfl) hv (by rw [lower_index]; exact hdisc) ?_
  intro _
  rw [lower_lowlink_self, lower_index]
  exact min_le_right _ _

theorem Inv.leave_pop (h : Inv next n st) (hf : st.frames = (u, k) :: rest)
    (hk : (next u).length ≤ k) (hlow : st.lowlink u = st.index u) :
    Inv next n (leave (popComponent st u) u) := by
  have hpop := h.popped hf hk hlow
  unfold leave
  have htail : (popComponent st u).frames.tail = rest := by
    change st.frames.tail = rest
    rw [hf]
    rfl
  rw [htail]
  cases rest with
  | nil => exact hpop
  | cons fr rest =>
    have hs := h.path_sorted
    have hp : path st = u :: fr.1 :: rest.map Prod.fst := by simp [path, hf]
    have hpar : st.lowlink fr.1 ≤ st.index fr.1 := h.low_le fr.1 (by rw [hp]; simp)
    rw [hp] at hs
    have hlt : st.index fr.1 < st.index u := rel_of_pairwise_cons hs (by simp)
    change Inv next n (lower (retire (popComponent st u) u) fr.1 (st.lowlink u))
    rw [lower_of_le]
    · exact hpop
    · change st.lowlink fr.1 ≤ st.lowlink u
      omega

theorem Inv.leave_retire (h : Inv next n st) (hf : st.frames = (u, k) :: rest)
    (hk : (next u).length ≤ k) (hlow : st.lowlink u ≠ st.index u) : Inv next n (leave st u) := by
  have hu : u ∈ path st := mem_path (k := k) (by rw [hf]; exact mem_cons_self)
  have hlt : st.lowlink u < st.index u := lt_of_le_of_ne (h.low_le u hu) hlow
  have htail : st.frames.tail = rest := by rw [hf]; rfl
  unfold leave
  rw [htail]
  cases rest with
  | nil => exact h.retired hf hk hlt (by rw [htail]; simp)
  | cons fr rest =>
    have hp : path st = u :: fr.1 :: rest.map Prod.fst := by simp [path, hf]
    have hs := h.path_sorted
    rw [hp] at hs
    have hpu : st.index fr.1 < st.index u := rel_of_pairwise_cons hs (by simp)
    have hne : u ≠ fr.1 := by
      intro heq
      rw [← heq] at hpu
      exact lt_irrefl _ hpu
    obtain ⟨x, hx, hxl, hux⟩ := h.low_sound u hu
    have hpr : Reach next fr.1 u :=
      h.path_reach_path (by rw [hp]; simp) hu (le_of_lt hpu)
    have hl := h.lowered hx (hpr.trans hux)
    have heq : lower (retire st u) fr.1 (st.lowlink u) =
        retire (lower st fr.1 (st.lowlink u)) u := by
      unfold lower retire
      split <;> rfl
    change Inv next n (lower (retire st u) fr.1 (st.lowlink u))
    rw [heq]
    rw [hxl] at hl
    refine hl.retired (by rw [lower_frames, hf]) hk ?_ ?_
    · rw [lower_lowlink_of_ne hne, lower_index]
      exact hlt
    · intro p j hpj
      rw [lower_frames, htail] at hpj
      obtain rfl : fr = (p, j) := by simpa using hpj
      rw [lower_lowlink_self, lower_lowlink_of_ne hne]
      exact min_le_right _ _

theorem Inv.stepped (h : Inv next n st) (hclosed : ∀ u, ∀ v ∈ next u, v < n) :
    Inv next n (step next st) := by
  unfold step
  cases hf : st.frames with
  | nil => exact h
  | cons fr rest =>
    obtain ⟨u, k⟩ := fr
    dsimp only
    cases hv : (next u)[k]? with
    | some v =>
      dsimp only
      have hvn := hclosed u v (mem_of_getElem? hv)
      by_cases hdisc : st.index v = -1
      · rw [if_pos hdisc]
        exact h.step_discover hf hv hvn hdisc
      · rw [if_neg hdisc]
        by_cases hon : st.onStack v = true
        · rw [if_pos hon]
          exact h.step_lower hf hv hdisc ((h.onStack_iff v).mp hon)
        · rw [if_neg hon]
          refine @Inv.advanced next n st u k v [] rest h hf hv hdisc fun hmem => ?_
          exact absurd ((h.onStack_iff v).mpr hmem) hon
    | none =>
      have hk : (next u).length ≤ k := List.getElem?_eq_none_iff.mp hv
      dsimp only
      split
      · rename_i hlow
        exact h.leave_pop hf hk hlow
      · rename_i hlow
        exact h.leave_retire hf hk hlow

end Step

def work (next : Nat → List Nat) (n : Nat) (st : State) : Nat :=
  (st.frames.map fun fr => (next fr.1).length - fr.2 + 1).sum +
    ∑ v ∈ Finset.range n, if st.index v = -1 then (next v).length + 1 else 0

theorem work_discover {v : Nat} (hv : st.index v = -1) (hvn : v < n) (h0 : 0 ≤ st.nextIndex) :
    work next n (discover st v) = work next n st := by
  have hmem : v ∈ Finset.range n := Finset.mem_range.mpr hvn
  have hrest : ∑ w ∈ (Finset.range n).erase v,
      (if (discover st v).index w = -1 then (next w).length + 1 else 0) =
      ∑ w ∈ (Finset.range n).erase v, if st.index w = -1 then (next w).length + 1 else 0 := by
    refine Finset.sum_congr rfl fun w hw => ?_
    simp [discover, Finset.ne_of_mem_erase hw]
  have hne : st.nextIndex ≠ -1 := by omega
  unfold work
  rw [← Finset.add_sum_erase _ _ hmem, ← Finset.add_sum_erase (Finset.range n) _ hmem, hrest,
    discover_index_self, if_neg hne, if_pos hv]
  simp only [discover, map_cons, sum_cons]
  omega

theorem work_advance {u k : Nat} {rest : List (Nat × Nat)} (hf : st.frames = (u, k) :: rest)
    (hk : k < (next u).length) :
    work next n { st with frames := (u, k + 1) :: rest } + 1 = work next n st := by
  simp only [work, hf, map_cons, sum_cons]
  omega

theorem work_leave {u k : Nat} {rest : List (Nat × Nat)} (hf : st.frames = (u, k) :: rest)
    (hk : (next u).length ≤ k) : work next n (leave st u) + 1 = work next n st := by
  have hretire : work next n (retire st u) + 1 = work next n st := by
    simp only [work, retire, hf, map_cons, sum_cons, tail_cons]
    omega
  unfold leave
  split
  · exact hretire
  · rw [← hretire, work, lower_frames, lower_index]
    rfl

theorem work_step (hclosed : ∀ u, ∀ v ∈ next u, v < n) (h0 : 0 ≤ st.nextIndex)
    (hf : st.frames ≠ []) : work next n (step next st) + 1 = work next n st := by
  unfold step
  cases hfr : st.frames with
  | nil => exact absurd hfr hf
  | cons fr rest =>
    obtain ⟨u, k⟩ := fr
    dsimp only
    cases hv : (next u)[k]? with
    | some v =>
      have hk : k < (next u).length := (List.getElem?_eq_some_iff.mp hv).1
      rw [← work_advance hfr hk]
      dsimp only
      split
      · rename_i hdisc
        have hvn := hclosed u v (mem_of_getElem? hv)
        have hsame := @work_discover next n { st with frames := (u, k + 1) :: rest } v hdisc hvn h0
        rw [hsame]
      · split
        · rw [work, lower_frames, lower_index]
          rfl
        · rfl
    | none =>
      have hk : (next u).length ≤ k := List.getElem?_eq_none_iff.mp hv
      dsimp only
      split
      · exact @work_leave next n (popComponent st u) u k rest hfr hk
      · exact work_leave hfr hk

theorem work_pos (hf : st.frames ≠ []) : 0 < work next n st := by
  cases hfr : st.frames with
  | nil => exact absurd hfr hf
  | cons fr rest =>
    simp only [work, hfr, map_cons, sum_cons]
    omega

theorem runFrames_spec (hclosed : ∀ u, ∀ v ∈ next u, v < n) (fuel : Nat) (h : Inv next n st)
    (hfuel : work next n st ≤ fuel) :
    Inv next n (runFrames next fuel st) ∧ (runFrames next fuel st).frames = [] := by
  induction fuel generalizing st with
  | zero =>
    refine ⟨h, ?_⟩
    by_contra hne
    have hpos : 0 < work next n st := work_pos hne
    omega
  | succ fuel ih =>
    unfold runFrames
    cases hfr : st.frames with
    | nil => exact ⟨h, hfr⟩
    | cons fr rest =>
      have hne : st.frames ≠ [] := by rw [hfr]; simp
      have hwork := work_step hclosed h.nextIndex_nonneg hne
      exact ih (h.stepped hclosed) (by omega)

theorem work_le_stepBound (hf : st.frames = []) : work next n st ≤ stepBound next n := by
  have hbound : stepBound next n = ∑ v ∈ Finset.range n, ((next v).length + 1) := rfl
  rw [work, hf]
  simp only [map_nil, sum_nil, Nat.zero_add]
  refine Finset.sum_le_sum fun v _ => ?_
  split <;> omega

theorem step_index {v : Nat} (h0 : 0 ≤ st.nextIndex) (hv : st.index v ≠ -1) :
    (step next st).index v ≠ -1 := by
  have hdisc : ∀ (st : State) w, 0 ≤ st.nextIndex → st.index v ≠ -1 →
      (discover st w).index v ≠ -1 := by
    intro st w h0 hv
    by_cases hvw : v = w
    · subst hvw
      rw [discover_index_self]
      omega
    · simpa [discover, hvw] using hv
  have hleave : ∀ (st : State) u, st.index v ≠ -1 → (leave st u).index v ≠ -1 := by
    intro st u hv
    unfold leave
    split
    · exact hv
    · rw [lower_index]
      exact hv
  unfold step
  split
  · exact hv
  · split
    · dsimp only
      split
      · exact hdisc _ _ h0 hv
      · split
        · rw [lower_index]
          exact hv
        · exact hv
    · apply hleave
      split
      · exact hv
      · exact hv

theorem runFrames_index (hclosed : ∀ u, ∀ v ∈ next u, v < n) (fuel : Nat) (h : Inv next n st)
    {v : Nat} (hv : st.index v ≠ -1) : (runFrames next fuel st).index v ≠ -1 := by
  induction fuel generalizing st with
  | zero => exact hv
  | succ fuel ih =>
    unfold runFrames
    split
    · exact hv
    · exact ih (h.stepped hclosed) (step_index h.nextIndex_nonneg hv)

theorem visitOrigins_spec (hclosed : ∀ u, ∀ v ∈ next u, v < n) (m : Nat) (hm : m ≤ n) :
    let st := (List.range m).foldl (visitOrigin next n) initial
    Inv next n st ∧ st.frames = [] ∧ ∀ v < m, st.index v ≠ -1 := by
  induction m with
  | zero => exact ⟨inv_initial, rfl, fun v hv => absurd hv (Nat.not_lt_zero v)⟩
  | succ m ih =>
    obtain ⟨h, hframes, hdisc⟩ := ih (by omega)
    rw [range_succ, foldl_append]
    simp only [foldl_cons, foldl_nil]
    generalize (List.range m).foldl (visitOrigin next n) initial = st at h hframes hdisc ⊢
    unfold visitOrigin
    by_cases hm' : st.index m = -1
    · rw [if_pos hm']
      have hfirst : m = 0 ∨ st.index 0 ≠ -1 := by
        rcases Nat.eq_zero_or_pos m with h0 | h0
        · exact Or.inl h0
        · exact Or.inr (hdisc 0 h0)
      have hpath : path st = [] := by simp [path, hframes]
      have hd := h.discovered hm' (by omega) hfirst (Or.inl hpath)
      have hwork : work next n (discover st m) ≤ stepBound next n := by
        rw [work_discover hm' (by omega) h.nextIndex_nonneg]
        exact work_le_stepBound hframes
      obtain ⟨hrun, hnil⟩ := runFrames_spec hclosed _ hd hwork
      refine ⟨hrun, hnil, fun v hv => runFrames_index hclosed _ hd ?_⟩
      rw [discover_index_ne h]
      rcases Nat.lt_succ_iff_lt_or_eq.mp hv with hv | hv
      · exact Or.inr (hdisc v hv)
      · exact Or.inl hv
    · rw [if_neg hm']
      refine ⟨h, hframes, fun v hv => ?_⟩
      rcases Nat.lt_succ_iff_lt_or_eq.mp hv with hv | hv
      · exact hdisc v hv
      · rw [hv]
        exact hm'

structure Condensation (next : Nat → List Nat) (n : Nat) (st : State) : Prop where
  sccId_range : ∀ v < n, 0 ≤ st.sccId v ∧ st.sccId v < st.components.length
  component : ∀ (s : Nat) c, st.components[s]? = some c →
    c ≠ [] ∧ c.Nodup ∧ (∀ w ∈ c, w < n) ∧ ∀ w < n, w ∈ c ↔ st.sccId w = s
  sccId_le : ∀ u < n, ∀ v ∈ next u, st.sccId v ≤ st.sccId u
  reach : ∀ v < n, ∀ w < n, st.sccId v = st.sccId w → Reach next v w
  finish_inj : ∀ v < n, ∀ w < n, st.finish v = st.finish w → v = w
  finish_order : ∀ u < n, ∀ v ∈ next u, st.finish v < st.finish u ∨ Climbs next st.index v u
  index_inj : ∀ v < n, ∀ w < n, st.index v = st.index w → v = w
  climbs_zero : ∀ v, 0 < n → Reach next 0 v → Climbs next st.index 0 v

theorem Inv.climbs_origin (h : Inv next n st) (m : Nat) (v : Nat) (hv : st.index v ≠ -1)
    (hm : st.index v ≤ m) : ∃ r, Origin next st.index r ∧ st.index r ≠ -1 ∧ Climbs next st.index r v := by
  induction m using Nat.strong_induction_on generalizing v with
  | _ m ih =>
    rcases h.origin v hv with ho | ⟨u, hu⟩
    · exact ⟨v, ho, hv, Relation.ReflTransGen.refl⟩
    · have hu0 := (h.index_range u hu.2.1).1
      have hlt := hu.2.2
      obtain ⟨r, hr, hr0, hclimb⟩ := ih (st.index u).toNat (by omega) u hu.2.1 (by omega)
      exact ⟨r, hr, hr0, hclimb.tail hu⟩

theorem Origin.reach_lt {index : Nat → Int} {r u v : Nat} (ho : Origin next index r)
    (hu : index u ≠ -1 ∧ index u < index r) (huv : Reach next u v) :
    index v ≠ -1 ∧ index v < index r := by
  induction huv with
  | refl => exact hu
  | tail _ hbc ih => exact ho _ _ ih.1 ih.2 hbc

theorem Inv.climbs_first (h : Inv next n st) {v : Nat} (h0 : st.index 0 ≠ -1)
    (hv : st.index v ≠ -1) (hr : Reach next 0 v) : Climbs next st.index 0 v := by
  obtain ⟨r, ho, hr0, hclimb⟩ := h.climbs_origin (st.index v).toNat v hv (by omega)
  have hfirst := (h.first r hr0).2
  have hle : st.index r ≤ st.index 0 := by
    by_contra hlt
    have := (ho.reach_lt ⟨h0, not_le.mp hlt⟩ hr).2
    have := hclimb.index_le
    omega
  have heq : r = 0 := h.index_inj r 0 hr0 (by omega)
  rwa [heq] at hclimb

theorem Reach.lt (hclosed : ∀ u, ∀ v ∈ next u, v < n) {u v : Nat} (hu : u < n)
    (huv : Reach next u v) : v < n := by
  induction huv with
  | refl => exact hu
  | tail _ hbc _ => exact hclosed _ _ hbc

theorem tarjan_correct (hclosed : ∀ u, ∀ v ∈ next u, v < n) :
    Condensation next n (tarjan next n) := by
  obtain ⟨h, hframes, hdisc⟩ := visitOrigins_spec hclosed n (le_refl n)
  change Inv next n (tarjan next n) at h
  change (tarjan next n).frames = [] at hframes
  change ∀ v < n, (tarjan next n).index v ≠ -1 at hdisc
  generalize tarjan next n = st at h hframes hdisc
  have hpath : path st = [] := by simp [path, hframes]
  have hassigned := fun v hv => h.assigned_of_path_nil hpath (hdisc v hv)
  have hfinished : ∀ v < n, st.finish v ≠ -1 := by
    intro v hv hfin
    rcases (h.unfinished v).mp hfin with hc | hc
    · exact hdisc v hv hc
    · rw [hpath] at hc
      exact absurd hc not_mem_nil
  refine ⟨?_, ?_, ?_, ?_, ?_, ?_, ?_, ?_⟩
  · intro v hv
    obtain ⟨h0, h1, -⟩ := h.sccId_range v (hassigned v hv)
    exact ⟨h0, h1⟩
  · intro s c hc
    obtain ⟨h0, h1, h2⟩ := h.component s c hc
    refine ⟨h0, h1, fun w hw => ?_, fun w _ => h2 w⟩
    have hs := (h2 w).mp hw
    exact (h.index_range w (h.sccId_range w (by omega)).2.2).2.2
  · exact fun u hu v hv => (h.assigned_closed u v (hassigned u hu) hv).2
  · exact fun v hv w _ hvw => h.component_reach v w (hassigned v hv) hvw
  · exact fun v hv w _ hvw => h.finish_inj v w (hfinished v hv) hvw
  · intro u hu v hv
    rcases h.finish_order u v (hfinished u hu) hv with hlt | hc
    · exact Or.inl hlt.2
    · exact Or.inr hc
  · exact fun v hv w _ hvw => h.index_inj v w (hdisc v hv) hvw
  · intro v h0 hr
    exact h.climbs_first (hdisc 0 h0) (hdisc v (hr.lt hclosed h0)) hr

end Quadrants.Library.Tarjan
