import Quadrants.AdStack.Capacity
import Quadrants.Library.FlowGraph

/-!
The dynamic program over the strongly connected components computes the largest count
of every node that a walk from the entry can have there, and finds the gaining cycles.
-/

namespace Quadrants.AdStack.Capacity

open Quadrants.Library List
open Quadrants.Library.Tarjan (State Condensation Reach)
open Quadrants.Library.FlowGraph

variable {next : Nat → List Nat} {inc peak : Nat → Int} {n : Nat} {scc : State}

structure Sound (next : Nat → List Nat) (inc : Nat → Int) (b : Nat → Int) : Prop where
  entry : 0 ≤ b 0
  ge : ∀ u, -1 ≤ b u
  reaches : ∀ u, 0 ≤ b u → ReachesBelow next inc b (u, b u)

theorem entry_sound : Sound next inc entry.maxSizeAtNodeBegin := by
  refine ⟨by simp [entry], fun u => ?_, fun u hu => ?_⟩
  · by_cases h : u = 0 <;> simp [entry, h]
  · by_cases h : u = 0
    · subst h
      exact Relation.ReflTransGen.refl
    · simp [entry, h] at hu

section Relax

variable {b : Nat → Int} {u : Nat} {c : Int}

theorem le_relax (exitVal : Int) (v w : Nat) : b w ≤ relax exitVal b v w := by
  unfold relax
  split
  · by_cases hw : w = v
    · subst hw
      simp only [Function.update_self]
      omega
    · simp [hw]
  · exact le_refl _

theorem relax_self (exitVal : Int) (v : Nat) : exitVal ≤ relax exitVal b v v := by
  unfold relax
  split
  · simp
  · omega

theorem relax_of_ne (exitVal : Int) {v w : Nat} (hw : w ≠ v) : relax exitVal b v w = b w := by
  unfold relax
  split
  · simp [hw]
  · rfl

theorem relax_sound (hs : Sound next inc b) (hu : ReachesBelow next inc b (u, c)) {v : Nat}
    (hv : v ∈ next u) : Sound next inc (relax (c + inc u) b v) := by
  have hle := fun w => le_relax (b := b) (c + inc u) v w
  refine ⟨le_trans hs.entry (hle 0), fun w => le_trans (hs.ge w) (hle w), fun w hw => ?_⟩
  by_cases hgt : c + inc u > b v
  swap
  · have heq : relax (c + inc u) b v = b := by rw [relax, if_neg hgt]
    rw [heq] at hw ⊢
    exact hs.reaches w hw
  · by_cases hwv : w = v
    · subst hwv
      have hval : relax (c + inc u) b w w = c + inc u := by simp [relax, hgt]
      have hnn : 0 ≤ c + inc u := by
        omega
      rw [hval]
      exact (hu.mono hle).tail ⟨⟨hv, rfl, hnn⟩, by rw [hval]⟩
    · rw [relax_of_ne _ hwv] at hw ⊢
      exact (hs.reaches w hw).mono hle

theorem relaxAll_spec (hs : Sound next inc b) (hu : ReachesBelow next inc b (u, c))
    (vs : List Nat) (hvs : ∀ v ∈ vs, v ∈ next u) : Sound next inc (vs.foldl (relax (c + inc u)) b) ∧
      (∀ w, b w ≤ vs.foldl (relax (c + inc u)) b w) ∧
      (∀ w, w ∉ vs → vs.foldl (relax (c + inc u)) b w = b w) ∧
      ∀ v ∈ vs, c + inc u ≤ vs.foldl (relax (c + inc u)) b v := by
  induction vs generalizing b with
  | nil => exact ⟨hs, fun _ => le_refl _, fun _ _ => rfl, by simp⟩
  | cons v vs ih =>
    have hle := fun w => le_relax (b := b) (c + inc u) v w
    have hs' := relax_sound hs hu (hvs v mem_cons_self)
    obtain ⟨h1, h2, h3, h4⟩ := ih hs' (hu.mono hle) fun w hw => hvs w (mem_cons_of_mem _ hw)
    rw [foldl_cons]
    refine ⟨h1, fun w => le_trans (hle w) (h2 w), fun w hw => ?_, fun w hw => ?_⟩
    · rw [mem_cons, not_or] at hw
      rw [h3 w hw.2, relax_of_ne _ hw.1]
    · rcases mem_cons.mp hw with rfl | hw
      · exact le_trans (relax_self _ _) (h2 w)
      · exact h4 w hw

end Relax

section Sweep

variable {b : Nat → Int} {succ : Nat → List Nat}

theorem sweep_spec (hsucc : ∀ u, ∀ v ∈ succ u, v ∈ next u) (nodes : List Nat)
    (hself : ∀ u ∈ nodes, u ∉ succ u) (horder : nodes.Pairwise fun u w => u ∉ succ w)
    (hs : Sound next inc b) :
    Sound next inc (sweep inc succ nodes b) ∧ (∀ w, b w ≤ sweep inc succ nodes b w) ∧
      (∀ w, (∀ u ∈ nodes, w ∉ succ u) → sweep inc succ nodes b w = b w) ∧
      ∀ u ∈ nodes, 0 ≤ sweep inc succ nodes b u → ∀ v ∈ succ u,
        sweep inc succ nodes b u + inc u ≤ sweep inc succ nodes b v := by
  induction nodes generalizing b with
  | nil => exact ⟨hs, fun _ => le_refl _, fun _ _ => rfl, by simp⟩
  | cons u rest ih =>
    obtain ⟨hord, horder⟩ := pairwise_cons.mp horder
    have hself' := fun w hw => hself w (mem_cons_of_mem _ hw)
    by_cases hneg : b u < 0
    · have hstep : sweep inc succ (u :: rest) b = sweep inc succ rest b := by
        simp [sweep, hneg]
      obtain ⟨h1, h2, h3, h4⟩ := ih hself' horder hs
      rw [hstep]
      refine ⟨h1, h2, fun w hw => h3 w fun x hx => hw x (mem_cons_of_mem _ hx), ?_⟩
      intro w hw hpos v hv
      rcases mem_cons.mp hw with rfl | hw
      · rw [h3 w fun x hx => hord x hx] at hpos
        omega
      · exact h4 w hw hpos v hv
    · have hstep : sweep inc succ (u :: rest) b =
          sweep inc succ rest ((succ u).foldl (relax (b u + inc u)) b) := by
        simp [sweep, hneg]
      obtain ⟨r1, r2, r3, r4⟩ :=
        relaxAll_spec hs (hs.reaches u (not_lt.mp hneg)) (succ u) (hsucc u)
      obtain ⟨h1, h2, h3, h4⟩ := ih hself' horder r1
      rw [hstep]
      refine ⟨h1, fun w => le_trans (r2 w) (h2 w), fun w hw => ?_, ?_⟩
      · rw [h3 w fun x hx => hw x (mem_cons_of_mem _ hx), r3 w (hw u mem_cons_self)]
      · intro w hw hpos v hv
        rcases mem_cons.mp hw with rfl | hw
        · rw [h3 w fun x hx => hord x hx, r3 w (hself w mem_cons_self)]
          exact le_trans (r4 v hv) (h2 v)
        · exact h4 w hw hpos v hv

end Sweep

section Edges

variable {u v : Nat}

theorem mem_intraFwd : v ∈ intraFwd next scc u ↔
    v ∈ next u ∧ scc.sccId v = scc.sccId u ∧ scc.finish v < scc.finish u := by
  simp [intraFwd]

theorem mem_intraBack : v ∈ intraBack next scc u ↔
    v ∈ next u ∧ scc.sccId v = scc.sccId u ∧ ¬ scc.finish v < scc.finish u := by
  simp [intraBack]

theorem mem_inter : v ∈ inter next scc u ↔ v ∈ next u ∧ scc.sccId v ≠ scc.sccId u := by
  simp [inter]

end Edges

theorem foldl_max_spec {α : Type} [LinearOrder α] (f : Nat → α) (nodes : List Nat) (m : α) :
    let r := nodes.foldl (fun m u => if f u > m then f u else m) m
    m ≤ r ∧ (∀ u ∈ nodes, f u ≤ r) ∧ (r = m ∨ ∃ u ∈ nodes, r = f u) := by
  induction nodes generalizing m with
  | nil => simp
  | cons u rest ih =>
    obtain ⟨h1, h2, h3⟩ := ih (if f u > m then f u else m)
    rw [foldl_cons]
    split_ifs at h1 h2 h3 ⊢ with hlt
    · refine ⟨le_trans (le_of_lt hlt) h1, ?_, ?_⟩
      · intro w hw
        rcases mem_cons.mp hw with rfl | hw
        · exact h1
        · exact h2 w hw
      · rcases h3 with h3 | ⟨w, hw, h3⟩
        · exact Or.inr ⟨u, mem_cons_self, h3⟩
        · exact Or.inr ⟨w, mem_cons_of_mem _ hw, h3⟩
    · refine ⟨h1, ?_, ?_⟩
      · intro w hw
        rcases mem_cons.mp hw with rfl | hw
        · exact le_trans (not_lt.mp hlt) h1
        · exact h2 w hw
      · rcases h3 with h3 | ⟨w, hw, h3⟩
        · exact Or.inl h3
        · exact Or.inr ⟨w, mem_cons_of_mem _ hw, h3⟩

theorem foldl_min_spec (f : Nat → Int) (nodes : List Nat) (m : Int) :
    let r := nodes.foldl (fun m u => if f u < m then f u else m) m
    r ≤ m ∧ (∀ u ∈ nodes, r ≤ f u) ∧ (r = m ∨ ∃ u ∈ nodes, r = f u) :=
  foldl_max_spec (α := Intᵒᵈ) f nodes m

theorem fastPath_iff (nodes : List Nat) : (0 ≤ minIs inc nodes ∧ 0 < maxIs inc nodes) ↔
    (∀ u ∈ nodes, 0 ≤ inc u) ∧ ∃ u ∈ nodes, 0 < inc u := by
  obtain ⟨h1, h2, h3⟩ := foldl_min_spec inc nodes 2147483647
  obtain ⟨k1, k2, k3⟩ := foldl_max_spec inc nodes (-2147483648)
  change minIs inc nodes = _ ∨ ∃ u ∈ nodes, minIs inc nodes = inc u at h3
  change maxIs inc nodes = _ ∨ ∃ u ∈ nodes, maxIs inc nodes = inc u at k3
  constructor
  · rintro ⟨hmin, hmax⟩
    refine ⟨fun u hu => le_trans hmin (h2 u hu), ?_⟩
    rcases k3 with k3 | ⟨u, hu, k3⟩
    · omega
    · exact ⟨u, hu, by omega⟩
  · rintro ⟨hall, u, hu, hpos⟩
    refine ⟨?_, lt_of_lt_of_le hpos (k2 u hu)⟩
    rcases h3 with h3 | ⟨w, hw, h3⟩
    · omega
    · rw [h3]
      exact hall w hw

theorem inc_eq_zero {nodes : List Nat} (h : minIs inc nodes = 0 ∧ maxIs inc nodes = 0) {u : Nat}
    (hu : u ∈ nodes) : inc u = 0 := by
  have h1 : minIs inc nodes ≤ inc u := (foldl_min_spec inc nodes 2147483647).2.1 u hu
  have h2 : inc u ≤ maxIs inc nodes := (foldl_max_spec inc nodes (-2147483648)).2.1 u hu
  omega

section Component

variable (next inc) in
/-- A node on a cycle that gains while nothing strongly connected to it loses. -/
def Gaining : Prop :=
  ∃ u, 0 < inc u ∧ (∃ w ∈ next u, Reach next w u) ∧
    ∀ v, Reach next u v → Reach next v u → 0 ≤ inc v

theorem sccId_le_of_reach (hclosed : ∀ u, ∀ v ∈ next u, v < n) (hc : Condensation next n scc)
    {u v : Nat} (hu : u < n) (huv : Reach next u v) : scc.sccId v ≤ scc.sccId u := by
  induction huv with
  | refl => exact le_refl _
  | tail hab hbc ih => exact le_trans (hc.sccId_le _ (Tarjan.Reach.lt hclosed hu hab) _ hbc) ih

theorem reach_first {u v : Nat} (huv : Reach next u v) (hne : u ≠ v) :
    ∃ w ∈ next u, Reach next w v := by
  rcases Relation.ReflTransGen.cases_head huv with heq | ⟨w, hw, hwv⟩
  · exact absurd heq hne
  · exact ⟨w, hw, hwv⟩

variable {s : Nat} {nodes : List Nat}

theorem isCyclic_iff (hclosed : ∀ u, ∀ v ∈ next u, v < n) (hc : Condensation next n scc)
    (hnodes : scc.components[s]? = some nodes) : isCyclic next scc nodes = true ↔
    ∃ u ∈ nodes, ∃ v ∈ next u, v ∈ nodes := by
  obtain ⟨hne, hnd, hlt, hmem⟩ := hc.component s nodes hnodes
  cases nodes with
  | nil => exact absurd rfl hne
  | cons a rest =>
    have ha := (hmem a (hlt a mem_cons_self)).mp mem_cons_self
    constructor
    · intro hcyc
      simp only [isCyclic, Bool.or_eq_true, Bool.not_eq_true', any_eq_true, beq_iff_eq] at hcyc
      rcases hcyc with hrest | ⟨v, hv, rfl⟩
      · cases rest with
        | nil => simp at hrest
        | cons c rest =>
          have hcm : c ∈ a :: c :: rest := by simp
          have hac : a ≠ c := by
            rintro rfl
            simp at hnd
          have hcs := (hmem c (hlt c hcm)).mp hcm
          have hac' := hc.reach a (hlt a mem_cons_self) c (hlt c hcm) (by omega)
          have hca' := hc.reach c (hlt c hcm) a (hlt a mem_cons_self) (by omega)
          obtain ⟨w, hw, hwc⟩ := reach_first hac' hac
          have hwn := hclosed a w hw
          have h1 := hc.sccId_le a (hlt a mem_cons_self) w hw
          have h2 := sccId_le_of_reach hclosed hc hwn hwc
          exact ⟨a, mem_cons_self, w, hw, (hmem w hwn).mpr (by omega)⟩
      · exact ⟨v, mem_cons_self, v, (mem_intraBack.mp hv).1, mem_cons_self⟩
    · rintro ⟨u, hu, v, hv, hvm⟩
      cases rest with
      | cons c rest => simp [isCyclic]
      | nil =>
        rw [mem_singleton] at hu hvm
        subst hu hvm
        have : v ∈ intraBack next scc v := mem_intraBack.mpr ⟨hv, rfl, lt_irrefl _⟩
        simp only [isCyclic, Bool.or_eq_true, any_eq_true, beq_iff_eq]
        exact Or.inr ⟨v, this, rfl⟩

theorem gaining_of_fastPath (hclosed : ∀ u, ∀ v ∈ next u, v < n) (hc : Condensation next n scc)
    (hnodes : scc.components[s]? = some nodes) (hcyc : isCyclic next scc nodes = true)
    (hall : ∀ u ∈ nodes, 0 ≤ inc u) (hpos : ∃ u ∈ nodes, 0 < inc u) : Gaining next inc := by
  obtain ⟨-, -, hlt, hmem⟩ := hc.component s nodes hnodes
  obtain ⟨a, ha, x, hx, hxm⟩ := (isCyclic_iff hclosed hc hnodes).mp hcyc
  have hsame : ∀ {v w}, v ∈ nodes → w ∈ nodes → Reach next v w := by
    intro v w hv hw
    have h1 := (hmem v (hlt v hv)).mp hv
    have h2 := (hmem w (hlt w hw)).mp hw
    exact hc.reach v (hlt v hv) w (hlt w hw) (by omega)
  obtain ⟨u, hu, hup⟩ := hpos
  refine ⟨u, hup, ?_, ?_⟩
  · by_cases hua : u = a
    · subst hua
      exact ⟨x, hx, hsame hxm hu⟩
    · obtain ⟨w, hw, hwa⟩ := reach_first (hsame hu ha) hua
      exact ⟨w, hw, (hwa.tail hx).trans (hsame hxm hu)⟩
  · intro v huv hvu
    have hvn := Tarjan.Reach.lt hclosed (hlt u hu) huv
    have h1 := sccId_le_of_reach hclosed hc (hlt u hu) huv
    have h2 := sccId_le_of_reach hclosed hc hvn hvu
    have h3 := (hmem u (hlt u hu)).mp hu
    exact hall v ((hmem v hvn).mpr (by omega))

theorem fastPath_of_gaining (hclosed : ∀ u, ∀ v ∈ next u, v < n) (hc : Condensation next n scc)
    (h : Gaining next inc) : ∃ (s : Nat) (nodes : List Nat), scc.components[s]? = some nodes ∧
      isCyclic next scc nodes = true ∧ (∀ u ∈ nodes, 0 ≤ inc u) ∧ ∃ u ∈ nodes, 0 < inc u := by
  obtain ⟨u, hpos, ⟨w, hw, hwu⟩, hall⟩ := h
  have hun := Tarjan.Reach.lt hclosed (hclosed u w hw) hwu
  obtain ⟨h0, h1⟩ := hc.sccId_range u hun
  obtain ⟨nodes, hnodes⟩ : ∃ nodes, scc.components[(scc.sccId u).toNat]? = some nodes :=
    ⟨_, List.getElem?_eq_getElem (by omega)⟩
  obtain ⟨-, -, hlt, hmem⟩ := hc.component _ _ hnodes
  have hu := (hmem u hun).mpr (by omega)
  refine ⟨_, _, hnodes, (isCyclic_iff hclosed hc hnodes).mpr ⟨u, hu, w, hw, ?_⟩, ?_, u, hu, hpos⟩
  · have hwn := hclosed u w hw
    have h2 := hc.sccId_le u hun w hw
    have h3 := sccId_le_of_reach hclosed hc hwn hwu
    exact (hmem w hwn).mpr (by omega)
  · intro v hv
    have hv' := (hmem v (hlt v hv)).mp hv
    exact hall v (hc.reach u hun v (hlt v hv) (by omega)) (hc.reach v (hlt v hv) u hun (by omega))

end Component

section Settle

variable {s : Nat} {nodes : List Nat} {b b' : Nat → Int}

theorem foldl_raise (nodes : List Nat) (m : Int) (b : Nat → Int) (w : Nat) :
    nodes.foldl (fun b u => if b u < m then Function.update b u m else b) b w =
      if w ∈ nodes then max (b w) m else b w := by
  induction nodes generalizing b with
  | nil => simp
  | cons u rest ih =>
    rw [foldl_cons, ih]
    by_cases hwu : w = u
    · subst hwu
      by_cases hlt : b w < m
      · simp [hlt, max_eq_right (le_of_lt hlt)]
      · simp [hlt, max_eq_left (not_lt.mp hlt)]
    · by_cases hlt : b u < m
      · simp [hlt, hwu]
      · simp [hlt, hwu]

/-- What settling a component leaves: sound values, closed under its inner edges. -/
structure Settled (next : Nat → List Nat) (inc : Nat → Int) (nodes : List Nat)
    (b b' : Nat → Int) : Prop where
  sound : Sound next inc b'
  le : ∀ w, b w ≤ b' w
  frame : ∀ w, w ∉ nodes → b' w = b w
  closed : ∀ u ∈ nodes, 0 ≤ b' u → ∀ v ∈ next u, v ∈ nodes → b' u + inc u ≤ b' v

theorem reachesBelow_component (hclosed : ∀ u, ∀ v ∈ next u, v < n)
    (hc : Condensation next n scc) (hnodes : scc.components[s]? = some nodes)
    (hzero : ∀ u ∈ nodes, inc u = 0) {m : Int} (hm : 0 ≤ m) (hb : ∀ u ∈ nodes, b u = m)
    {u v : Nat} (hu : u ∈ nodes) (hr : ReachesBelow next inc b (u, m)) (hv : v ∈ nodes)
    (huv : Reach next u v) : ReachesBelow next inc b (v, m) := by
  obtain ⟨-, -, hlt, hmem⟩ := hc.component s nodes hnodes
  have hu' := (hmem u (hlt u hu)).mp hu
  induction huv with
  | refl => exact hr
  | @tail y z huy hyz ih =>
    have hz' := (hmem z (hlt z hv)).mp hv
    have hyn := Tarjan.Reach.lt hclosed (hlt u hu) huy
    have h1 := sccId_le_of_reach hclosed hc (hlt u hu) huy
    have h2 := hc.sccId_le y hyn z hyz
    have hy : y ∈ nodes := (hmem y hyn).mpr (by omega)
    refine (ih hy).tail ⟨⟨hyz, ?_, hm⟩, ?_⟩
    · rw [hzero y hy]
      omega
    · rw [hb z hv]

theorem spread_settled (hclosed : ∀ u, ∀ v ∈ next u, v < n) (hc : Condensation next n scc)
    (hnodes : scc.components[s]? = some nodes) (hzero : ∀ u ∈ nodes, inc u = 0)
    (hs : Sound next inc b) : Settled next inc nodes b (spread nodes b) := by
  obtain ⟨-, -, hlt, hmem⟩ := hc.component s nodes hnodes
  obtain ⟨k1, k2, k3⟩ := foldl_max_spec b nodes (-1)
  unfold spread
  dsimp only
  generalize nodes.foldl (fun m u => if b u > m then b u else m) (-1) = m at k1 k2 k3
  split_ifs with hm
  · have hval : ∀ w ∈ nodes,
        nodes.foldl (fun b u => if b u < m then Function.update b u m else b) b w = m := by
      intro w hw
      rw [foldl_raise, if_pos hw, max_eq_right (k2 w hw)]
    have hframe : ∀ w, w ∉ nodes →
        nodes.foldl (fun b u => if b u < m then Function.update b u m else b) b w = b w := by
      intro w hw
      rw [foldl_raise, if_neg hw]
    have hle : ∀ w, b w ≤
        nodes.foldl (fun b u => if b u < m then Function.update b u m else b) b w := by
      intro w
      by_cases hw : w ∈ nodes
      · rw [hval w hw]
        exact k2 w hw
      · rw [hframe w hw]
    refine ⟨⟨le_trans hs.entry (hle 0), fun w => le_trans (hs.ge w) (hle w), ?_⟩, hle, hframe, ?_⟩
    · intro w hw
      by_cases hwm : w ∈ nodes
      · obtain ⟨u, hu, hbu⟩ := k3.resolve_left (by omega)
        have hur : ReachesBelow next inc b (u, m) := by
          rw [hbu]
          exact hs.reaches u (by omega)
        have h1 := (hmem u (hlt u hu)).mp hu
        have h2 := (hmem w (hlt w hwm)).mp hwm
        rw [hval w hwm]
        exact reachesBelow_component hclosed hc hnodes hzero hm hval hu (hur.mono hle) hwm
          (hc.reach u (hlt u hu) w (hlt w hwm) (by omega))
      · rw [hframe w hwm] at hw ⊢
        exact (hs.reaches w hw).mono hle
    · intro u hu _ v _ hv
      rw [hval u hu, hval v hv, hzero u hu]
      omega
  · refine ⟨hs, fun _ => le_refl _, fun _ _ => rfl, fun u hu hpos => ?_⟩
    have := k2 u hu
    omega

theorem mem_topo {w : Nat} : w ∈ topo scc nodes ↔ w ∈ nodes :=
  (perm_insertionSort _ _).mem_iff

theorem forward_sweep (hs : Sound next inc b) :
    let b' := sweep inc (intraFwd next scc) (topo scc nodes) b
    Sound next inc b' ∧ (∀ w, b w ≤ b' w) ∧
      (∀ w, (∀ u ∈ nodes, w ∉ intraFwd next scc u) → b' w = b w) ∧
      ∀ u ∈ nodes, 0 ≤ b' u → ∀ v ∈ intraFwd next scc u, b' u + inc u ≤ b' v := by
  have hsorted : (topo scc nodes).Pairwise fun a b => scc.finish b ≤ scc.finish a := by
    exact pairwise_insertionSort _ _
  -- the target of a forward edge finishes earlier, so it stands later in the order
  have horder : (topo scc nodes).Pairwise fun u w => u ∉ intraFwd next scc w := by
    refine hsorted.imp fun {a w} hle ha => ?_
    have := (mem_intraFwd.mp ha).2.2
    omega
  obtain ⟨h1, h2, h3, h4⟩ := @sweep_spec next inc b (intraFwd next scc)
    (fun u v hv => (mem_intraFwd.mp hv).1) (topo scc nodes)
    (fun u _ hu => lt_irrefl _ (mem_intraFwd.mp hu).2.2) horder hs
  refine ⟨h1, h2, ?_, ?_⟩
  · exact fun w hw => h3 w fun u hu => hw u (mem_topo.mp hu)
  · exact fun u hu => h4 u (mem_topo.mpr hu)

theorem forward_settled (hclosed : ∀ u, ∀ v ∈ next u, v < n) (hc : Condensation next n scc)
    (hnodes : scc.components[s]? = some nodes) (hs : Sound next inc b)
    (hback : backEdgeGains inc next scc nodes
      (sweep inc (intraFwd next scc) (topo scc nodes) b) = false) :
    Settled next inc nodes b (sweep inc (intraFwd next scc) (topo scc nodes) b) := by
  obtain ⟨-, hnd, hlt, hmem⟩ := hc.component s nodes hnodes
  obtain ⟨h1, h2, h3, h4⟩ := @forward_sweep next inc scc nodes b hs
  refine ⟨h1, h2, ?_, ?_⟩
  · intro w hw
    refine h3 w fun u hu hwu => hw ?_
    obtain ⟨hwn, hscc, -⟩ := mem_intraFwd.mp hwu
    rw [hmem w (hclosed u w hwn), hscc]
    exact (hmem u (hlt u hu)).mp hu
  · intro u hu hpos v hv hvm
    have hsame : scc.sccId v = scc.sccId u := by
      rw [(hmem v (hlt v hvm)).mp hvm, (hmem u (hlt u hu)).mp hu]
    by_cases hfin : scc.finish v < scc.finish u
    · exact h4 u hu hpos v (mem_intraFwd.mpr ⟨hv, hsame, hfin⟩)
    · unfold backEdgeGains at hback
      rw [any_eq_false] at hback
      have hnone := hback u hu
      simp only [Bool.and_eq_true, decide_eq_true_eq, any_eq_true, not_and, not_exists] at hnone
      have := hnone hpos v (mem_intraBack.mpr ⟨hv, hsame, hfin⟩)
      omega

theorem settle_spec (hclosed : ∀ u, ∀ v ∈ next u, v < n) (hc : Condensation next n scc)
    (hr : Reducible next) (h0 : 0 < n) (hnodes : scc.components[s]? = some nodes)
    (hs : Sound next inc b) :
    match (if isCyclic next scc nodes then settleCyclic inc next scc nodes b else some b) with
    | some b' => Settled next inc nodes b b' ∧ (isCyclic next scc nodes = true →
        ¬ ((∀ u ∈ nodes, 0 ≤ inc u) ∧ ∃ u ∈ nodes, 0 < inc u))
    | none => Gaining next inc ∨ PositiveCycle next inc := by
  by_cases hcyc : isCyclic next scc nodes = true
  swap
  · rw [if_neg hcyc]
    refine ⟨⟨hs, fun _ => le_refl _, fun _ _ => rfl, fun u hu _ v hv hvm => ?_⟩, fun h => absurd h hcyc⟩
    exact absurd ((isCyclic_iff hclosed hc hnodes).mpr ⟨u, hu, v, hv, hvm⟩) hcyc
  rw [if_pos hcyc]
  unfold settleCyclic
  by_cases hfast : 0 ≤ minIs inc nodes ∧ 0 < maxIs inc nodes
  · rw [if_pos hfast]
    obtain ⟨hall, hpos⟩ := (fastPath_iff nodes).mp hfast
    exact Or.inl (gaining_of_fastPath hclosed hc hnodes hcyc hall hpos)
  rw [if_neg hfast]
  have hquiet : ¬ ((∀ u ∈ nodes, 0 ≤ inc u) ∧ ∃ u ∈ nodes, 0 < inc u) := fun h =>
    hfast ((fastPath_iff nodes).mpr h)
  by_cases hzero : minIs inc nodes = 0 ∧ maxIs inc nodes = 0
  · rw [if_pos hzero]
    exact ⟨spread_settled hclosed hc hnodes (fun u hu => inc_eq_zero hzero hu) hs, fun _ => hquiet⟩
  rw [if_neg hzero]
  dsimp only
  cases hback : backEdgeGains inc next scc nodes
      (sweep inc (intraFwd next scc) (topo scc nodes) b) with
  | false => exact ⟨forward_settled hclosed hc hnodes hs hback, fun _ => hquiet⟩
  | true =>
    refine Or.inr ?_
    have hfs := (@forward_sweep next inc scc nodes b hs).1
    unfold backEdgeGains at hback
    simp only [any_eq_true, Bool.and_eq_true, decide_eq_true_eq] at hback
    obtain ⟨u, hu, hpos, v, hv, hgain⟩ := hback
    obtain ⟨hvn, -, hfin⟩ := mem_intraBack.mp hv
    have hru := hfs.reaches u hpos
    have hdom := retreating_dominates hclosed hc hr h0 hru.reaches.reach hvn hfin
    have hge := hfs.ge v
    exact hru.positiveCycle hfs.entry hvn hdom (by omega) hgain

end Settle

section Leave

variable {s : Nat} {nodes : List Nat}

theorem foldl_leaveNode_begin (nodes : List Nat) (p : Progress) :
    (nodes.foldl (leaveNode inc next scc peak) p).maxSizeAtNodeBegin =
      sweep inc (inter next scc) nodes p.maxSizeAtNodeBegin := by
  induction nodes generalizing p with
  | nil => rfl
  | cons u rest ih =>
    rw [foldl_cons, ih]
    by_cases hneg : p.maxSizeAtNodeBegin u < 0
    · simp [leaveNode, sweep, hneg]
    · simp [leaveNode, sweep, hneg]

theorem foldl_relax_of_not_mem (exitVal : Int) (vs : List Nat) (b : Nat → Int) {w : Nat}
    (hw : w ∉ vs) : vs.foldl (relax exitVal) b w = b w := by
  induction vs generalizing b with
  | nil => rfl
  | cons v vs ih =>
    rw [mem_cons, not_or] at hw
    rw [foldl_cons, ih _ hw.2, relax_of_ne _ hw.1]

theorem foldl_leaveNode_maxSize (nodes : List Nat)
    (hout : ∀ u ∈ nodes, ∀ w ∈ nodes, w ∉ inter next scc u) (p : Progress) :
    p.maxSize ≤ (nodes.foldl (leaveNode inc next scc peak) p).maxSize ∧
      (∀ u ∈ nodes, 0 ≤ p.maxSizeAtNodeBegin u → p.maxSizeAtNodeBegin u + peak u ≤
        (nodes.foldl (leaveNode inc next scc peak) p).maxSize) ∧
      ((nodes.foldl (leaveNode inc next scc peak) p).maxSize = p.maxSize ∨
        ∃ u ∈ nodes, 0 ≤ p.maxSizeAtNodeBegin u ∧ p.maxSizeAtNodeBegin u + peak u =
          (nodes.foldl (leaveNode inc next scc peak) p).maxSize) := by
  induction nodes generalizing p with
  | nil => simp
  | cons u rest ih =>
    have hkeep : ∀ w ∈ rest,
        (leaveNode inc next scc peak p u).maxSizeAtNodeBegin w = p.maxSizeAtNodeBegin w := by
      intro w hw
      unfold leaveNode
      dsimp only
      split
      · rfl
      · exact foldl_relax_of_not_mem _ _ _
          (hout u mem_cons_self w (mem_cons_of_mem _ hw))
    obtain ⟨h1, h2, h3⟩ := ih (fun a ha w hw =>
      hout a (mem_cons_of_mem _ ha) w (mem_cons_of_mem _ hw)) (leaveNode inc next scc peak p u)
    rw [foldl_cons]
    have hmax : (leaveNode inc next scc peak p u).maxSize =
        if 0 ≤ p.maxSizeAtNodeBegin u ∧ p.maxSize < p.maxSizeAtNodeBegin u + peak u then
          p.maxSizeAtNodeBegin u + peak u
        else p.maxSize := by
      unfold leaveNode
      dsimp only
      split_ifs <;> first | rfl | (exfalso; omega)
    refine ⟨?_, ?_, ?_⟩
    · refine le_trans ?_ h1
      rw [hmax]
      split_ifs <;> omega
    · intro w hw hpos
      rcases mem_cons.mp hw with rfl | hw
      · refine le_trans ?_ h1
        rw [hmax]
        split_ifs <;> omega
      · have := h2 w hw
        rw [hkeep w hw] at this
        exact this hpos
    · rcases h3 with h3 | ⟨w, hw, hpos, h3⟩
      · rw [h3, hmax]
        split_ifs with hcond
        · exact Or.inr ⟨u, mem_cons_self, hcond.1, rfl⟩
        · exact Or.inl rfl
      · rw [hkeep w hw] at hpos h3
        exact Or.inr ⟨w, mem_cons_of_mem _ hw, hpos, h3⟩

end Leave

section Components

structure Done (next : Nat → List Nat) (inc peak : Nat → Int) (n : Nat) (scc : State) (s : Nat)
    (p : Progress) : Prop where
  sound : Sound next inc p.maxSizeAtNodeBegin
  closed : ∀ u < n, (s : Int) ≤ scc.sccId u → 0 ≤ p.maxSizeAtNodeBegin u → ∀ v ∈ next u,
    p.maxSizeAtNodeBegin u + inc u ≤ p.maxSizeAtNodeBegin v
  bound : ∀ u < n, (s : Int) ≤ scc.sccId u → 0 ≤ p.maxSizeAtNodeBegin u →
    p.maxSizeAtNodeBegin u + peak u ≤ p.maxSize
  nonneg : 0 ≤ p.maxSize
  attained : p.maxSize = 0 ∨ ∃ u c, Reaches next inc u c ∧ c + peak u = p.maxSize
  quiet : ∀ (t : Nat) nodes, s ≤ t → scc.components[t]? = some nodes →
    isCyclic next scc nodes = true → ¬ ((∀ u ∈ nodes, 0 ≤ inc u) ∧ ∃ u ∈ nodes, 0 < inc u)

variable {s : Nat} {nodes : List Nat} {p : Progress}

theorem leave_done (hclosed : ∀ u, ∀ v ∈ next u, v < n) (hc : Condensation next n scc)
    (hnodes : scc.components[s]? = some nodes) (hp : Done next inc peak n scc (s + 1) p)
    {b : Nat → Int} (hb : Settled next inc nodes p.maxSizeAtNodeBegin b)
    (hquiet : isCyclic next scc nodes = true →
      ¬ ((∀ u ∈ nodes, 0 ≤ inc u) ∧ ∃ u ∈ nodes, 0 < inc u)) :
    Done next inc peak n scc s
      (nodes.foldl (leaveNode inc next scc peak) { p with maxSizeAtNodeBegin := b }) := by
  obtain ⟨-, -, hlt, hmem⟩ := hc.component s nodes hnodes
  have hid : ∀ {u}, u ∈ nodes → scc.sccId u = s := fun hu => (hmem _ (hlt _ hu)).mp hu
  have hout : ∀ u ∈ nodes, ∀ w ∈ nodes, w ∉ inter next scc u := by
    intro u hu w hw hmem'
    exact (mem_inter.mp hmem').2 (by rw [hid hu, hid hw])
  obtain ⟨h1, h2, h3, h4⟩ := @sweep_spec next inc b (inter next scc)
    (fun u v hv => (mem_inter.mp hv).1) nodes (fun u hu => hout u hu u hu)
    (pairwise_of_forall_mem_list fun u hu w hw => hout w hw u hu) hb.sound
  obtain ⟨m1, m2, m3⟩ := @foldl_leaveNode_maxSize next inc peak scc nodes hout
    { p with maxSizeAtNodeBegin := b }
  -- nothing from `s` on is touched while the component is left
  have hkeep : ∀ u < n, (s : Int) ≤ scc.sccId u → sweep inc (inter next scc) nodes b u = b u := by
    intro u hu hsu
    refine h3 u fun w hw huw => ?_
    obtain ⟨hun, hne⟩ := mem_inter.mp huw
    have hle := hc.sccId_le w (hlt w hw) u hun
    rw [hid hw] at hne hle
    omega
  have hframe : ∀ u < n, ((s + 1 : Nat) : Int) ≤ scc.sccId u → b u = p.maxSizeAtNodeBegin u := by
    intro u hu hsu
    refine hb.frame u fun hmem' => ?_
    rw [hid hmem'] at hsu
    omega
  have hsplit : ∀ u < n, (s : Int) ≤ scc.sccId u →
      u ∈ nodes ∨ ((s + 1 : Nat) : Int) ≤ scc.sccId u := by
    intro u hu hsu
    rw [hmem u hu]
    omega
  refine ⟨?_, ?_, ?_, le_trans hp.nonneg m1, ?_, ?_⟩
  · rw [foldl_leaveNode_begin]
    exact h1
  · rw [foldl_leaveNode_begin]
    intro u hu hsu hpos v hv
    rw [hkeep u hu hsu] at hpos ⊢
    rcases hsplit u hu hsu with hun | hlater
    · by_cases hvn : v ∈ nodes
      · exact le_trans (hb.closed u hun hpos v hv hvn) (h2 v)
      · have hvi : v ∈ inter next scc u := by
          refine mem_inter.mpr ⟨hv, fun heq => hvn ?_⟩
          rw [hmem v (hclosed u v hv), heq, hid hun]
        have := h4 u hun
        rw [hkeep u hu hsu] at this
        exact this hpos v hvi
    · rw [hframe u hu hlater] at hpos ⊢
      exact le_trans (hp.closed u hu hlater hpos v hv) (le_trans (hb.le v) (h2 v))
  · rw [foldl_leaveNode_begin]
    intro u hu hsu hpos
    rw [hkeep u hu hsu] at hpos ⊢
    rcases hsplit u hu hsu with hun | hlater
    · exact m2 u hun hpos
    · rw [hframe u hu hlater] at hpos ⊢
      exact le_trans (hp.bound u hu hlater hpos) m1
  · rcases m3 with m3 | ⟨u, hu, hpos, m3⟩
    · rw [m3]
      exact hp.attained
    · exact Or.inr ⟨u, b u, (hb.sound.reaches u hpos).reaches, m3⟩
  · intro t nodes' hst hnodes'
    rcases Nat.eq_or_lt_of_le hst with rfl | hst
    · rw [hnodes] at hnodes'
      rw [← Option.some.inj hnodes']
      exact hquiet
    · exact hp.quiet t nodes' hst hnodes'

theorem longestWalk_spec (hclosed : ∀ u, ∀ v ∈ next u, v < n) (hc : Condensation next n scc)
    (hr : Reducible next) (h0 : 0 < n) (l : List (List Nat)) (s : Nat)
    (hl : scc.components.drop s = l) : match longestWalk inc next scc peak l with
    | some p => Done next inc peak n scc s p
    | none => Gaining next inc ∨ PositiveCycle next inc := by
  induction l generalizing s with
  | nil =>
    have hlen : scc.components.length ≤ s := drop_eq_nil_iff.mp hl
    have hlate : ∀ u < n, ¬ (s : Int) ≤ scc.sccId u := by
      intro u hu hle
      have := (hc.sccId_range u hu).2
      omega
    refine ⟨entry_sound, ?_, ?_, le_refl _, Or.inl rfl, ?_⟩
    · exact fun u hu hle => absurd hle (hlate u hu)
    · exact fun u hu hle => absurd hle (hlate u hu)
    · intro t nodes hst hnodes
      have := (List.getElem?_eq_some_iff.mp hnodes).1
      omega
  | cons nodes rest ih =>
    have hnodes : scc.components[s]? = some nodes := by
      rw [← List.head?_drop, hl]
      rfl
    have hrest : scc.components.drop (s + 1) = rest := by
      rw [← tail_drop, hl]
      rfl
    have hstep := ih (s + 1) hrest
    have hwalk : longestWalk inc next scc peak (nodes :: rest) =
        (longestWalk inc next scc peak rest).bind (visitComponent inc next scc peak nodes) := rfl
    rw [hwalk]
    cases hp : longestWalk inc next scc peak rest with
    | none =>
      rw [hp] at hstep
      exact hstep
    | some p =>
      rw [hp] at hstep
      have hsettle := settle_spec hclosed hc hr h0 hnodes hstep.sound
      rw [Option.bind_some, visitComponent]
      cases hb : (if isCyclic next scc nodes then
          settleCyclic inc next scc nodes p.maxSizeAtNodeBegin
        else some p.maxSizeAtNodeBegin) with
      | none =>
        rw [hb] at hsettle
        exact hsettle
      | some b =>
        rw [hb] at hsettle
        exact leave_done hclosed hc hnodes hstep hsettle.1 hsettle.2

theorem longestWalk_exact (hclosed : ∀ u, ∀ v ∈ next u, v < n) (hc : Condensation next n scc)
    (hr : Reducible next) (h0 : 0 < n) : match longestWalk inc next scc peak scc.components with
    | some p => ¬ Gaining next inc ∧ ¬ PositiveCycle next inc ∧ 0 ≤ p.maxSize ∧
        (∀ u c, Reaches next inc u c → c + peak u ≤ p.maxSize) ∧
        (p.maxSize = 0 ∨ ∃ u c, Reaches next inc u c ∧ c + peak u = p.maxSize)
    | none => Gaining next inc ∨ PositiveCycle next inc := by
  have hspec := @longestWalk_spec next inc peak n scc hclosed hc hr h0 scc.components 0 rfl
  cases hp : longestWalk inc next scc peak scc.components with
  | none =>
    rw [hp] at hspec
    exact hspec
  | some p =>
    rw [hp] at hspec
    have hall : ∀ u < n, ((0 : Nat) : Int) ≤ scc.sccId u := fun u hu => (hc.sccId_range u hu).1
    -- what has no edge out is closed for free
    have hclosed' : ∀ u v, 0 ≤ p.maxSizeAtNodeBegin u → v ∈ next u →
        p.maxSizeAtNodeBegin u + inc u ≤ p.maxSizeAtNodeBegin v := by
      intro u v hpos hv
      have hu := Tarjan.Reach.lt hclosed h0 (hspec.sound.reaches u hpos).reaches.reach
      exact hspec.closed u hu (hall u hu) hpos v hv
    refine ⟨fun hg => ?_, not_positiveCycle_of_closed hspec.sound.entry hclosed', hspec.nonneg,
      fun u c hreach => ?_, hspec.attained⟩
    · obtain ⟨t, nodes, hnodes, hcyc, hall', hpos⟩ := fastPath_of_gaining hclosed hc hg
      exact hspec.quiet t nodes (Nat.zero_le _) hnodes hcyc ⟨hall', hpos⟩
    · have hle := hreach.le_of_closed hspec.sound.entry hclosed'
      have hc0 := hreach.nonneg
      have hu := Tarjan.Reach.lt hclosed h0 hreach.reach
      have := hspec.bound u hu (hall u hu) (by omega)
      omega

end Components

end Quadrants.AdStack.Capacity
