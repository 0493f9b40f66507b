import Mathlib.Data.List.Induction
import Mathlib.Data.List.Perm.Basic
import Mathlib.Tactic.Common

/-!
Accesses in the order in which they are made, which store a load reads from, and what becomes of it
when the marked accesses are moved before the others.
-/

namespace Quadrants.Library.TraceOrder

open List

/-- A load, or a store, made by the statement `stmt` of the statement `home` of a block. -/
structure Access (P : Type) where
  home : ℕ
  stmt : ℕ
  isStore : Bool
  place : P
deriving DecidableEq

variable {P : Type}

def Access.StoresTo (a : Access P) (p : P) : Prop := a.isStore = true ∧ a.place = p

instance [DecidableEq P] (a : Access P) (p : P) : Decidable (a.StoresTo p) :=
  inferInstanceAs (Decidable (_ ∧ _))

def lastStore [DecidableEq P] (xs : List (Access P)) (p : P) : Option ℕ :=
  xs.foldl (fun last a => if a.StoresTo p then some a.stmt else last) none

/-- The load `l` is made, and `source` was the last to store to its place. -/
def ReadsFrom [DecidableEq P] (xs : List (Access P)) (l : ℕ) (source : Option ℕ) : Prop :=
  ∃ before a after, xs = before ++ a :: after ∧ a.isStore = false ∧ a.stmt = l ∧
    source = lastStore before a.place

def SameReads [DecidableEq P] (xs ys : List (Access P)) : Prop :=
  ∀ l source, ReadsFrom xs l source ↔ ReadsFrom ys l source

structure Once (xs : List (Access P)) : Prop where
  loads : ((xs.filter fun a => !a.isStore).map Access.stmt).Nodup
  stores : ((xs.filter Access.isStore).map Access.stmt).Nodup

structure OrderKept (marked : Access P → Prop) (xs : List (Access P)) : Prop where
  of_marked : ∀ before a after, xs = before ++ a :: after → a.isStore = false → marked a →
    ∀ early b late, before = early ++ b :: late → b.StoresTo a.place → ¬ marked b →
      ∃ c ∈ late, c.StoresTo a.place ∧ marked c
  of_before : ∀ before a after, xs = before ++ a :: after → a.isStore = false → ¬ marked a →
    ∀ early b late, before = early ++ b :: late → b.StoresTo a.place → marked b →
      (∃ c ∈ late, c.StoresTo a.place ∧ ¬ marked c) ∨
        ∀ c ∈ early, c.StoresTo a.place → marked c
  of_after : ∀ before a after, xs = before ++ a :: after → a.isStore = false → ¬ marked a →
    ∀ b ∈ after, b.StoresTo a.place → marked b → ∃ c ∈ before, c.StoresTo a.place ∧ ¬ marked c

section stores

variable {xs ys : List (Access P)} {p : P}

theorem exists_late_of_last {early late early' late' : List (Access P)} {b b' : Access P}
    (hxs : xs = early ++ b :: late) (hxs' : xs = early' ++ b' :: late')
    (hlate : ∀ c ∈ late, ¬ c.StoresTo p) (hb' : b'.StoresTo p) (hne : b' ≠ b) : b ∈ late' := by
  rcases append_eq_append_iff.1 (hxs.symm.trans hxs') with ⟨t, rfl, ht⟩ | ⟨t, rfl, ht⟩
  · cases t with
    | nil => exact absurd (List.cons.inj ht).1.symm hne
    | cons d t =>
      refine absurd hb' (hlate b' ?_)
      rw [(List.cons.inj ht).2]
      simp
  · cases t with
    | nil => exact absurd (List.cons.inj ht).1 hne
    | cons d t =>
      rw [(List.cons.inj ht).2]
      simp

variable [DecidableEq P]

theorem lastStore_append_singleton (xs : List (Access P)) (a : Access P) (p : P) :
    lastStore (xs ++ [a]) p = if a.StoresTo p then some a.stmt else lastStore xs p := by
  rw [lastStore, foldl_append, foldl_cons, foldl_nil, lastStore]

theorem lastStore_append (xs ys : List (Access P)) (p : P) :
    lastStore (xs ++ ys) p = (lastStore ys p).or (lastStore xs p) := by
  induction ys using List.reverseRecOn with
  | nil => rw [append_nil]; rfl
  | append_singleton ys a ih =>
    rw [← append_assoc, lastStore_append_singleton, lastStore_append_singleton, ih]
    split_ifs <;> rfl

theorem lastStore_eq_none_iff : lastStore xs p = none ↔ ∀ a ∈ xs, ¬ a.StoresTo p := by
  induction xs using List.reverseRecOn with
  | nil => exact ⟨fun _ => nofun, fun _ => rfl⟩
  | append_singleton xs a ih =>
    rw [lastStore_append_singleton, forall_mem_append, forall_mem_singleton]
    split_ifs with ha
    · exact ⟨nofun, fun h => absurd ha h.2⟩
    · rw [ih]
      exact ⟨fun h => ⟨h, ha⟩, fun h => h.1⟩

theorem exists_of_lastStore {s : ℕ} (h : lastStore xs p = some s) :
    ∃ early b late, xs = early ++ b :: late ∧ b.StoresTo p ∧ b.stmt = s ∧
      ∀ c ∈ late, ¬ c.StoresTo p := by
  induction xs using List.reverseRecOn with
  | nil => exact absurd h nofun
  | append_singleton xs a ih =>
    rw [lastStore_append_singleton] at h
    split_ifs at h with ha
    · exact ⟨xs, a, [], rfl, ha, Option.some.inj h, nofun⟩
    · obtain ⟨early, b, late, rfl, hb, hs, hlate⟩ := ih h
      refine ⟨early, b, late ++ [a], by rw [append_assoc, cons_append], hb, hs, ?_⟩
      rw [forall_mem_append, forall_mem_singleton]
      exact ⟨hlate, ha⟩

theorem lastStore_of_late {early late : List (Access P)} {b : Access P} (hb : b.StoresTo p)
    (hlate : ∀ c ∈ late, ¬ c.StoresTo p) : lastStore (early ++ b :: late) p = some b.stmt := by
  rw [append_cons, lastStore_append, lastStore_eq_none_iff.2 hlate,
    lastStore_append_singleton, if_pos hb]
  rfl

theorem lastStore_cases (xs : List (Access P)) (p : P) :
    (∀ a ∈ xs, ¬ a.StoresTo p) ∨ ∃ early b late, xs = early ++ b :: late ∧ b.StoresTo p ∧
      (∀ c ∈ late, ¬ c.StoresTo p) ∧ lastStore xs p = some b.stmt := by
  cases hlast : lastStore xs p with
  | none => exact Or.inl (lastStore_eq_none_iff.1 hlast)
  | some s =>
    obtain ⟨early, b, late, hxs, hb, hs, hlate⟩ := exists_of_lastStore hlast
    exact Or.inr ⟨early, b, late, hxs, hb, hlate, by rw [hs]⟩

end stores

section loads

variable {xs ys : List (Access P)}

theorem Once.unique (h : Once xs) {before before' after after' : List (Access P)}
    {a a' : Access P} (hxs : xs = before ++ a :: after) (hxs' : xs = before' ++ a' :: after')
    (ha : a.isStore = false) (ha' : a'.isStore = false) (heq : a.stmt = a'.stmt) :
    before = before' ∧ a = a' := by
  have key : ∀ {u v : List (Access P)} {c d : Access P} {t w : List (Access P)},
      xs = u ++ c :: t → xs = u ++ v ++ d :: w → c.isStore = false → d.isStore = false →
        c.stmt = d.stmt → v = [] := by
    intro u v c d t w hu hv hc hd hcd
    cases v with
    | nil => rfl
    | cons c' v =>
      rw [append_assoc, cons_append] at hv
      obtain ⟨rfl, rfl⟩ := List.cons.inj (append_cancel_left (hu.symm.trans hv))
      have hnodup := h.loads
      rw [hu, filter_append, map_append, nodup_append, filter_cons_of_pos]
        at hnodup
      · rw [map_cons, nodup_cons] at hnodup
        refine absurd ?_ hnodup.2.1.1
        rw [hcd]
        exact mem_map_of_mem (mem_filter.2 ⟨by simp, by rw [hd]; rfl⟩)
      · rw [hc]
        rfl
  rcases append_eq_append_iff.1 (hxs.symm.trans hxs') with ⟨v, rfl, hv⟩ | ⟨v, rfl, hv⟩
  · have hnil := key hxs hxs' ha ha' heq
    subst hnil
    rw [append_nil]
    exact ⟨rfl, (List.cons.inj hv).1⟩
  · have hnil := key hxs' hxs ha' ha heq.symm
    subst hnil
    rw [append_nil]
    exact ⟨rfl, (List.cons.inj hv).1.symm⟩

theorem Once.perm (h : Once xs) (hperm : xs.Perm ys) : Once ys where
  loads := ((hperm.filter _).map _).nodup_iff.1 h.loads
  stores := ((hperm.filter _).map _).nodup_iff.1 h.stores

theorem Once.store_unique (h : Once xs) {before after : List (Access P)} {b c : Access P}
    (hxs : xs = before ++ b :: after) (hb : b.isStore = true) (hc : c.isStore = true)
    (hmem : c ∈ before ++ after) : c.stmt ≠ b.stmt := by
  intro heq
  have hperm : xs.Perm (b :: (before ++ after)) := hxs ▸ perm_middle
  have hnodup := (h.perm hperm).stores
  rw [filter_cons_of_pos hb, map_cons, nodup_cons] at hnodup
  exact hnodup.1 (heq ▸ mem_map_of_mem (mem_filter.2 ⟨hmem, hc⟩))

theorem Once.readsFrom_iff [DecidableEq P] (h : Once xs) {before after : List (Access P)}
    {a : Access P} (hxs : xs = before ++ a :: after) (ha : a.isStore = false) {source : Option ℕ} :
    ReadsFrom xs a.stmt source ↔ source = lastStore before a.place := by
  constructor
  · rintro ⟨before', a', after', hxs', ha', heq, rfl⟩
    obtain ⟨rfl, rfl⟩ := h.unique hxs hxs' ha ha' heq.symm
    rfl
  · rintro rfl
    exact ⟨before, a, after, hxs, ha, rfl, rfl⟩

end loads

section moved

variable (marked : Access P → Prop) [DecidablePred marked]

def markedFirst (xs : List (Access P)) : List (Access P) :=
  xs.filter (fun a => marked a) ++ xs.filter fun a => ¬ marked a

theorem markedFirst_perm (xs : List (Access P)) : (markedFirst marked xs).Perm xs := by
  rw [markedFirst]
  simpa using filter_append_perm (fun a => decide (marked a)) xs

variable {marked} {start xs before after : List (Access P)} {a : Access P}

theorem markedFirst_of_marked (start : List (Access P)) (hxs : xs = before ++ a :: after)
    (ha : marked a) : ∃ rest, start ++ markedFirst marked xs =
      (start ++ before.filter fun c => marked c) ++ a :: rest := by
  refine ⟨after.filter (fun c => marked c) ++ xs.filter fun c => ¬ marked c, ?_⟩
  rw [markedFirst, hxs, filter_append, filter_cons_of_pos (by simpa using ha)]
  simp

theorem markedFirst_of_not_marked (start : List (Access P)) (hxs : xs = before ++ a :: after)
    (ha : ¬ marked a) : ∃ rest, start ++ markedFirst marked xs =
      (start ++ xs.filter (fun c => marked c) ++ before.filter fun c => ¬ marked c) ++
        a :: rest := by
  refine ⟨after.filter fun c => ¬ marked c, ?_⟩
  have hrest : xs.filter (fun c => ¬ marked c) =
      before.filter (fun c => ¬ marked c) ++ a :: after.filter fun c => ¬ marked c := by
    rw [hxs, filter_append, filter_cons_of_pos (by simpa using ha)]
  rw [markedFirst, hrest]
  simp

variable [DecidableEq P]

theorem lastStore_marked_iff (honce : Once (start ++ xs)) (hxs : xs = before ++ a :: after)
    (p : P) :
    lastStore (start ++ before.filter fun c => marked c) p = lastStore (start ++ before) p ↔
      ∀ early b late, before = early ++ b :: late → b.StoresTo p → ¬ marked b →
        ∃ c ∈ late, c.StoresTo p ∧ marked c := by
  rcases lastStore_cases before p with hnone | ⟨early, b, late, hbefore, hb, hlate, hlast⟩
  · have hfilter : ∀ c ∈ before.filter (fun c => marked c), ¬ c.StoresTo p :=
      fun c hc => hnone c (mem_filter.1 hc).1
    rw [lastStore_append, lastStore_append, lastStore_eq_none_iff.2 hnone,
      lastStore_eq_none_iff.2 hfilter]
    refine iff_of_true rfl fun early b late hbefore hb => absurd hb (hnone b ?_)
    rw [hbefore]
    simp
  · rw [lastStore_append _ before, hlast]
    by_cases hmarked : marked b
    · have hfilter : lastStore (before.filter fun c => marked c) p = some b.stmt := by
        rw [hbefore, filter_append, filter_cons_of_pos (by simpa using hmarked)]
        exact lastStore_of_late hb fun c hc => hlate c (mem_filter.1 hc).1
      rw [lastStore_append, hfilter]
      refine iff_of_true rfl fun early' b' late' hbefore' hb' hmarked' => ?_
      refine ⟨b, ?_, hb, hmarked⟩
      exact exists_late_of_last hbefore hbefore' hlate hb' fun heq => hmarked' (heq ▸ hmarked)
    · refine iff_of_false ?_ fun h => ?_
      · intro heq
        have heq' : lastStore (start ++ before.filter fun c => marked c) p = some b.stmt := heq
        obtain ⟨early', c, late', hall, hc, hstmt, -⟩ := exists_of_lastStore heq'
        have hmem : c ∈ start ++ before.filter fun c => marked c := by
          rw [hall]
          simp
        have hsplit : start ++ xs = (start ++ early) ++ b :: (late ++ a :: after) := by
          rw [hxs, hbefore]
          simp
        refine honce.store_unique hsplit hb.1 hc.1 ?_ hstmt
        rcases mem_append.1 hmem with hmem | hmem
        · simp [hmem]
        · obtain ⟨hmem, hmarked'⟩ := mem_filter.1 hmem
          rw [hbefore, mem_append, mem_cons] at hmem
          rcases hmem with hmem | rfl | hmem
          · simp [hmem]
          · exact absurd (of_decide_eq_true hmarked') hmarked
          · simp [hmem]
      · obtain ⟨c, hc, hstores, -⟩ := h early b late hbefore hb hmarked
        exact hlate c hc hstores

theorem lastStore_filter {keep : Access P → Prop} [DecidablePred keep] {p : P}
    (h : ∀ c ∈ xs, c.StoresTo p → keep c) :
    lastStore (xs.filter fun c => keep c) p = lastStore xs p := by
  induction xs using List.reverseRecOn with
  | nil => rfl
  | append_singleton xs a ih =>
    rw [forall_mem_append, forall_mem_singleton] at h
    rw [filter_append, lastStore_append_singleton, lastStore_append, ih h.1]
    split_ifs with ha
    · have hkept : lastStore ([] ++ [a]) p = some a.stmt :=
        (lastStore_append_singleton [] a p).trans (if_pos ha)
      rw [filter_singleton, decide_eq_true (h.2 ha)]
      exact congrArg (Option.or · (lastStore xs p)) hkept
    · have hnone : lastStore ([a].filter fun c => keep c) p = none := by
        refine lastStore_eq_none_iff.2 fun c hc => ?_
        rw [mem_singleton.1 (mem_filter.1 hc).1]
        exact ha
      rw [hnone, Option.none_or]

theorem lastStore_not_marked_iff (honce : Once (start ++ xs)) (hxs : xs = before ++ a :: after)
    (ha : ¬ marked a) (p : P) :
    lastStore (start ++ xs.filter (fun c => marked c) ++ before.filter fun c => ¬ marked c) p =
        lastStore (start ++ before) p ↔
      (∀ early b late, before = early ++ b :: late → b.StoresTo p → marked b →
        (∃ c ∈ late, c.StoresTo p ∧ ¬ marked c) ∨ ∀ c ∈ early, c.StoresTo p → marked c) ∧
      ∀ b ∈ after, b.StoresTo p → marked b → ∃ c ∈ before, c.StoresTo p ∧ ¬ marked c := by
  by_cases hstays : ∃ c ∈ before, c.StoresTo p ∧ ¬ marked c
  · -- the last store in the new order is one that stays
    obtain ⟨c, hc, hstores, hunmarked⟩ := hstays
    have hall : ∀ b ∈ after, b.StoresTo p → marked b → ∃ c ∈ before, c.StoresTo p ∧ ¬ marked c :=
      fun _ _ _ _ => ⟨c, hc, hstores, hunmarked⟩
    rcases lastStore_cases before p with hnone | ⟨early, b, late, hbefore, hb, hlate, hlast⟩
    · exact absurd hstores (hnone c hc)
    have hold : lastStore (start ++ before) p = some b.stmt := by
      rw [lastStore_append, hlast]
      rfl
    by_cases hmarked : marked b
    · refine iff_of_false ?_ fun h => ?_
      · intro heq
        rw [hold, lastStore_append] at heq
        have hfound : ∃ s, lastStore (before.filter fun c => ¬ marked c) p = some s := by
          refine Option.ne_none_iff_exists'.1 fun hnone => ?_
          exact lastStore_eq_none_iff.1 hnone c (mem_filter.2 ⟨hc, by simpa using hunmarked⟩)
            hstores
        obtain ⟨s, hs⟩ := hfound
        rw [hs] at heq
        obtain ⟨early', d, late', hsplit, hd, hstmt, -⟩ := exists_of_lastStore hs
        have hmem : d ∈ before.filter fun c => ¬ marked c := by
          rw [hsplit]
          simp
        obtain ⟨hmem, hd'⟩ := mem_filter.1 hmem
        have hwhole : start ++ xs = (start ++ early) ++ b :: (late ++ a :: after) := by
          rw [hxs, hbefore]
          simp
        refine honce.store_unique hwhole hb.1 hd.1 ?_ (hstmt.trans (Option.some.inj heq))
        rw [hbefore, mem_append, mem_cons] at hmem
        rcases hmem with hmem | rfl | hmem
        · simp [hmem]
        · exact absurd hmarked (of_decide_eq_true hd')
        · simp [hmem]
      · rcases h.1 early b late hbefore hb hmarked with ⟨d, hd, hdstores, -⟩ | hearly
        · exact hlate d hd hdstores
        · rw [hbefore, mem_append, mem_cons] at hc
          rcases hc with hc | rfl | hc
          · exact hunmarked (hearly c hc hstores)
          · exact hunmarked hmarked
          · exact hlate c hc hstores
    · refine iff_of_true ?_ ⟨fun early' b' late' hbefore' hb' hmarked' => Or.inl ?_, hall⟩
      · have hfilter : lastStore (before.filter fun c => ¬ marked c) p = some b.stmt := by
          rw [hbefore, filter_append, filter_cons_of_pos (by simpa using hmarked)]
          exact lastStore_of_late hb fun c hc => hlate c (mem_filter.1 hc).1
        rw [hold, lastStore_append, hfilter]
        rfl
      · refine ⟨b, ?_, hb, hmarked⟩
        exact exists_late_of_last hbefore hbefore' hlate hb' fun heq => hmarked (heq ▸ hmarked')
  · -- every store before the load is moved, and the last one in the new order is the last of them
    have hmoved : ∀ c ∈ before, c.StoresTo p → marked c := by
      intro c hc hstores
      by_contra hunmarked
      exact hstays ⟨c, hc, hstores, hunmarked⟩
    have hnone : lastStore (before.filter fun c => ¬ marked c) p = none := by
      refine lastStore_eq_none_iff.2 fun c hc hstores => ?_
      obtain ⟨hmem, hunmarked⟩ := mem_filter.1 hc
      exact of_decide_eq_true hunmarked (hmoved c hmem hstores)
    have hfilter : xs.filter (fun c => marked c) =
        before.filter (fun c => marked c) ++ after.filter fun c => marked c := by
      rw [hxs, filter_append, filter_cons_of_neg (by simpa using ha)]
    rw [lastStore_append, hnone, Option.none_or, hfilter, ← append_assoc, lastStore_append,
      lastStore_append start, lastStore_filter hmoved, ← lastStore_append start]
    rcases lastStore_cases (after.filter fun c => marked c) p with
      hafter | ⟨early, b, late, hsplit, hb, -, hlast⟩
    · rw [lastStore_eq_none_iff.2 hafter, Option.none_or]
      refine iff_of_true rfl ⟨fun early b late hbefore _ _ => Or.inr fun c hc => ?_, ?_⟩
      · exact hmoved c (hbefore ▸ mem_append_left _ hc)
      · intro b hb hstores hmarked
        exact absurd hstores (hafter b (mem_filter.2 ⟨hb, by simpa using hmarked⟩))
    · have hmem : b ∈ after.filter fun c => marked c := by
        rw [hsplit]
        simp
      obtain ⟨hmem, hmarked⟩ := mem_filter.1 hmem
      rw [hlast, Option.some_or]
      refine iff_of_false (fun heq => ?_) fun h => ?_
      · obtain ⟨early', c, late', hall, hc, hstmt, -⟩ := exists_of_lastStore heq.symm
        obtain ⟨before', after', rfl⟩ := append_of_mem hmem
        have hwhole : start ++ xs = (start ++ (before ++ a :: before')) ++ b :: after' := by
          rw [hxs]
          simp
        refine honce.store_unique hwhole hb.1 hc.1 ?_ hstmt
        have hcmem : c ∈ start ++ before := by
          rw [hall]
          simp
        rcases mem_append.1 hcmem with hcmem | hcmem
        · simp [hcmem]
        · simp [hcmem]
      · obtain ⟨c, hc, hstores, hunmarked⟩ := h.2 b hmem hb (of_decide_eq_true hmarked)
        exact hstays ⟨c, hc, hstores, hunmarked⟩

omit [DecidableEq P] [DecidablePred marked] in
theorem append_split {xs ys before after : List (Access P)} {a : Access P}
    (h : xs ++ ys = before ++ a :: after) :
    (∃ t, xs = before ++ a :: t) ∨ ∃ t, before = xs ++ t ∧ ys = t ++ a :: after := by
  rcases append_eq_append_iff.1 h with ⟨t, ht, ht'⟩ | ⟨t, ht, ht'⟩
  · exact Or.inr ⟨t, ht, ht'⟩
  · cases t with
    | nil => exact Or.inr ⟨[], by rw [ht, append_nil, append_nil], ht'.symm⟩
    | cons b t => exact Or.inl ⟨t, (List.cons.inj ht').1 ▸ ht⟩

omit [DecidablePred marked] in
theorem sameReads_of_perm {xs ys : List (Access P)} (honce : Once xs) (hperm : xs.Perm ys)
    (h : ∀ l source, ReadsFrom xs l source → ReadsFrom ys l source) : SameReads xs ys := by
  refine fun l source => ⟨h l source, ?_⟩
  rintro ⟨before, a, after, hys, ha, rfl, rfl⟩
  have hmem : a ∈ xs := hperm.mem_iff.2 (by rw [hys]; simp)
  obtain ⟨before', after', hxs⟩ := append_of_mem hmem
  have hreads : ReadsFrom xs a.stmt (lastStore before' a.place) :=
    (honce.readsFrom_iff hxs ha).2 rfl
  rw [← ((honce.perm hperm).readsFrom_iff hys ha).1 (h _ _ hreads)]
  exact hreads

theorem sameReads_markedFirst_iff (honce : Once (start ++ xs)) :
    SameReads (start ++ xs) (start ++ markedFirst marked xs) ↔ OrderKept marked xs := by
  have hperm : (start ++ xs).Perm (start ++ markedFirst marked xs) :=
    (markedFirst_perm marked xs).symm.append_left start
  have honce' := honce.perm hperm
  constructor
  · intro h
    have hmarked : ∀ before a after, xs = before ++ a :: after → a.isStore = false → marked a →
        lastStore (start ++ before.filter fun c => marked c) a.place =
          lastStore (start ++ before) a.place := by
      intro before a after hxs ha hmarked
      obtain ⟨rest, hnew⟩ := markedFirst_of_marked start hxs hmarked
      have hwhole : start ++ xs = (start ++ before) ++ a :: after := by
        rw [hxs, append_assoc]
      exact ((honce'.readsFrom_iff hnew ha).1
        ((h _ _).1 ((honce.readsFrom_iff hwhole ha).2 rfl))).symm
    have hunmarked : ∀ before a after, xs = before ++ a :: after → a.isStore = false →
        ¬ marked a →
        lastStore (start ++ xs.filter (fun c => marked c) ++ before.filter fun c => ¬ marked c)
          a.place = lastStore (start ++ before) a.place := by
      intro before a after hxs ha hmarked
      obtain ⟨rest, hnew⟩ := markedFirst_of_not_marked start hxs hmarked
      have hwhole : start ++ xs = (start ++ before) ++ a :: after := by
        rw [hxs, append_assoc]
      exact ((honce'.readsFrom_iff hnew ha).1
        ((h _ _).1 ((honce.readsFrom_iff hwhole ha).2 rfl))).symm
    constructor
    · intro before a after hxs ha hm
      exact (lastStore_marked_iff honce hxs a.place).1 (hmarked before a after hxs ha hm)
    · intro before a after hxs ha hm
      exact ((lastStore_not_marked_iff honce hxs hm a.place).1
        (hunmarked before a after hxs ha hm)).1
    · intro before a after hxs ha hm
      exact ((lastStore_not_marked_iff honce hxs hm a.place).1
        (hunmarked before a after hxs ha hm)).2
  · intro h
    refine sameReads_of_perm honce hperm ?_
    rintro l source ⟨before, a, after, hwhole, ha, rfl, rfl⟩
    rcases append_split hwhole with ⟨t, ht⟩ | ⟨t, rfl, ht⟩
    · have hnew : start ++ markedFirst marked xs = before ++ a :: (t ++ markedFirst marked xs) := by
        rw [ht, append_assoc, cons_append]
      exact (honce'.readsFrom_iff hnew ha).2 rfl
    · by_cases hm : marked a
      · obtain ⟨rest, hnew⟩ := markedFirst_of_marked start ht hm
        refine (honce'.readsFrom_iff hnew ha).2 ?_
        exact ((lastStore_marked_iff honce ht a.place).2 (h.of_marked t a after ht ha hm)).symm
      · obtain ⟨rest, hnew⟩ := markedFirst_of_not_marked start ht hm
        refine (honce'.readsFrom_iff hnew ha).2 ?_
        exact ((lastStore_not_marked_iff honce ht hm a.place).2
          ⟨h.of_before t a after ht ha hm, h.of_after t a after ht ha hm⟩).symm

end moved

end Quadrants.Library.TraceOrder
