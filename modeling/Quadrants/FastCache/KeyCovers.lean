import Quadrants.FastCache.Decode

namespace Quadrants.FastCache

open Quadrants.Library.Decoding List
open Quadrants.Library.StatefulLoops

section visited

variable {sig : Signature} {A : Set (List Obj)} {pruningPaths : List Text} {p : Path}

variable {h : Held} {name : Name}

theorem Fields.mem_visits_of_find
    (hflat : flatName (name :: p) ∈ pruningPaths) : ∀ {fields : Fields},
    fields.find name = some h → (name :: p, h.observe) ∈ fields.visits pruningPaths p ∧
      ∀ t o, h.object? = some (t, o) →
        o.visits pruningPaths (name :: p) ⊆ fields.visits pruningPaths p
  | .nil, hfind => by cases hfind
  | .cons slot name' value rest, hfind => by
    rw [Fields.find] at hfind
    split_ifs at hfind with hname
    · cases hfind
      subst hname
      cases slot with
      | final key =>
        refine ⟨mem_cons_self, ?_⟩
        intro t o ho
        cases ho
      | plain =>
        rw [Fields.visits, if_pos hflat]
        · refine ⟨mem_cons_self, ?_⟩
          intro t o ho
          cases ho
          exact fun v hv => mem_cons_of_mem _ (mem_append_left _ hv)
        · exact fun _ => FieldSlot.noConfusion
      | valued text =>
        rw [Fields.visits, if_pos hflat]
        · refine ⟨mem_cons_self, ?_⟩
          intro t o ho
          cases ho
          exact fun v hv => mem_cons_of_mem _ (mem_append_left _ hv)
        · exact fun _ => FieldSlot.noConfusion
    · obtain ⟨hmem, hsub⟩ := Fields.mem_visits_of_find hflat hfind
      have hrest : rest.visits pruningPaths p ⊆
          (Fields.cons slot name' value rest).visits pruningPaths p := by
        intro v hv
        cases slot with
        | final key =>
          exact mem_cons_of_mem _ hv
        | plain =>
          rw [Fields.visits]
          · split_ifs
            · exact mem_cons_of_mem _ (mem_append_right _ hv)
            · exact hv
          · exact fun _ => FieldSlot.noConfusion
        | valued text =>
          rw [Fields.visits]
          · split_ifs
            · exact mem_cons_of_mem _ (mem_append_right _ hv)
            · exact hv
          · exact fun _ => FieldSlot.noConfusion
      exact ⟨hrest hmem, fun t o ho => List.Subset.trans (hsub t o ho) hrest⟩

theorem Members.mem_visits_of_find {cls : DataOrientedClass}
    (hflat : flatName (name :: p) ∈ pruningPaths) : ∀ {members : Members},
    members.find cls name = some h → (name :: p, h.observe) ∈ members.visits pruningPaths p cls ∧
      ∀ t o, h.object? = some (t, o) →
        o.visits pruningPaths (name :: p) ⊆ members.visits pruningPaths p cls
  | .nil, hfind => by cases hfind
  | .cons slot name' value rest, hfind => by
    rw [Members.find] at hfind
    rw [Members.visits]
    split_ifs at hfind with hname
    · cases hfind
      obtain ⟨rfl, hdata⟩ := hname
      rw [if_pos ⟨hdata, hflat⟩]
      refine ⟨mem_cons_self, ?_⟩
      intro t o ho
      cases ho
      exact fun v hv => mem_cons_of_mem _ (mem_append_left _ hv)
    · obtain ⟨hmem, hsub⟩ := Members.mem_visits_of_find hflat hfind
      split_ifs
      · have hrest : rest.visits pruningPaths p cls ⊆
            (name' :: p, value.observe (cls.isTemplate slot)) ::
              (value.visits pruningPaths (name' :: p) ++ rest.visits pruningPaths p cls) :=
          fun v hv => mem_cons_of_mem _ (mem_append_right _ hv)
        exact ⟨hrest hmem, fun t o ho => List.Subset.trans (hsub t o ho) hrest⟩
      · exact ⟨hmem, hsub⟩

mutual

theorem Obj.lookup_of_mem_visits {args : List Obj} {p : Path} : ∀ (o : Obj) (h : Held) (t : Bool),
    lookupPath args sig.argMetas p = some h → h.object? = some (t, o) → o.WF →
      ∀ v ∈ o.visits pruningPaths p, observeAt args sig.argMetas v.1 = some v.2
  | .leaf _, _, _, _, _, _, v, hv => by
    cases hv
  | .dataclass cls fields, h, t, hp, ho, hwf, v, hv => by
    exact Fields.lookup_of_mem_visits fields
      (fun name h' hfind => (lookupPath_child hp ho name).trans hfind) hwf v hv
  | .dataOriented cls members, h, t, hp, ho, hwf, v, hv => by
    exact Members.lookup_of_mem_visits cls members
      (fun name h' hfind => (lookupPath_child hp ho name).trans hfind) hwf v hv

theorem Fields.lookup_of_mem_visits {args : List Obj} {p : Path} : ∀ fields : Fields,
    (∀ name h, fields.find name = some h → lookupPath args sig.argMetas (name :: p) = some h) →
      fields.WF → ∀ v ∈ fields.visits pruningPaths p, observeAt args sig.argMetas v.1 = some v.2
  | .nil, _, _, v, hv => by
    cases hv
  | .cons slot name value rest, hchild, hwf, v, hv => by
    have hself : (Fields.cons slot name value rest).find name = some (slot.held value) := by
      rw [Fields.find, if_pos rfl]
    have hlookup := hchild name _ hself
    have hrest : v ∈ rest.visits pruningPaths p → observeAt args sig.argMetas v.1 = some v.2 :=
      Fields.lookup_of_mem_visits rest
        (fun name' h hfind => hchild name' h (Fields.find_of_rest hwf hfind)) hwf.2.2 v
    have hchild : ∀ t, (slot.held value).object? = some (t, value) →
        v ∈ (if flatName (name :: p) ∈ pruningPaths then
          (name :: p, (slot.held value).observe) ::
            (value.visits pruningPaths (name :: p) ++ rest.visits pruningPaths p)
        else rest.visits pruningPaths p) → observeAt args sig.argMetas v.1 = some v.2 := by
      intro t ho hv
      split_ifs at hv
      · rcases mem_cons.mp hv with rfl | hv
        · simp [observeAt, hlookup]
        · rcases mem_append.mp hv with hv | hv
          · exact Obj.lookup_of_mem_visits value _ t hlookup ho hwf.2.1 v hv
          · exact hrest hv
      · exact hrest hv
    cases slot with
    | final key =>
      rcases mem_cons.mp hv with rfl | hv
      · simp only [observeAt, hlookup, Option.map_some]
        rfl
      · exact hrest hv
    | plain =>
      rw [Fields.visits] at hv
      · exact hchild false rfl hv
      · exact fun _ => FieldSlot.noConfusion
    | valued text =>
      rw [Fields.visits] at hv
      · exact hchild false rfl hv
      · exact fun _ => FieldSlot.noConfusion

theorem Members.lookup_of_mem_visits {args : List Obj} {p : Path} (cls : DataOrientedClass) :
    ∀ members : Members,
      (∀ name h, members.find cls name = some h →
        lookupPath args sig.argMetas (name :: p) = some h) →
      members.WF → ∀ v ∈ members.visits pruningPaths p cls,
        observeAt args sig.argMetas v.1 = some v.2
  | .nil, _, _, v, hv => by
    cases hv
  | .cons slot name value rest, hchild, hwf, v, hv => by
    have hrest : v ∈ rest.visits pruningPaths p cls →
        observeAt args sig.argMetas v.1 = some v.2 :=
      Members.lookup_of_mem_visits cls rest
        (fun name' h hfind => hchild name' h (Members.find_of_rest hwf hfind)) hwf.2.2 v
    rw [Members.visits] at hv
    split_ifs at hv with hvisit
    · have hself : (Members.cons slot name value rest).find cls name =
          some (.value (cls.isTemplate slot) value) := by
        rw [Members.find, if_pos ⟨rfl, hvisit.1⟩]
      have hlookup := hchild name _ hself
      rcases mem_cons.mp hv with rfl | hv
      · simp only [observeAt, hlookup, Option.map_some]
        rfl
      · rcases mem_append.mp hv with hv | hv
        · exact Obj.lookup_of_mem_visits value _ _ hlookup rfl hwf.2.1 v hv
        · exact hrest hv
    · exact hrest hv

end

end visited

section arguments

variable {sig : Signature} {A : Set (List Obj)} {raiseOnTemplatedFloats : Bool}

def argsVisits (pruningPaths : List Text) : List Obj → List ArgMetadata → List (Path × Obs)
  | arg :: args, argMeta :: argMetas =>
    ([argMeta.name], arg.observe argMeta.isTemplate) ::
      (arg.visits pruningPaths [argMeta.name] ++ argsVisits pruningPaths args argMetas)
  | _, _ => []

variable {args : List Obj} {h : Held} {name : Name} {pruningPaths : List Text}

theorem findArg_mem : ∀ {args : List Obj} {argMetas : List ArgMetadata},
    findArg name args argMetas = some h → name ∈ argMetas.map (·.name)
  | [], _, hfind => by simp [findArg] at hfind
  | _ :: _, [], hfind => by simp [findArg] at hfind
  | arg :: args, argMeta :: argMetas, hfind => by
    rw [findArg] at hfind
    rw [map_cons]
    split_ifs at hfind with hname
    · rw [hname]
      exact mem_cons_self
    · exact mem_cons_of_mem _ (findArg_mem hfind)

theorem findArg_of_rest {arg : Obj} {argMeta : ArgMetadata}
    {argMetas : List ArgMetadata} (hnodup : ((argMeta :: argMetas).map (·.name)).Nodup)
    (hfind : findArg name args argMetas = some h) :
    findArg name (arg :: args) (argMeta :: argMetas) = some h := by
  rw [findArg, if_neg, hfind]
  rintro rfl
  exact (nodup_cons.mp hnodup).1 (findArg_mem hfind)

theorem argsVisits_eq (hA : Legible sig A) {args' : List Obj} (hargs : args ∈ A)
    (hargs' : args' ∈ A) {pruningPaths' : List Text} :
    ∀ {as as' : List Obj} {argMetas : List ArgMetadata} {hashes hashes' : List Text},
      (argMetas.map (·.name)).Nodup → as.length = argMetas.length → as'.length = argMetas.length →
      (∀ name h, findArg name as argMetas = some h → lookupPath args sig.argMetas [name] = some h) →
      (∀ name h, findArg name as' argMetas = some h →
        lookupPath args' sig.argMetas [name] = some h) →
      (∀ o ∈ as, o.WF) → (∀ o ∈ as', o.WF) →
      stringifyArgs raiseOnTemplatedFloats pruningPaths as argMetas = .ok hashes →
      stringifyArgs raiseOnTemplatedFloats pruningPaths' as' argMetas = .ok hashes' →
      joinStrings hashes = joinStrings hashes' →
        argsVisits pruningPaths as argMetas = argsVisits pruningPaths' as' argMetas
  | [], [], _, _, _, _, _, _, _, _, _, _, _, _, _ => by
    simp only [argsVisits]
  | [], _ :: _, _, _, _, _, hlen, hlen', _, _, _, _, _, _, _ => by
    rw [← hlen] at hlen'
    cases hlen'
  | _ :: _, [], _, _, _, _, hlen, hlen', _, _, _, _, _, _, _ => by
    rw [← hlen'] at hlen
    cases hlen
  | _ :: _, _ :: _, [], _, _, _, hlen, _, _, _, _, _, _, _, _ => by cases hlen
  | arg :: as, arg' :: as', argMeta :: argMetas, hashes, hashes', hnodup, hlen, hlen', hfind, hfind',
      hwf, hwf', hs, hs', heq => by
      simp only [stringifyArgs, bind_eq_ok, pure_eq_ok] at hs hs'
      obtain ⟨s, htext, rest, hrest, rfl⟩ := hs
      obtain ⟨s', htext', rest', hrest', rfl⟩ := hs'
      rw [forall_mem_cons] at hwf hwf'
      simp only [joinStrings, flatMap_cons, append_assoc] at heq
      have hself : findArg argMeta.name (arg :: as) (argMeta :: argMetas) =
          some (.value argMeta.isTemplate arg) := by
        rw [findArg, if_pos rfl]
      have hself' : findArg argMeta.name (arg' :: as') (argMeta :: argMetas) =
          some (.value argMeta.isTemplate arg') := by
        rw [findArg, if_pos rfl]
      have hfollow : ∀ (o : Obj) (x : Text), StartsIn o.follow ("_".toList ++ x) := by
        intro o x
        cases o with
        | leaf l => exact Or.inr (Or.inr rfl)
        | dataclass cls fields => exact Or.inr (Or.inr rfl)
        | dataOriented cls members => exact Or.inr rfl
      have hst : Stands sig A raiseOnTemplatedFloats pruningPaths [argMeta.name]
          argMeta.isTemplate arg s ("_".toList ++ joinStrings rest) :=
        ⟨⟨args, hargs, _, hfind _ _ hself, rfl⟩, hwf.1, htext, hfollow _ _⟩
      have hst' : Stands sig A raiseOnTemplatedFloats pruningPaths' [argMeta.name]
          argMeta.isTemplate arg' s' ("_".toList ++ joinStrings rest') :=
        ⟨⟨args', hargs', _, hfind' _ _ hself', rfl⟩, hwf'.1, htext', hfollow _ _⟩
      obtain ⟨hobs, hvisits, htail⟩ := readsBack hA _ hst hst' (Nat.lt_succ_self _) heq
      have hothers := argsVisits_eq hA hargs hargs' (nodup_cons.mp hnodup).2
        (Nat.succ.inj hlen) (Nat.succ.inj hlen')
        (fun name h hf => hfind name h (findArg_of_rest hnodup hf))
        (fun name h hf => hfind' name h (findArg_of_rest hnodup hf)) hwf.2 hwf'.2 hrest hrest'
        (append_cancel_left htail)
      rw [argsVisits, argsVisits, hobs, hvisits, hothers]

theorem findArg_visits (pruningPaths : List Text) :
    ∀ {args : List Obj} {argMetas : List ArgMetadata}, findArg name args argMetas = some h →
      ([name], h.observe) ∈ argsVisits pruningPaths args argMetas ∧
        ∀ t o, h.object? = some (t, o) →
          o.visits pruningPaths [name] ⊆ argsVisits pruningPaths args argMetas
  | [], _, hfind => by simp [findArg] at hfind
  | _ :: _, [], hfind => by simp [findArg] at hfind
  | arg :: args, argMeta :: argMetas, hfind => by
    rw [findArg] at hfind
    split_ifs at hfind with hname
    · cases hfind
      subst hname
      refine ⟨mem_cons_self, ?_⟩
      intro t o ho
      cases ho
      exact fun v hv => mem_cons_of_mem _ (mem_append_left _ hv)
    · obtain ⟨hmem, hsub⟩ := findArg_visits pruningPaths hfind
      refine ⟨mem_cons_of_mem _ (mem_append_right _ hmem), ?_⟩
      intro t o ho v hv
      exact mem_cons_of_mem _ (mem_append_right _ (hsub t o ho hv))

theorem mem_argsVisits : ∀ {p : Path} {h : Held},
    lookupPath args sig.argMetas p = some h →
      (∀ q ∈ ancestors p, flatName q ∈ pruningPaths) →
        (p, h.observe) ∈ argsVisits pruningPaths args sig.argMetas ∧
          ∀ t o, h.object? = some (t, o) →
            o.visits pruningPaths p ⊆ argsVisits pruningPaths args sig.argMetas
  | [], _, hp, _ => by cases hp
  | [arg], _, hp, _ => findArg_visits pruningPaths hp
  | name :: parent :: p, h, hp, hflat => by
    rw [lookupPath_cons (cons_ne_nil _ _), Option.bind_eq_some_iff] at hp
    obtain ⟨held, hparent, hchild⟩ := hp
    rw [ancestors, forall_mem_cons] at hflat
    · obtain ⟨_, hsub⟩ := mem_argsVisits hparent hflat.2
      have hobj : ∃ t o, held.object? = some (t, o) ∧ o.child name = some h := by
        cases held with
        | value t o => exact ⟨t, o, rfl, hchild⟩
        | valued text o => exact ⟨false, o, rfl, hchild⟩
        | final key => cases hchild
      obtain ⟨t, o, ho, hfind⟩ := hobj
      have hvisits := hsub t o ho
      have hmem : (name :: parent :: p, h.observe) ∈ o.visits pruningPaths (parent :: p) ∧
          ∀ t' o', h.object? = some (t', o') → o'.visits pruningPaths (name :: parent :: p) ⊆
            o.visits pruningPaths (parent :: p) := by
        cases o with
        | leaf l => cases hfind
        | dataclass cls fields =>
          exact Fields.mem_visits_of_find hflat.1 hfind
        | dataOriented cls members =>
          exact Members.mem_visits_of_find hflat.1 hfind
      exact ⟨hvisits hmem.1, fun t' o' ho' => List.Subset.trans (hmem.2 t' o' ho') hvisits⟩
    · exact cons_ne_nil _ _

theorem observeAt_of_mem :
    ∀ {as : List Obj} {argMetas : List ArgMetadata}, (argMetas.map (·.name)).Nodup →
      (∀ name h, findArg name as argMetas = some h → lookupPath args sig.argMetas [name] = some h) →
      (∀ o ∈ as, o.WF) → ∀ v ∈ argsVisits pruningPaths as argMetas,
        observeAt args sig.argMetas v.1 = some v.2
  | [], _, _, _, _, v, hv => by simp [argsVisits] at hv
  | _ :: _, [], _, _, _, v, hv => by simp [argsVisits] at hv
  | arg :: as, argMeta :: argMetas, hnodup, hfind, hwf, v, hv => by
    rw [forall_mem_cons] at hwf
    have hself : findArg argMeta.name (arg :: as) (argMeta :: argMetas) =
        some (.value argMeta.isTemplate arg) := by
      rw [findArg, if_pos rfl]
    have hlookup := hfind _ _ hself
    rcases mem_cons.mp hv with rfl | hv
    · simp only [observeAt, hlookup, Option.map_some]
      rfl
    · rcases mem_append.mp hv with hv | hv
      · exact Obj.lookup_of_mem_visits arg _ _ hlookup rfl hwf.1 v hv
      · exact observeAt_of_mem (nodup_cons.mp hnodup).2
          (fun name h hf => hfind name h (findArg_of_rest hnodup hf)) hwf.2 v hv

end arguments

section compile

variable {sig : Signature} {A : Set (List Obj)} {raiseOnTemplatedFloats : Bool} {α : Type}

variable {args args' : List Obj} {p : Path} {pruningPaths : List Text}

theorem observeAt_eq_of_hashArgs (hA : Legible sig A) {sha256 : Text → Text}
    (hsha : Function.Injective sha256) (hargs : args ∈ A)
    (hargs' : args' ∈ A) {pruningPaths' : List Text} {digest : Text}
    (hkey : hashArgs sha256 raiseOnTemplatedFloats args sig.argMetas pruningPaths = .ok digest)
    (hkey' : hashArgs sha256 raiseOnTemplatedFloats args' sig.argMetas pruningPaths' = .ok digest)
    (hp : ∀ q ∈ ancestors p, flatName q ∈ pruningPaths) {obs : Obs}
    (hobs : observeAt args sig.argMetas p = some obs) :
    observeAt args' sig.argMetas p = some obs := by
  simp only [hashArgs] at hkey hkey'
  split_ifs at hkey with hlen
  split_ifs at hkey' with hlen'
  simp only [bind_eq_ok, pure_eq_ok] at hkey hkey'
  obtain ⟨hashes, hs, rfl⟩ := hkey
  obtain ⟨hashes', hs', hdigest⟩ := hkey'
  have hvisits := argsVisits_eq hA hargs hargs' sig.nodup (not_not.mp hlen) (not_not.mp hlen')
    (fun _ _ h => h) (fun _ _ h => h) (hA.wf args hargs) (hA.wf args' hargs') hs hs'
    (hsha hdigest.symm)
  rw [observeAt, Option.map_eq_some_iff] at hobs
  obtain ⟨held, hlookup, rfl⟩ := hobs
  have hmem := (mem_argsVisits hlookup hp).1
  rw [hvisits] at hmem
  exact observeAt_of_mem sig.nodup (fun _ _ h => h) (hA.wf args' hargs') _ hmem

theorem usedNames_cover {reads : List Path} (h : usedNames reads ⊆ pruningPaths) (hp : p ∈ reads) :
    ∀ q ∈ ancestors p, flatName q ∈ pruningPaths := by
  intro q hq
  apply h
  exact mem_flatMap.mpr ⟨p, hp, mem_map_of_mem hq⟩

theorem Compile.run_congr : ∀ {c : Compile α} {artifact : α}
    {reads : List Path}, c.run args sig.argMetas = some (artifact, reads) →
      (∀ p ∈ reads, ∀ obs, observeAt args sig.argMetas p = some obs →
        observeAt args' sig.argMetas p = some obs) →
      c.run args' sig.argMetas = some (artifact, reads)
  | .done _, _, _, hrun, _ => hrun
  | .read path next, artifact, reads, hrun, hagree => by
    rw [Compile.run] at hrun ⊢
    cases hobs : observeAt args sig.argMetas path with
    | none =>
      rw [hobs] at hrun
      cases hrun
    | some obs =>
      simp only [hobs, Option.map_eq_some_iff] at hrun
      obtain ⟨⟨artifact', reads'⟩, hnext, heq⟩ := hrun
      cases heq
      rw [forall_mem_cons] at hagree
      rw [hagree.1 obs hobs]
      simp [Compile.run_congr hnext hagree.2]

end compile

end Quadrants.FastCache
