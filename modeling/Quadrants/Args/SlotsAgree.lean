import Quadrants.Args.Slots

namespace Quadrants.Args

open List

open Template (Attr createFlatName)

theorem bind_eq_ok {α β : Type} {x : Except Failure α} {f : α → Except Failure β} {result : β} :
    (x >>= f) = .ok result ↔ ∃ a, x = .ok a ∧ f a = .ok result := by
  cases x with
  | error failure => simp [Bind.bind, Except.bind]
  | ok a => simp [Bind.bind, Except.bind]

section Leaf

variable {index : ℕ} {type : ParamType} {value : Value} {bounds : List Bound}

theorem bindNdarray_ok (hbounds : bindNdarray index value = .ok bounds) :
    bounds.length = 1 ∧ ∀ index', bindNdarray index' value = .ok bounds := by
  unfold bindNdarray at hbounds ⊢
  split at hbounds
  · obtain rfl := Except.ok.inj hbounds
    exact ⟨rfl, fun _ => rfl⟩
  · obtain rfl := Except.ok.inj hbounds
    exact ⟨rfl, fun _ => rfl⟩
  · obtain rfl := Except.ok.inj hbounds
    exact ⟨rfl, fun _ => rfl⟩
  · cases hbounds

def leafSlots (type : ParamType) (isArray : Bool) : ℕ :=
  match type with
  | .tensor => if isArray then 1 else 0
  | .template => 0
  | .bufferView => 3
  | _ => 1

theorem bindLeaf_ok (hbounds : bindLeaf index type value = .ok bounds) :
    bounds.length = leafSlots type value.isArray ∧
      ∀ index', bindLeaf index' type value = .ok bounds := by
  unfold bindLeaf at hbounds ⊢
  cases type with
  | ndarray => exact bindNdarray_ok hbounds
  | template =>
    obtain rfl := Except.ok.inj hbounds
    exact ⟨rfl, fun _ => rfl⟩
  | tensor =>
    cases harray : value.isArray with
    | true =>
      rw [harray] at hbounds
      exact bindNdarray_ok hbounds
    | false =>
      rw [harray] at hbounds
      obtain rfl := Except.ok.inj hbounds
      exact ⟨rfl, fun _ => rfl⟩
  | dataclass cls frozen fields => cases hbounds
  | real =>
    cases value with
    | number isFloat value =>
      obtain rfl := Except.ok.inj hbounds
      exact ⟨rfl, fun _ => rfl⟩
    | _ => cases hbounds
  | integer signed =>
    cases value with
    | number isFloat value =>
      cases isFloat with
      | true => cases hbounds
      | false =>
        obtain rfl := Except.ok.inj hbounds
        exact ⟨rfl, fun _ => rfl⟩
    | _ => cases hbounds
  | compound =>
    cases value with
    | compound id =>
      obtain rfl := Except.ok.inj hbounds
      exact ⟨rfl, fun _ => rfl⟩
    | _ => cases hbounds
  | bufferView =>
    cases value with
    | bufferView arr offset size =>
      obtain rfl := Except.ok.inj hbounds
      exact ⟨rfl, fun _ => rfl⟩
    | _ => cases hbounds
  | sparseMatrixBuilder =>
    cases value with
    | builder address =>
      obtain rfl := Except.ok.inj hbounds
      exact ⟨rfl, fun _ => rfl⟩
    | _ => cases hbounds

theorem declAndCreateVariable_eq {features : Features} (param : ℕ) (path : List Attr)
    (htype : ∀ cls frozen fields, type ≠ .dataclass cls frozen fields)
    (hfeatures : type.features value = .ok features) :
    declAndCreateVariable param type path features =
      (List.range (leafSlots type value.unwrap.isArray)).map fun part =>
        ⟨param, path, type, part⟩ := by
  cases type with
  | dataclass cls frozen fields => exact absurd rfl (htype cls frozen fields)
  | tensor =>
    obtain rfl := Except.ok.inj hfeatures
    cases value.unwrap.isArray <;> rfl
  | _ =>
    obtain rfl := Except.ok.inj hfeatures
    rfl

end Leaf

/-- What a call of `_recursive_set_args` has done: the slots from `index` on are bound, each to the
value at its place in the argument. -/
structure Sets (owners : List Owner) (path : List Attr) (value : Value) (index : ℕ)
    (result : ℕ × List Binding) : Prop where
  count : result.1 = owners.length
  slots : result.2.map (fun binding => (binding.owner, binding.index)) = owners.zipIdx index
  values : ∀ binding ∈ result.2, ∃ rest leaf bounds, binding.owner.path = path ++ rest ∧
    value.follow rest = some leaf ∧ bindLeaf 0 binding.owner.type leaf = .ok bounds ∧
    bounds[binding.owner.part]? = some binding.value

section Sets

variable {used : List String} {param : ℕ}

variable {index : ℕ} {path : List Attr} {value : Value}

theorem sets_leaf {type : ParamType} {name : String}
    {depth : ℕ} {features : Features} {result : ℕ × List Binding}
    (htype : ∀ cls frozen fields, type ≠ .dataclass cls frozen fields)
    (hfeatures : type.features value = .ok features)
    (hresult : recursiveSetArgs used param type name path value index depth = .ok result) :
    Sets (transformKernelArg used param type name path features) path value index result := by
  have hset : ∃ bounds, bindLeaf index type value.unwrap = .ok bounds ∧
      result = (bounds.length, bounds.zipIdx.map fun b =>
        ⟨index + b.2, ⟨param, path, type, b.2⟩, b.1⟩) := by
    rw [recursiveSetArgs] at hresult
    · split at hresult
      · cases hresult
      · obtain ⟨bounds, hbounds, hresult⟩ := bind_eq_ok.mp hresult
        exact ⟨bounds, hbounds, (Except.ok.inj hresult).symm⟩
    · exact htype
  have howners : transformKernelArg used param type name path features =
      (List.range (leafSlots type value.unwrap.isArray)).map fun part =>
        ⟨param, path, type, part⟩ := by
    rw [transformKernelArg]
    · exact declAndCreateVariable_eq param path htype hfeatures
    · exact htype
  obtain ⟨bounds, hbounds, rfl⟩ := hset
  obtain ⟨hlength, hindex⟩ := bindLeaf_ok hbounds
  rw [howners, ← hlength]
  refine ⟨by simp, ?_, ?_⟩
  · apply ext_getElem
    · simp
    · simp
  · intro binding hbinding
    obtain ⟨⟨bound, part⟩, hmem, rfl⟩ := mem_map.mp hbinding
    refine ⟨[], value.unwrap, bounds, (append_nil _).symm, rfl, hindex 0, ?_⟩
    exact mem_zipIdx_iff_getElem?.mp hmem

theorem Sets.append {owners others : List Owner} {field : Attr}
    {member : Value} {count count' : ℕ} {bindings rest : List Binding}
    (hmember : value.unwrap.getattr field = some member)
    (hfirst : Sets owners (path ++ [field]) member index (count, bindings))
    (hrest : Sets others path value (index + count) (count', rest)) :
    Sets (owners ++ others) path value index (count + count', bindings ++ rest) := by
  refine ⟨?_, ?_, ?_⟩
  · rw [length_append, ← hfirst.count, ← hrest.count]
  · rw [map_append, zipIdx_append, hfirst.slots, hrest.slots, ← hfirst.count]
  · intro binding hbinding
    rcases mem_append.mp hbinding with hbinding | hbinding
    · obtain ⟨tail, leaf, bounds, hpath, hleaf, hbounds, hbound⟩ := hfirst.values binding hbinding
      refine ⟨field :: tail, leaf, bounds, ?_, ?_, hbounds, hbound⟩
      · rw [hpath, append_assoc, singleton_append]
      · rw [Value.follow, hmember]
        exact hleaf
    · exact hrest.values binding hbinding

theorem getAttribute_ok {member : Value} {name : Attr}
    (hmember : getAttribute value name = .ok member) : value.getattr name = some member := by
  unfold getAttribute at hmember
  split at hmember
  · rename_i hattr
    rw [hattr, Except.ok.inj hmember]
  · cases hmember

theorem sets_nil : Sets [] path value index (0, []) :=
  ⟨rfl, rfl, fun _ hbinding => nomatch hbinding⟩

theorem mutable_no_final {frozen : Bool} {cls : ℕ} {fields : Fields} {features : Features}
    (hfeatures : (ParamType.dataclass cls frozen fields).features value = .ok features) :
    (frozen = true ∨ fields.hasFinal = false) ∧
      ∃ entries, fields.features value.unwrap = .ok entries ∧ features = .tuple entries := by
  rw [ParamType.features] at hfeatures
  split at hfeatures
  · cases hfeatures
  · rename_i hfinal
    obtain ⟨entries, hentries, htuple⟩ := bind_eq_ok.mp hfeatures
    refine ⟨?_, entries, hentries, (Except.ok.inj htuple).symm⟩
    cases frozen with
    | true => exact Or.inl rfl
    | false => exact Or.inr (by simpa using hfinal)

mutual

theorem recursiveSetArgs_sets : ∀ (type : ParamType) {name : String} {path : List Attr}
    {value : Value} {index depth : ℕ} {features : Features} {result : ℕ × List Binding},
    type.features value = .ok features →
    recursiveSetArgs used param type name path value index depth = .ok result →
    Sets (transformKernelArg used param type name path features) path value index result
  | .dataclass cls frozen fields, name, path, value, index, depth, features, result,
      hfeatures, hresult => by
      obtain ⟨hfinal, entries, hentries, rfl⟩ := mutable_no_final hfeatures
      rw [recursiveSetArgs] at hresult
      split at hresult
      · cases hresult
      · obtain ⟨-, -, hresult⟩ := bind_eq_ok.mp hresult
        exact setFields_sets fields hfinal hentries hresult
  | .real, _, _, _, _, _, _, _, hfeatures, hresult =>
    sets_leaf (fun _ _ _ heq => nomatch heq) hfeatures hresult
  | .integer _, _, _, _, _, _, _, _, hfeatures, hresult =>
    sets_leaf (fun _ _ _ heq => nomatch heq) hfeatures hresult
  | .compound, _, _, _, _, _, _, _, hfeatures, hresult =>
    sets_leaf (fun _ _ _ heq => nomatch heq) hfeatures hresult
  | .ndarray, _, _, _, _, _, _, _, hfeatures, hresult =>
    sets_leaf (fun _ _ _ heq => nomatch heq) hfeatures hresult
  | .bufferView, _, _, _, _, _, _, _, hfeatures, hresult =>
    sets_leaf (fun _ _ _ heq => nomatch heq) hfeatures hresult
  | .sparseMatrixBuilder, _, _, _, _, _, _, _, hfeatures, hresult =>
    sets_leaf (fun _ _ _ heq => nomatch heq) hfeatures hresult
  | .tensor, _, _, _, _, _, _, _, hfeatures, hresult =>
    sets_leaf (fun _ _ _ heq => nomatch heq) hfeatures hresult
  | .template, _, _, _, _, _, _, _, hfeatures, hresult =>
    sets_leaf (fun _ _ _ heq => nomatch heq) hfeatures hresult

theorem setFields_sets : ∀ (fields : Fields) {frozen : Bool} {name : String} {path : List Attr}
    {value : Value} {index depth : ℕ} {entries : List Features} {result : ℕ × List Binding},
    frozen = true ∨ fields.hasFinal = false → fields.features value.unwrap = .ok entries →
    setFields used param frozen fields name path value.unwrap index depth = .ok result →
    Sets (transformFields used param fields name path entries) path value index result
  | .nil, _, _, _, _, _, _, _, _, _, _, hresult => by
    rw [← Except.ok.inj hresult]
    exact sets_nil
  | .cons field isFinal type rest, frozen, name, path, value, index, depth, entries, result,
      hfinal, hentries, hresult => by
      obtain ⟨member, hmember, hentries⟩ := bind_eq_ok.mp hentries
      obtain ⟨entry, hentry, hentries⟩ := bind_eq_ok.mp hentries
      obtain ⟨others, hothers, hentries⟩ := bind_eq_ok.mp hentries
      obtain rfl := Except.ok.inj hentries
      have hskip : (frozen && isFinal) = isFinal ∧ (frozen = true ∨ rest.hasFinal = false) := by
        rcases hfinal with rfl | hfinal
        · exact ⟨rfl, Or.inl rfl⟩
        · rw [Fields.hasFinal, Bool.or_eq_false_iff] at hfinal
          exact ⟨by rw [hfinal.1, Bool.and_false], Or.inr hfinal.2⟩
      rw [setFields, hskip.1] at hresult
      rw [transformFields]
      split at hresult
      · rename_i hunused
        rw [if_pos hunused]
        exact setFields_sets rest hskip.2 hothers hresult
      · rename_i hused
        have hlive : isFinal = false := by
          cases isFinal with
          | false => rfl
          | true => simp at hused
        rw [hlive] at hentry
        rw [if_neg hused]
        obtain ⟨member', hmember', hresult⟩ := bind_eq_ok.mp hresult
        obtain rfl := Except.ok.inj (hmember.symm.trans hmember')
        obtain ⟨⟨count, bindings⟩, hfirst, hresult⟩ := bind_eq_ok.mp hresult
        obtain ⟨⟨count', rest'⟩, hrest, hresult⟩ := bind_eq_ok.mp hresult
        rw [← Except.ok.inj hresult]
        exact Sets.append (getAttribute_ok hmember) (recursiveSetArgs_sets type hentry hfirst)
          (setFields_sets rest hskip.2 hothers hrest)

end

end Sets

theorem param_of_mem_declAndCreateVariable {param : ℕ} {type : ParamType} {path : List Attr}
    {features : Features} {owner : Owner}
    (howner : owner ∈ declAndCreateVariable param type path features) : owner.param = param := by
  unfold declAndCreateVariable at howner
  split at howner
  · cases howner
  · rw [mem_singleton.mp howner]
  · cases howner
  · cases howner
  · rcases mem_cons.mp howner with rfl | howner
    · rfl
    · rcases mem_cons.mp howner with rfl | howner
      · rfl
      · rw [mem_singleton.mp howner]
  · rw [mem_singleton.mp howner]

section Kept

variable {used after : List String} {param : ℕ}

theorem append_eq_append_iff_of_sublist {α : Type} {xs ys xs' ys' : List α}
    (hxs : List.Sublist xs xs') (hys : List.Sublist ys ys') :
    xs ++ ys = xs' ++ ys' ↔ xs = xs' ∧ ys = ys' := by
  constructor
  · intro heq
    have hlength := congrArg List.length heq
    rw [length_append, length_append] at hlength
    have hx := hxs.length_le
    have hy := hys.length_le
    exact append_inj heq (by omega)
  · rintro ⟨rfl, rfl⟩
    rfl

mutual

theorem transformKernelArg_sublist (hused : used ⊆ after) : ∀ (type : ParamType) (name : String)
    (path : List Attr) (features : Features),
    List.Sublist (transformKernelArg used param type name path features)
      (transformKernelArg after param type name path features)
  | .dataclass _ _ fields, name, path, features => by
    exact transformFields_sublist hused fields name path features.entries
  | .real, _, _, _ => by simp [transformKernelArg]
  | .integer _, _, _, _ => by simp [transformKernelArg]
  | .compound, _, _, _ => by simp [transformKernelArg]
  | .ndarray, _, _, _ => by simp [transformKernelArg]
  | .bufferView, _, _, _ => by simp [transformKernelArg]
  | .sparseMatrixBuilder, _, _, _ => by simp [transformKernelArg]
  | .tensor, _, _, _ => by simp [transformKernelArg]
  | .template, _, _, _ => by simp [transformKernelArg]

theorem transformFields_sublist (hused : used ⊆ after) : ∀ (fields : Fields) (name : String)
    (path : List Attr) (features : List Features),
    List.Sublist (transformFields used param fields name path features)
      (transformFields after param fields name path features)
  | .nil, _, _, _ => by
    rw [transformFields, transformFields]
  | .cons field isFinal type rest, name, path, features => by
    rw [transformFields, transformFields]
    refine List.Sublist.append ?_ (transformFields_sublist hused rest name path features.tail)
    by_cases hmem : createFlatName name field ∈ used
    · have hsub := transformKernelArg_sublist hused type (createFlatName name field)
        (path ++ [field]) (features.headD .plain)
      cases isFinal <;> simp [hmem, hused hmem, hsub, -List.headD_eq_head?_getD]
    · simp [hmem]

end

theorem declAndCreateVariable_eq_nil_iff {type : ParamType} {path : List Attr}
    {features : Features} (htype : ∀ cls frozen fields, type ≠ .dataclass cls frozen fields) :
    declAndCreateVariable param type path features = [] ↔ takesSlot type features = false := by
  cases type with
  | dataclass cls frozen fields => exact absurd rfl (htype cls frozen fields)
  | tensor =>
    cases features with
    | marked isNdarray => cases isNdarray <;> simp [declAndCreateVariable, takesSlot]
    | _ => simp [declAndCreateVariable, takesSlot]
  | _ => cases features <;> simp [declAndCreateVariable, takesSlot]

mutual

theorem transformKernelArg_eq_nil_iff : ∀ (type : ParamType) (name : String) (path : List Attr)
    (features : Features),
    transformKernelArg used param type name path features = [] ↔
      type.takesSlots used name features = false
  | .dataclass _ _ fields, name, path, features => by
    exact transformFields_eq_nil_iff fields name path features.entries
  | .real, _, _, _ => declAndCreateVariable_eq_nil_iff (fun _ _ _ heq => nomatch heq)
  | .integer _, _, _, _ => declAndCreateVariable_eq_nil_iff (fun _ _ _ heq => nomatch heq)
  | .compound, _, _, _ => declAndCreateVariable_eq_nil_iff (fun _ _ _ heq => nomatch heq)
  | .ndarray, _, _, _ => declAndCreateVariable_eq_nil_iff (fun _ _ _ heq => nomatch heq)
  | .bufferView, _, _, _ => declAndCreateVariable_eq_nil_iff (fun _ _ _ heq => nomatch heq)
  | .sparseMatrixBuilder, _, _, _ =>
    declAndCreateVariable_eq_nil_iff (fun _ _ _ heq => nomatch heq)
  | .tensor, _, _, _ => declAndCreateVariable_eq_nil_iff (fun _ _ _ heq => nomatch heq)
  | .template, _, _, _ => declAndCreateVariable_eq_nil_iff (fun _ _ _ heq => nomatch heq)

theorem transformFields_eq_nil_iff : ∀ (fields : Fields) (name : String) (path : List Attr)
    (features : List Features),
    transformFields used param fields name path features = [] ↔
      fields.takesSlots used name features = false
  | .nil, _, _, _ => by simp [transformFields, Fields.takesSlots]
  | .cons field isFinal type rest, name, path, features => by
    have hfirst := transformKernelArg_eq_nil_iff type (createFlatName name field)
      (path ++ [field]) (features.headD .plain)
    have hrest := transformFields_eq_nil_iff rest name path features.tail
    rw [transformFields, Fields.takesSlots, append_eq_nil_iff, Bool.or_eq_false_iff, hrest]
    refine and_congr_left fun _ => ?_
    by_cases hmem : createFlatName name field ∈ used
    · cases isFinal <;> simp [hmem, hfirst, -List.headD_eq_head?_getD]
    · simp [hmem]

end

mutual

theorem transformKernelArg_eq_iff (hused : used ⊆ after) : ∀ (type : ParamType) (name : String)
    (path : List Attr) (features : Features),
    transformKernelArg used param type name path features =
        transformKernelArg after param type name path features ↔
      type.Kept used after name features
  | .dataclass _ _ fields, name, path, features => by
    exact transformFields_eq_iff hused fields name path features.entries
  | .real, _, _, _ => by simp [transformKernelArg, ParamType.Kept]
  | .integer _, _, _, _ => by simp [transformKernelArg, ParamType.Kept]
  | .compound, _, _, _ => by simp [transformKernelArg, ParamType.Kept]
  | .ndarray, _, _, _ => by simp [transformKernelArg, ParamType.Kept]
  | .bufferView, _, _, _ => by simp [transformKernelArg, ParamType.Kept]
  | .sparseMatrixBuilder, _, _, _ => by simp [transformKernelArg, ParamType.Kept]
  | .tensor, _, _, _ => by simp [transformKernelArg, ParamType.Kept]
  | .template, _, _, _ => by simp [transformKernelArg, ParamType.Kept]

theorem transformFields_eq_iff (hused : used ⊆ after) : ∀ (fields : Fields) (name : String)
    (path : List Attr) (features : List Features),
    transformFields used param fields name path features =
        transformFields after param fields name path features ↔
      fields.Kept used after name features
  | .nil, _, _, _ => by simp [transformFields, Fields.Kept]
  | .cons field isFinal type rest, name, path, features => by
    have hsub := @transformKernelArg_sublist used after param hused type
      (createFlatName name field) (path ++ [field]) (features.headD .plain)
    have hiff := transformKernelArg_eq_iff hused type (createFlatName name field)
      (path ++ [field]) (features.headD .plain)
    have hnil := @transformKernelArg_eq_nil_iff after param type (createFlatName name field)
      (path ++ [field]) (features.headD .plain)
    have hrest := transformFields_eq_iff hused rest name path features.tail
    rw [transformFields, transformFields, Fields.Kept, ← hrest,
      append_eq_append_iff_of_sublist ?_ (transformFields_sublist hused rest name path _)]
    · refine and_congr_left fun _ => ?_
      by_cases hmem : createFlatName name field ∈ used
      · cases isFinal <;> simp [hmem, hused hmem, hiff, -List.headD_eq_head?_getD]
      · by_cases hafter : createFlatName name field ∈ after
        · cases isFinal <;>
            simp [hmem, hafter, ← hnil, @eq_comm _ [], -List.headD_eq_head?_getD]
        · cases isFinal <;> simp [hmem, hafter]
    · by_cases hmem : createFlatName name field ∈ used
      · cases isFinal <;> simp [hmem, hused hmem, hsub, -List.headD_eq_head?_getD]
      · simp [hmem]

end

mutual

theorem param_of_mem_transformKernelArg : ∀ (type : ParamType) {name : String} {path : List Attr}
    {features : Features} {owner : Owner},
    owner ∈ transformKernelArg used param type name path features → owner.param = param
  | .dataclass _ _ fields, _, _, _, _, howner => by
    exact param_of_mem_transformFields fields howner
  | .real, _, _, features, _, howner => param_of_mem_declAndCreateVariable howner
  | .integer _, _, _, features, _, howner => param_of_mem_declAndCreateVariable howner
  | .compound, _, _, features, _, howner => param_of_mem_declAndCreateVariable howner
  | .ndarray, _, _, features, _, howner => param_of_mem_declAndCreateVariable howner
  | .bufferView, _, _, features, _, howner => param_of_mem_declAndCreateVariable howner
  | .sparseMatrixBuilder, _, _, features, _, howner => param_of_mem_declAndCreateVariable howner
  | .tensor, _, _, features, _, howner => param_of_mem_declAndCreateVariable howner
  | .template, _, _, features, _, howner => param_of_mem_declAndCreateVariable howner

theorem param_of_mem_transformFields : ∀ (fields : Fields) {name : String} {path : List Attr}
    {features : List Features} {owner : Owner},
    owner ∈ transformFields used param fields name path features → owner.param = param
  | .nil, _, _, _, _, howner => by
    cases howner
  | .cons field isFinal type rest, _, _, _, _, howner => by
    rcases mem_append.mp howner with howner | howner
    · split at howner
      · cases howner
      · exact param_of_mem_transformKernelArg type howner
    · exact param_of_mem_transformFields rest howner

end

end Kept

section Launch

variable {used after : List String} {allFieldCached : ℕ → Bool}

def launchOwners (used : List String) (allFieldCached : ℕ → Bool) :
    List Param → List Value → List Features → ℕ → List Owner
  | param :: params, value :: values, entry :: features, i =>
    (if skipsAllField (allFieldCached i) param.type value then []
      else transformKernelArg used i param.type param.name [] entry) ++
      launchOwners used allFieldCached params values features (i + 1)
  | _, _, _, _ => []

variable {bindings : List Binding} {i index : ℕ} {owners : List Owner} {value : Value}
variable {values : List Value}

theorem extractFeatures_cons {param : Param} {params : List Param} {features : List Features}
    (hfeatures : extractFeatures (param :: params) (value :: values) = .ok features) :
    ∃ entry entries, features = entry :: entries ∧ extractFeatures params values = .ok entries ∧
      (if param.isAbsent value then .ok .absent else param.type.features value :
        Except Failure Features) = .ok entry := by
  obtain ⟨entry, hentry, hfeatures⟩ := bind_eq_ok.mp hfeatures
  obtain ⟨entries, hentries, hfeatures⟩ := bind_eq_ok.mp hfeatures
  exact ⟨entry, entries, (Except.ok.inj hfeatures).symm, hentries, hentry⟩

theorem transformKernelArg_absent {param : Param} (habsent : param.isAbsent value = true) :
    transformKernelArg used i param.type param.name [] .absent = [] := by
  unfold Param.isAbsent at habsent
  split at habsent
  · rename_i htype
    rw [htype]
    rfl
  · cases habsent

structure SetsArgs (owners : List Owner) (values : List Value) (i index : ℕ)
    (bindings : List Binding) : Prop where
  slots : bindings.map (fun binding => (binding.owner, binding.index)) = owners.zipIdx index
  values : ∀ binding ∈ bindings, ∃ k value leaf bounds, binding.owner.param = i + k ∧
    values[k]? = some value ∧ value.follow binding.owner.path = some leaf ∧
    bindLeaf 0 binding.owner.type leaf = .ok bounds ∧
    bounds[binding.owner.part]? = some binding.value

theorem SetsArgs.skip (hrest : SetsArgs owners values (i + 1) index bindings) :
    SetsArgs owners (value :: values) i index bindings := by
  refine ⟨hrest.slots, fun binding hbinding => ?_⟩
  obtain ⟨k, leafValue, leaf, bounds, hparam, hvalue, hleaf⟩ := hrest.values binding hbinding
  exact ⟨k + 1, leafValue, leaf, bounds, by omega, hvalue, hleaf⟩

theorem SetsArgs.append {others : List Owner} {count : ℕ} {rest : List Binding}
    (hparam : ∀ owner ∈ owners, owner.param = i)
    (hfirst : Sets owners [] value index (count, bindings))
    (hrest : SetsArgs others values (i + 1) (index + count) rest) :
    SetsArgs (owners ++ others) (value :: values) i index (bindings ++ rest) := by
  constructor
  · rw [map_append, zipIdx_append, hfirst.slots, hrest.slots, ← hfirst.count]
  · intro binding hbinding
    rcases mem_append.mp hbinding with hbinding | hbinding
    · obtain ⟨path, leaf, bounds, hpath, hleaf, hbounds⟩ := hfirst.values binding hbinding
      have hmem : (binding.owner, binding.index) ∈ owners.zipIdx index := by
        rw [← hfirst.slots]
        exact mem_map_of_mem hbinding
      rw [nil_append] at hpath
      rw [← hpath] at hleaf
      exact ⟨0, value, leaf, bounds, hparam _ (fst_mem_of_mem_zipIdx hmem), rfl, hleaf, hbounds⟩
    · exact hrest.skip.values binding hbinding

theorem setArgs_setsArgs : ∀ (params : List Param) {values : List Value}
    {features : List Features} {i iOut templateNum : ℕ} {bindings : List Binding},
    extractFeatures params values = .ok features → templateNum ≤ iOut →
    setArgs used allFieldCached params values i iOut templateNum = .ok bindings →
    SetsArgs (launchOwners used allFieldCached params values features i) values i
      (iOut - templateNum) bindings
  | [], values, features, i, iOut, templateNum, bindings, _, _, hset => by
    rw [← Except.ok.inj hset]
    exact ⟨rfl, fun _ hbinding => nomatch hbinding⟩
  | param :: params, [], features, i, iOut, templateNum, bindings, _, _, hset => by
    rw [← Except.ok.inj hset]
    exact ⟨rfl, fun _ hbinding => nomatch hbinding⟩
  | param :: params, value :: values, features, i, iOut, templateNum, bindings, hfeatures, hle,
      hset => by
      obtain ⟨entry, entries, rfl, hentries, hentry⟩ := extractFeatures_cons hfeatures
      rw [setArgs] at hset
      rw [launchOwners]
      split at hset
      · rename_i htype
        have hrest := setArgs_setsArgs params hentries (by omega) hset
        have hslots : transformKernelArg used i param.type param.name [] entry = [] := by
          rw [Param.isAbsent, htype] at hentry
          rw [← Except.ok.inj hentry, htype]
          rfl
        rw [hslots, ite_self]
        rw [Nat.add_sub_add_right] at hrest
        exact hrest.skip
      · split at hset
        · rename_i hskip
          have hrest := setArgs_setsArgs params hentries hle hset
          have hslots : (if skipsAllField (allFieldCached i) param.type value then []
              else transformKernelArg used i param.type param.name [] entry) = [] := by
            rcases (Bool.or_eq_true _ _).mp hskip with habsent | hskip
            · rw [habsent] at hentry
              rw [← Except.ok.inj hentry, transformKernelArg_absent habsent, ite_self]
            · rw [if_pos hskip]
          rw [hslots]
          exact hrest.skip
        · rename_i hskip
          obtain ⟨habsent, hskip⟩ := not_or.mp (mt (Bool.or_eq_true _ _).mpr hskip)
          obtain ⟨-, -, hset⟩ := bind_eq_ok.mp hset
          obtain ⟨⟨count, first⟩, hfirst, hset⟩ := bind_eq_ok.mp hset
          obtain ⟨rest, hrest, hset⟩ := bind_eq_ok.mp hset
          rw [if_neg habsent] at hentry
          rw [if_neg hskip, ← Except.ok.inj hset]
          have hrest' := setArgs_setsArgs params hentries (by omega) hrest
          rw [show iOut + count - templateNum = iOut - templateNum + count by omega] at hrest'
          exact SetsArgs.append (fun owner howner => param_of_mem_transformKernelArg _ howner)
            (recursiveSetArgs_sets _ hentry hfirst) hrest'

theorem le_param_of_mem_transformAsKernel : ∀ (params : List Param) {features : List Features}
    {i : ℕ} {owner : Owner}, owner ∈ transformAsKernel used params features i → i ≤ owner.param
  | [], _, _, _, howner => by
    cases howner
  | _ :: _, [], _, _, howner => by
    cases howner
  | param :: params, entry :: features, i, owner, howner => by
    rcases mem_append.mp howner with howner | howner
    · exact (param_of_mem_transformKernelArg _ howner).ge
    · exact (Nat.le_succ i).trans (le_param_of_mem_transformAsKernel params howner)

theorem le_param_of_mem_launchOwners : ∀ (params : List Param) {values : List Value}
    {features : List Features} {i : ℕ} {owner : Owner},
    owner ∈ launchOwners used allFieldCached params values features i → i ≤ owner.param
  | [], _, _, _, _, howner => by
    cases howner
  | _ :: _, [], _, _, _, howner => by
    cases howner
  | _ :: _, _ :: _, [], _, _, howner => by
    cases howner
  | param :: params, value :: values, entry :: features, i, owner, howner => by
    rcases mem_append.mp howner with howner | howner
    · split at howner
      · cases howner
      · exact (param_of_mem_transformKernelArg _ howner).ge
    · exact (Nat.le_succ i).trans (le_param_of_mem_launchOwners params howner)

theorem append_eq_append_iff_of_param {xs ys xs' ys' : List Owner}
    (hxs : ∀ owner ∈ xs, owner.param = i) (hxs' : ∀ owner ∈ xs', owner.param = i)
    (hys : ∀ owner ∈ ys, i + 1 ≤ owner.param) (hys' : ∀ owner ∈ ys', i + 1 ≤ owner.param) :
    xs ++ ys = xs' ++ ys' ↔ xs = xs' ∧ ys = ys' := by
  have hfilter : ∀ {as bs : List Owner}, (∀ owner ∈ as, owner.param = i) →
      (∀ owner ∈ bs, i + 1 ≤ owner.param) →
      (as ++ bs).filter (fun owner => owner.param = i) = as := by
    intro as bs has hbs
    rw [filter_append, filter_eq_self.mpr (by simpa using has),
      filter_eq_nil_iff.mpr, append_nil]
    intro owner howner
    have := hbs owner howner
    simp only [decide_eq_true_eq]
    omega
  constructor
  · intro heq
    have hfirst : xs = xs' := by
      rw [← hfilter hxs hys, heq, hfilter hxs' hys']
    subst hfirst
    exact ⟨rfl, append_cancel_left heq⟩
  · rintro ⟨rfl, rfl⟩
    rfl

theorem transformAsKernel_eq_launchOwners_iff (hused : used ⊆ after) : ∀ (params : List Param)
    {values : List Value} {features : List Features} {i : ℕ},
    values.length = params.length → features.length = params.length →
    (transformAsKernel used params features i =
        launchOwners after allFieldCached params values features i ↔
      ArgsKept used after allFieldCached params values features i)
  | [], [], [], i, _, _ => by simp [transformAsKernel, launchOwners, ArgsKept]
  | param :: params, value :: values, entry :: features, i, hvalues, hfeatures => by
    have hrest := transformAsKernel_eq_launchOwners_iff hused params (i := i + 1)
      (Nat.succ.inj hvalues) (Nat.succ.inj hfeatures)
    rw [transformAsKernel, launchOwners, ArgsKept, ← hrest, append_eq_append_iff_of_param
        (fun owner howner => param_of_mem_transformKernelArg _ howner) ?_
        (fun owner howner => le_param_of_mem_transformAsKernel params howner)
        (fun owner howner => le_param_of_mem_launchOwners params howner)]
    · refine and_congr_left fun _ => ?_
      split
      · exact transformKernelArg_eq_nil_iff _ _ _ _
      · exact transformKernelArg_eq_iff hused _ _ _ _
    · intro owner howner
      split at howner
      · cases howner
      · exact param_of_mem_transformKernelArg _ howner

theorem length_extractFeatures : ∀ (params : List Param) {values : List Value}
    {features : List Features}, values.length = params.length →
    extractFeatures params values = .ok features → features.length = params.length
  | [], _, features, _, hfeatures => by
    rw [← Except.ok.inj hfeatures]
    rfl
  | param :: params, value :: values, features, hvalues, hfeatures => by
    obtain ⟨entry, entries, rfl, hentries, -⟩ := extractFeatures_cons hfeatures
    rw [length_cons, length_cons, length_extractFeatures params (Nat.succ.inj hvalues) hentries]

theorem SetsArgs.bound (hsets : SetsArgs owners values 0 index bindings) {binding : Binding}
    (hbinding : binding ∈ bindings) : binding.owner.bound values = some binding.value := by
  obtain ⟨k, value, leaf, bounds, hparam, hvalue, hleaf, hbounds, hbound⟩ :=
    hsets.values binding hbinding
  simp [Owner.bound, hparam, hvalue, hleaf, hbounds, Except.toOption, hbound]

/-- The slots of a launch are the declared ones, each bound once and to its own value, exactly if
no argument that has a slot is skipped and no field that has a slot is used only afterwards. -/
theorem slotsAgree_iff (used : List String) (params : List Param) (values : List Value)
    (features : List Features) (launchInfo : List (ℕ × List Attr)) (chainPaths : List String)
    (allFieldCached : ℕ → Bool) (bindings : List Binding)
    (hfeatures : extractFeatures params values = .ok features)
    (hlaunch : launchKernel (usedAfterMaterialize used params launchInfo chainPaths)
      allFieldCached params values = .ok bindings) :
    SlotsAgree (transformAsKernel used params features 0) values bindings ↔
      ArgsKept used (usedAfterMaterialize used params launchInfo chainPaths) allFieldCached params
        values features 0 := by
  have hused : used ⊆ usedAfterMaterialize used params launchInfo chainPaths :=
    fun name hname => mem_append_left _ (mem_append_left _ hname)
  unfold launchKernel at hlaunch
  split at hlaunch
  · cases hlaunch
  · rename_i hlength
    have hvalues : values.length = params.length := not_ne_iff.mp hlength
    have hsets := setArgs_setsArgs params hfeatures (Nat.zero_le 0) hlaunch
    rw [← transformAsKernel_eq_launchOwners_iff hused params hvalues
      (length_extractFeatures params hvalues hfeatures)]
    constructor
    · intro hagree
      have hzip := hagree.slots.symm.trans hsets.slots
      have hfst := congrArg (List.map Prod.fst) hzip
      rwa [zipIdx_map_fst, zipIdx_map_fst] at hfst
    · intro heq
      refine ⟨?_, fun binding hbinding => hsets.bound hbinding⟩
      rw [heq]
      exact hsets.slots

def scalarField : ParamType :=
  .dataclass 1 true (.cons "x" false .real .nil)

def scalarFieldParams : List Param :=
  [⟨"t", .template, false⟩, ⟨"s", scalarField, false⟩]

def scalarFieldUsed : List String :=
  [createFlatName "s" "x"]

/-- The field holds a number. -/
theorem number_slotsAgree : ∃ bindings,
    launchKernel scalarFieldUsed (fun _ => true) scalarFieldParams
      [.field 3, .object [1] [("x", .number true 5)]] = .ok bindings ∧
    SlotsAgree (transformAsKernel scalarFieldUsed scalarFieldParams [.plain, .tuple [.plain]] 0)
      [.field 3, .object [1] [("x", .number true 5)]] bindings := by
  refine ⟨[⟨0, ⟨1, ["x"], .real, 0⟩, .float 5⟩], ?_, ?_⟩
  · rfl
  · refine (slotsAgree_iff scalarFieldUsed scalarFieldParams _ _ [] [] (fun _ => true) _ ?_ ?_).mpr
      ?_
    · rfl
    · rfl
    · simp [scalarFieldUsed, scalarFieldParams, scalarField, ArgsKept, ParamType.Kept, Fields.Kept,
        skipsAllField, Fields.allField, Value.getattr, Value.unwrap, Value.isField]

/-- The field holds a `Field`: the first launch is refused, and the second one skips the argument
because the first has cached that all fields are `Field`s. Its slot stays unset. -/
theorem refused_then_skipped :
    extractFeatures scalarFieldParams [.field 3, .object [1] [("x", .field 7)]] =
      .ok [.plain, .tuple [.plain]] ∧
    launchKernel scalarFieldUsed (fun _ => false) scalarFieldParams
      [.field 3, .object [1] [("x", .field 7)]] = .error (.typeMismatch 0) ∧
    ∃ bindings, launchKernel scalarFieldUsed (fun _ => true) scalarFieldParams
        [.field 3, .object [1] [("x", .field 7)]] = .ok bindings ∧
      ¬ SlotsAgree
        (transformAsKernel scalarFieldUsed scalarFieldParams [.plain, .tuple [.plain]] 0)
        [.field 3, .object [1] [("x", .field 7)]] bindings := by
  refine ⟨rfl, rfl, [], rfl, fun hagree => ?_⟩
  have hlength := congrArg List.length hagree.slots
  simp [scalarFieldUsed, scalarFieldParams, scalarField, transformAsKernel, transformKernelArg,
    transformFields, declAndCreateVariable, Features.entries] at hlength

end Launch

end Quadrants.Args
