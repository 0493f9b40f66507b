import Quadrants.AdStack.SizeExpr

/-!
The value a size expression stands for, without sinks and caches.

`denote` is a pure function of the memory, the launch context and the bound
variables.  `evaluateNode_denote` says that the host walker computes it, puts
the bound variables back, keeps the launch-scoped cache truthful and records
every static leaf of the tree.  `evaluateNode_transfer` compares two walks of
one tree: where the leaves agree, the second walk succeeds with the value of
the first.
-/

namespace Quadrants.AdStack.Denotation

open Function

open Option

open List

open Quadrants.Library.StatefulLoops
open Quadrants.AdStack.SizeExpr

def fieldValue (prog : ProgramView) (node : SerializedSizeExprNode)
    (env : BoundVars) : Except EvalError Int64 :=
  if node.snodeId < 0 then .error .fieldLoadNoSnodeId
  else if prog.hasSnode node.snodeId = false then
    .error (.fieldLoadSnodeNotFound node.snodeId)
  else do
    let resolved ← resolveIndices env .fieldLoadUnboundVar node.indices
    return prog.readInt node.snodeId (resolved.map Int64.toInt32)

def externalReadValue (prog : ProgramView) (ctx : Option LaunchContextBuilder)
    (node : SerializedSizeExprNode) (env : BoundVars) : Except EvalError Int64 := do
  let (ctx, dataPtr) ← resolveDataPtr ctx node
  let resolved ← resolveIndices env .externalTensorReadUnboundVar node.indices
  readElement prog ctx node dataPtr resolved

def externalShapeValue (ctx : Option LaunchContextBuilder)
    (node : SerializedSizeExprNode) : Except EvalError Int64 :=
  match ctx with
  | none => .error .externalTensorShapeNoContext
  | some ctx => .ok (ctx.structArgs (shapeSlot node.argIdPath node.argShapeAxis)).toInt64

def maxOverRangeValue (body : Int64 → Except EvalError Int64)
    (begin' end' : Int64) : Except EvalError Int64 := do
  let (v, _) ← maxLoop (σ := Unit) (· + 1)
    (fun i st => do return (← body i, st)) (tripCount begin' end') begin' 0 ()
  return v

def denote (expr : SerializedSizeExpr) (prog : ProgramView)
    (ctx : Option LaunchContextBuilder) :
    Nat → Int32 → BoundVars → Except EvalError Int64
  | 0, _, _ => .error .recursionTooDeep
  | fuel + 1, nodeIdx, env =>
    match expr.node? nodeIdx with
    | none => .error (.nodeIdxOutOfBounds nodeIdx expr.nodes.length)
    | some node =>
      match node.kind with
      | .const => .ok node.constValue
      | .fieldLoad => fieldValue prog node env
      | .add | .sub | .mul | .max => do
          let a ← denote expr prog ctx fuel node.operandA env
          let b ← denote expr prog ctx fuel node.operandB env
          return hostBinary node.kind a b
      | .maxOverRange => do
          let begin' ← denote expr prog ctx fuel node.operandA env
          let end' ← denote expr prog ctx fuel node.operandB env
          checkIterationGuard prog begin' end'
          maxOverRangeValue
            (fun i => denote expr prog ctx fuel node.bodyNodeIdx
              (update env node.varId (some i))) begin' end'
      | .boundVariable =>
        match env node.varId with
        | some v => .ok v
        | none => .error (.boundVariableOutsideScope node.varId)
      | .externalTensorShape => externalShapeValue ctx node
      | .externalTensorRead => externalReadValue prog ctx node env

def leaves (expr : SerializedSizeExpr) : Nat → Int32 → List SerializedSizeExprNode
  | 0, _ => []
  | fuel + 1, nodeIdx =>
    match expr.node? nodeIdx with
    | none => []
    | some node =>
      match node.kind with
      | .fieldLoad | .externalTensorRead | .externalTensorShape => [node]
      | .add | .sub | .mul | .max =>
        leaves expr fuel node.operandA ++ leaves expr fuel node.operandB
      | .maxOverRange =>
        leaves expr fuel node.operandA ++ leaves expr fuel node.operandB ++
          leaves expr fuel node.bodyNodeIdx
      | .const | .boundVariable => []

/-- Every entry of the launch-scoped cache for an SNode in `live` is the present
field content. -/
def ReadCacheAgrees (prog : ProgramView) (live : Int32 → Prop) (st : EvalState) : Prop :=
  ∀ map, st.launchReadCache = some map → ∀ key v, live key.1 →
    map.lookup key = some v → prog.readInt key.1 key.2 = v

def FieldsLive (live : Int32 → Prop) (nodes : List SerializedSizeExprNode) : Prop :=
  ∀ node ∈ nodes, node.kind = .fieldLoad → live node.snodeId

variable {ctx : Option LaunchContextBuilder} {live : Int32 → Prop} {node : SerializedSizeExprNode}
variable {nodes₁ nodes₂ : List SerializedSizeExprNode} {prog : ProgramView} {st st' : EvalState}
variable {v : Int64}

theorem fieldsLive_append :
    FieldsLive live (nodes₁ ++ nodes₂) ↔ FieldsLive live nodes₁ ∧ FieldsLive live nodes₂ := by
  simp only [FieldsLive, mem_append]
  constructor
  · intro h
    exact ⟨fun node hnode => h node (Or.inl hnode), fun node hnode => h node (Or.inr hnode)⟩
  · rintro ⟨h₁, h₂⟩ node (hnode | hnode)
    · exact h₁ node hnode
    · exact h₂ node hnode

/-- The observation list accounts for a leaf: a field by its generation, a
shape by its value, an external array by its pointer and generation whenever
the argument has a data pointer. -/
def Accounted (prog : ProgramView) (ctx : Option LaunchContextBuilder)
    (obs : List SizeExprReadObservation) (node : SerializedSizeExprNode) : Prop :=
  match node.kind with
  | .fieldLoad =>
    ∃ o ∈ obs, o.kind = .fieldLoadObs ∧ o.snodeId = node.snodeId ∧
      o.observedGen = prog.snodeWriteGen node.snodeId
  | .externalTensorShape =>
    ∃ c, ctx = some c ∧ ∃ o ∈ obs, o.kind = .externalShapeObs ∧
      o.argIdPath = node.argIdPath ∧ o.argShapeAxis = node.argShapeAxis ∧
      o.observedValue =
        (c.structArgs (shapeSlot node.argIdPath node.argShapeAxis)).toInt64
  | .externalTensorRead =>
    ∀ dataPtr, boundDataPtr ctx node = some dataPtr →
      ∃ o ∈ obs, o.kind = .externalReadObs ∧ o.argIdPath = node.argIdPath ∧
        o.observedDevalloc = some dataPtr ∧
        o.observedGen = prog.ndarrayDataGen dataPtr
  | _ => True

theorem Accounted.mono {obs obs' : List SizeExprReadObservation}
    (h : Accounted prog ctx obs node) (hsub : ∀ o ∈ obs, o ∈ obs') :
    Accounted prog ctx obs' node := by
  unfold Accounted at *
  cases hkind : node.kind with
  | fieldLoad =>
    simp only [hkind] at h ⊢
    obtain ⟨o, ho, h⟩ := h
    exact ⟨o, hsub o ho, h⟩
  | externalTensorShape =>
    simp only [hkind] at h ⊢
    obtain ⟨c, hc, o, ho, h⟩ := h
    exact ⟨c, hc, o, hsub o ho, h⟩
  | externalTensorRead =>
    simp only [hkind] at h ⊢
    intro dataPtr hptr
    obtain ⟨o, ho, h⟩ := h dataPtr hptr
    exact ⟨o, hsub o ho, h⟩
  | const | add | sub | mul | max | maxOverRange | boundVariable => simp

/-- What a successful walk does to its state: bound variables are put back, the
launch-scoped cache stays truthful, and the sink grows by a list that accounts
for the given leaves. -/
structure Walked (prog : ProgramView) (live : Int32 → Prop)
    (ctx : Option LaunchContextBuilder) (nodes : List SerializedSizeExprNode)
    (st st' : EvalState) : Prop where
  boundVars : st'.boundVars = st.boundVars
  cache : ReadCacheAgrees prog live st → ReadCacheAgrees prog live st'
  reads : ∃ obs, st'.reads = st.reads.map (· ++ obs) ∧
    (st.reads.isSome → ∀ node ∈ nodes, Accounted prog ctx obs node)

theorem Walked.refl (prog : ProgramView) (live : Int32 → Prop)
    (ctx : Option LaunchContextBuilder) (st : EvalState) : Walked prog live ctx [] st st := by
  refine ⟨rfl, id, [], ?_, by simp⟩
  cases st.reads <;> simp

theorem Walked.trans {st₁ st₂ st₃ : EvalState}
    (h₁ : Walked prog live ctx nodes₁ st₁ st₂) (h₂ : Walked prog live ctx nodes₂ st₂ st₃) :
    Walked prog live ctx (nodes₁ ++ nodes₂) st₁ st₃ := by
  obtain ⟨obs₁, hreads₁, hacc₁⟩ := h₁.reads
  obtain ⟨obs₂, hreads₂, hacc₂⟩ := h₂.reads
  refine ⟨h₂.boundVars.trans h₁.boundVars, h₂.cache ∘ h₁.cache, obs₁ ++ obs₂, ?_, ?_⟩
  · rw [hreads₂, hreads₁]
    cases st₁.reads <;> simp
  · intro hsome node hnode
    rcases mem_append.mp hnode with hnode | hnode
    · exact (hacc₁ hsome node hnode).mono fun o ho => mem_append_left _ ho
    · have hsome₂ : st₂.reads.isSome := by
        rw [hreads₁]
        simpa using hsome
      exact (hacc₂ hsome₂ node hnode).mono fun o ho => mem_append_right _ ho

variable {env : BoundVars} {expr : SerializedSizeExpr} {fuel : Nat} {indices : List Int32}
variable {nodeIdx : Int32} {nodes : List SerializedSizeExprNode} {prog₁ prog₂ : ProgramView}

theorem Walked.reads_isSome
    (h : Walked prog live ctx nodes st st') : st'.reads.isSome = st.reads.isSome := by
  obtain ⟨obs, hreads, -⟩ := h.reads
  rw [hreads, isSome_map]

theorem walked_pushRead {obs : SizeExprReadObservation} (h : Accounted prog ctx [obs] node) :
    Walked prog live ctx [node] st (st.pushRead obs) := by
  refine ⟨rfl, id, [obs], rfl, ?_⟩
  intro _ n hn
  rw [mem_singleton.mp hn]
  exact h

theorem readFieldWithLaunchCache_spec {snodeId : Int32}
    (hcache : ReadCacheAgrees prog live st) (hlive : live snodeId) :
    (readFieldWithLaunchCache prog snodeId indices st).1 =
      prog.readInt snodeId indices := by
  unfold readFieldWithLaunchCache
  split
  · rename_i map hmap
    split
    · rename_i v hv
      exact (hcache map hmap (snodeId, indices) v hlive hv).symm
    · rfl
  · rfl

theorem readFieldWithLaunchCache_walked (prog : ProgramView) (live : Int32 → Prop)
    (ctx : Option LaunchContextBuilder) (snodeId : Int32) (indices : List Int32) (st : EvalState) :
    Walked prog live ctx [] st (readFieldWithLaunchCache prog snodeId indices st).2 := by
  unfold readFieldWithLaunchCache
  split
  · rename_i map hmap
    split
    · exact Walked.refl prog live ctx st
    · refine ⟨rfl, ?_, [], by cases st.reads <;> simp, by simp⟩
      intro hcache map' hmap' key v hlive hlookup
      simp only [Option.some.injEq] at hmap'
      subst hmap'
      rw [lookup_cons] at hlookup
      split at hlookup
      · rename_i heq
        have hkey : key = (snodeId, indices) := by simpa using heq
        simp only [Option.some.injEq] at hlookup
        rw [hkey, hlookup]
      · exact hcache map hmap key v hlive hlookup
  · exact Walked.refl prog live ctx st

theorem resolveIndices_length {unbound : Int32 → EvalError} {resolved : List Int64}
    (h : resolveIndices env unbound indices = .ok resolved) : resolved.length = indices.length := by
  induction indices generalizing resolved with
  | nil =>
    simp only [resolveIndices, Except.ok.injEq] at h
    rw [← h]
    rfl
  | cons raw rest ih =>
    simp only [resolveIndices, bind_eq_ok, Except.ok.injEq] at h
    obtain ⟨v, -, vs, hvs, rfl⟩ := h
    simp [ih hvs]

theorem resolveDataPtr_eq_ok {c : LaunchContextBuilder} {dataPtr : Ptr} :
    resolveDataPtr ctx node = .ok (c, dataPtr) ↔
      ctx = some c ∧ boundDataPtr ctx node = some dataPtr := by
  unfold resolveDataPtr boundDataPtr
  cases ctx with
  | none => simp
  | some c' =>
    cases node.argIdPath.head? with
    | none => simp
    | some argId => cases hptr : c'.arrayPtrs argId <;> simp [hptr]

theorem evaluateFieldLoad_spec (ctx : Option LaunchContextBuilder) (hkind : node.kind = .fieldLoad)
    (hcache : ReadCacheAgrees prog live st) (hlive : live node.snodeId)
    (h : evaluateFieldLoad prog node st = .ok (v, st')) :
    fieldValue prog node st.boundVars = .ok v ∧ Walked prog live ctx [node] st st' := by
  unfold evaluateFieldLoad at h
  unfold fieldValue
  split at h
  · simp at h
  rename_i hid
  split at h
  · simp at h
  rename_i hsnode
  rw [if_neg hid, if_neg hsnode]
  simp only [bind_eq_ok, pure_eq_ok, Prod.mk.injEq] at h ⊢
  obtain ⟨resolved, hres, rfl, rfl⟩ := h
  refine ⟨⟨resolved, hres, (readFieldWithLaunchCache_spec hcache hlive).symm⟩, ?_⟩
  have hread := readFieldWithLaunchCache_walked prog live ctx node.snodeId
    (resolved.map Int64.toInt32) st
  refine hread.trans (walked_pushRead ?_)
  simp [Accounted, hkind]

theorem evaluateExternalTensorRead_value
    (h : evaluateExternalTensorRead prog ctx node st = .ok (v, st')) :
    externalReadValue prog ctx node st.boundVars = .ok v := by
  simp only [evaluateExternalTensorRead, bind_eq_ok, pure_eq_ok, Prod.mk.injEq] at h
  obtain ⟨⟨c, dataPtr⟩, hptr, resolved, hres, w, hread, rfl, rfl⟩ := h
  simp only [externalReadValue, bind_eq_ok]
  exact ⟨(c, dataPtr), hptr, resolved, hres, hread⟩

theorem evaluateExternalTensorRead_spec (hkind : node.kind = .externalTensorRead)
    (h : evaluateExternalTensorRead prog ctx node st = .ok (v, st')) :
    externalReadValue prog ctx node st.boundVars = .ok v ∧
      Walked prog live ctx [node] st st' := by
  refine ⟨evaluateExternalTensorRead_value h, ?_⟩
  simp only [evaluateExternalTensorRead, bind_eq_ok, pure_eq_ok, Prod.mk.injEq] at h
  obtain ⟨⟨c, dataPtr⟩, hptr, resolved, hres, w, hread, rfl, rfl⟩ := h
  apply walked_pushRead
  simp only [Accounted, hkind, mem_singleton]
  intro dataPtr' hptr'
  obtain rfl : dataPtr = dataPtr' := by
    simpa [(resolveDataPtr_eq_ok.mp hptr).2] using hptr'
  exact ⟨_, rfl, rfl, rfl, rfl, rfl⟩

theorem evaluateExternalTensorShape_value
    (h : evaluateExternalTensorShape ctx node st = .ok (v, st')) :
    externalShapeValue ctx node = .ok v := by
  cases ctx with
  | none => simp [evaluateExternalTensorShape] at h
  | some c =>
    simp only [evaluateExternalTensorShape, Except.ok.injEq, Prod.mk.injEq] at h
    rw [← h.1]
    rfl

theorem evaluateExternalTensorShape_spec (hkind : node.kind = .externalTensorShape)
    (h : evaluateExternalTensorShape ctx node st = .ok (v, st')) :
    externalShapeValue ctx node = .ok v ∧ Walked prog live ctx [node] st st' := by
  refine ⟨evaluateExternalTensorShape_value h, ?_⟩
  cases ctx with
  | none => simp [evaluateExternalTensorShape] at h
  | some c =>
    obtain ⟨rfl, rfl⟩ := h
    apply walked_pushRead
    simp [Accounted, hkind]

theorem enumerateStaticObservations_walked
    (h : enumerateStaticObservations expr prog ctx fuel nodeIdx st = .ok st') :
    Walked prog live ctx (leaves expr fuel nodeIdx) st st' := by
  induction fuel generalizing nodeIdx st st' with
  | zero => simp [enumerateStaticObservations] at h
  | succ fuel ih =>
    simp only [enumerateStaticObservations] at h
    split at h
    · rename_i hnone
      simp only [Except.ok.injEq] at h
      subst h
      refine ⟨rfl, id, [], ?_, ?_⟩
      · simp [isNone_iff_eq_none.mp hnone]
      · intro hsome
        simp [isNone_iff_eq_none.mp hnone] at hsome
    cases hnode : expr.node? nodeIdx with
    | none => simp [hnode] at h
    | some node =>
      simp only [hnode] at h
      simp only [leaves, hnode]
      cases hkind : node.kind with
      | const | boundVariable =>
        simp only [hkind, Except.ok.injEq] at h
        subst h
        exact Walked.refl prog live ctx st
      | fieldLoad =>
        simp only [hkind, Except.ok.injEq] at h
        subst h
        exact walked_pushRead (by simp [Accounted, hkind])
      | externalTensorShape =>
        simp only [hkind, bind_eq_ok, pure_eq_ok] at h
        obtain ⟨⟨v, st₁⟩, hshape, rfl⟩ := h
        exact (evaluateExternalTensorShape_spec hkind hshape).2
      | externalTensorRead =>
        simp only [hkind] at h
        cases hptr : boundDataPtr ctx node with
        | none =>
          simp only [hptr, Except.ok.injEq] at h
          subst h
          refine ⟨rfl, id, [], by cases st.reads <;> simp, ?_⟩
          intro _ n hn
          rw [mem_singleton.mp hn]
          simp [Accounted, hkind, hptr]
        | some dataPtr =>
          simp only [hptr, Except.ok.injEq] at h
          subst h
          apply walked_pushRead
          simp [Accounted, hkind, hptr]
      | add | sub | mul | max =>
        simp only [hkind, bind_eq_ok] at h
        obtain ⟨st₁, h₁, h₂⟩ := h
        exact (ih h₁).trans (ih h₂)
      | maxOverRange =>
        simp only [hkind, bind_eq_ok] at h
        obtain ⟨st₁, h₁, st₂, h₂, h₃⟩ := h
        exact ((ih h₁).trans (ih h₂)).trans (ih h₃)

/-- The state of the range loop between two iterations: outside the iterated
variable the bindings are those of the enclosing scope, and nothing is
recorded. -/
structure InRange (prog : ProgramView) (live : Int32 → Prop) (env : BoundVars)
    (varId : Int32) (st : EvalState) : Prop where
  boundVars : ∀ x, update st.boundVars varId x = update env varId x
  cache : ReadCacheAgrees prog live st
  reads : st.reads = none

theorem InRange.step {varId : Int32} {i : Int64} (h : InRange prog live env varId st)
    (hwalk : Walked prog live ctx nodes
      { st with boundVars := update st.boundVars varId (some i) } st') :
    InRange prog live env varId st' := by
  refine ⟨?_, hwalk.cache ?_, ?_⟩
  · intro x
    rw [hwalk.boundVars, update_idem, h.boundVars]
  · exact h.cache
  · obtain ⟨obs, hreads, -⟩ := hwalk.reads
    simpa [h.reads] using hreads

theorem evaluateNode_denote
    (hcache : ReadCacheAgrees prog live st) (hlive : FieldsLive live (leaves expr fuel nodeIdx))
    (h : evaluateNode expr prog ctx fuel nodeIdx st = .ok (v, st')) :
    denote expr prog ctx fuel nodeIdx st.boundVars = .ok v ∧
      Walked prog live ctx (leaves expr fuel nodeIdx) st st' := by
  induction fuel generalizing nodeIdx st st' v with
  | zero => simp [evaluateNode] at h
  | succ fuel ih =>
    simp only [evaluateNode] at h
    cases hnode : expr.node? nodeIdx with
    | none => simp [hnode] at h
    | some node =>
      simp only [hnode] at h
      simp only [denote, leaves, hnode] at hlive ⊢
      cases hkind : node.kind with
      | const =>
        simp only [hkind, Except.ok.injEq, Prod.mk.injEq] at h ⊢
        obtain ⟨rfl, rfl⟩ := h
        exact ⟨rfl, Walked.refl prog live ctx st⟩
      | boundVariable =>
        simp only [hkind] at h ⊢
        cases hvar : st.boundVars node.varId with
        | none => simp [hvar] at h
        | some w =>
          simp only [hvar, Except.ok.injEq, Prod.mk.injEq] at h ⊢
          obtain ⟨rfl, rfl⟩ := h
          exact ⟨rfl, Walked.refl prog live ctx st⟩
      | fieldLoad =>
        simp only [hkind] at h hlive
        have hself := hlive node (mem_singleton.mpr rfl) hkind
        exact evaluateFieldLoad_spec ctx hkind hcache hself h
      | externalTensorShape =>
        simp only [hkind] at h
        exact evaluateExternalTensorShape_spec hkind h
      | externalTensorRead =>
        simp only [hkind] at h
        exact evaluateExternalTensorRead_spec hkind h
      | add | sub | mul | max =>
        simp only [hkind, bind_eq_ok, pure_eq_ok, Prod.mk.injEq] at h ⊢
        simp only [hkind, fieldsLive_append] at hlive
        obtain ⟨⟨a, st₁⟩, ha, ⟨b, st₂⟩, hb, rfl, rfl⟩ := h
        obtain ⟨hda, hwa⟩ := ih hcache hlive.1 ha
        obtain ⟨hdb, hwb⟩ := ih (hwa.cache hcache) hlive.2 hb
        rw [hwa.boundVars] at hdb
        exact ⟨⟨a, hda, b, hdb, rfl⟩, hwa.trans hwb⟩
      | maxOverRange =>
        simp only [hkind, bind_eq_ok, pure_eq_ok, Prod.mk.injEq] at h ⊢
        simp only [hkind, fieldsLive_append] at hlive
        obtain ⟨⟨hlbegin, hlend⟩, hlbody⟩ := hlive
        obtain ⟨⟨begin', st₁⟩, hbegin, ⟨end', st₂⟩, hend, _, hguard, st₃, henum,
          ⟨result, loopSt⟩, hloop, rfl, rfl⟩ := h
        obtain ⟨hdbegin, hwbegin⟩ := ih hcache hlbegin hbegin
        obtain ⟨hdend, hwend⟩ := ih (hwbegin.cache hcache) hlend hend
        have hwenum : Walked prog live ctx (leaves expr fuel node.bodyNodeIdx) st₂ st₃ :=
          enumerateStaticObservations_walked henum
        have hwalk := (hwbegin.trans hwend).trans hwenum
        rw [hwbegin.boundVars] at hdend
        have hstart : InRange prog live st.boundVars node.varId
            { st₃ with reads := none } := by
          refine ⟨?_, hwalk.cache hcache, rfl⟩
          intro x
          rw [hwalk.boundVars]
        -- one iteration of the walker against one of the denotation
        have hbody : ∀ i s w s', InRange prog live st.boundVars node.varId s →
            evaluateNode expr prog ctx fuel node.bodyNodeIdx
              { s with boundVars := update s.boundVars node.varId (some i) } =
                .ok (w, s') →
            denote expr prog ctx fuel node.bodyNodeIdx
              (update st.boundVars node.varId (some i)) = .ok w ∧
            InRange prog live st.boundVars node.varId s' := by
          intro i s w s' hs hrun
          have hagrees : ReadCacheAgrees prog live { s with
            boundVars := update s.boundVars node.varId (some i) } := hs.cache
          obtain ⟨hd, hw⟩ := ih hagrees hlbody hrun
          rw [hs.boundVars] at hd
          exact ⟨hd, hs.step hw⟩
        obtain ⟨_, hvalue, hfinal⟩ := maxLoop_simulation
          (fun i (u : Unit) => do
            return (← denote expr prog ctx fuel node.bodyNodeIdx
              (update st.boundVars node.varId (some i)), u))
          (fun _ _ s _ => InRange prog live st.boundVars node.varId s)
          (by
            intro _ i s u w s' hs hrun
            obtain ⟨hd, hs'⟩ := hbody i s w s' hs hrun
            refine ⟨u, ?_, hs'⟩
            simp only [bind_eq_ok, pure_eq_ok, Prod.mk.injEq, and_true, exists_eq_right]
            exact hd)
          () hstart hloop
        refine ⟨⟨begin', hdbegin, end', hdend, (), hguard, ?_⟩, ?_⟩
        · simp only [maxOverRangeValue, bind_eq_ok, pure_eq_ok]
          exact ⟨_, hvalue, rfl⟩
        · obtain ⟨obs, hreads, hacc⟩ := hwalk.reads
          refine ⟨?_, fun _ => hfinal.cache, obs, hreads, hacc⟩
          rw [hfinal.boundVars, hwend.boundVars, hwbegin.boundVars, update_eq_self]

/-- A leaf that has a value under one memory and context has the same value
under another. -/
def LeafAgrees (prog₁ prog₂ : ProgramView) (ctx₁ ctx₂ : Option LaunchContextBuilder)
    (node : SerializedSizeExprNode) : Prop :=
  match node.kind with
  | .fieldLoad => ∀ env v, fieldValue prog₁ node env = .ok v →
      fieldValue prog₂ node env = .ok v
  | .externalTensorShape => ∀ v, externalShapeValue ctx₁ node = .ok v →
      externalShapeValue ctx₂ node = .ok v
  | .externalTensorRead => ∀ env v, externalReadValue prog₁ ctx₁ node env = .ok v →
      externalReadValue prog₂ ctx₂ node env = .ok v
  | _ => True

def LeavesAgree (prog₁ prog₂ : ProgramView) (ctx₁ ctx₂ : Option LaunchContextBuilder)
    (nodes : List SerializedSizeExprNode) : Prop :=
  ∀ node ∈ nodes, LeafAgrees prog₁ prog₂ ctx₁ ctx₂ node

theorem leavesAgree_append {ctx₁ ctx₂ : Option LaunchContextBuilder} :
    LeavesAgree prog₁ prog₂ ctx₁ ctx₂ (nodes₁ ++ nodes₂) ↔
      LeavesAgree prog₁ prog₂ ctx₁ ctx₂ nodes₁ ∧
        LeavesAgree prog₁ prog₂ ctx₁ ctx₂ nodes₂ := by
  simp only [LeavesAgree, mem_append]
  constructor
  · intro h
    exact ⟨fun node hnode => h node (Or.inl hnode), fun node hnode => h node (Or.inr hnode)⟩
  · rintro ⟨h₁, h₂⟩ node (hnode | hnode)
    · exact h₁ node hnode
    · exact h₂ node hnode

theorem evaluateFieldLoad_of_value
    (hcache : ReadCacheAgrees prog live st) (hlive : live node.snodeId)
    (h : fieldValue prog node st.boundVars = .ok v) :
    ∃ st', evaluateFieldLoad prog node st = .ok (v, st') := by
  unfold fieldValue at h
  unfold evaluateFieldLoad
  split at h
  · simp at h
  rename_i hid
  split at h
  · simp at h
  rename_i hsnode
  rw [if_neg hid, if_neg hsnode]
  simp only [bind_eq_ok, pure_eq_ok, Prod.mk.injEq] at h ⊢
  obtain ⟨resolved, hres, rfl⟩ := h
  exact ⟨_, resolved, hres, readFieldWithLaunchCache_spec hcache hlive, rfl⟩

theorem evaluateExternalTensorRead_of_value
    (h : externalReadValue prog ctx node st.boundVars = .ok v) :
    ∃ st', evaluateExternalTensorRead prog ctx node st = .ok (v, st') := by
  simp only [externalReadValue, bind_eq_ok] at h
  obtain ⟨⟨c, dataPtr⟩, hptr, resolved, hres, hread⟩ := h
  simp only [evaluateExternalTensorRead, bind_eq_ok, pure_eq_ok, Prod.mk.injEq]
  exact ⟨_, (c, dataPtr), hptr, resolved, hres, v, hread, rfl, rfl⟩

theorem evaluateExternalTensorShape_of_value (st : EvalState)
    (h : externalShapeValue ctx node = .ok v) :
    ∃ st', evaluateExternalTensorShape ctx node st = .ok (v, st') := by
  cases ctx with
  | none => simp [externalShapeValue] at h
  | some c =>
    simp only [externalShapeValue, Except.ok.injEq] at h
    subst h
    exact ⟨_, rfl⟩

theorem checkIterationGuard_congr
    (harch : prog₂.archIsCpu = prog₁.archIsCpu) (begin' end' : Int64) :
    checkIterationGuard prog₂ begin' end' = checkIterationGuard prog₁ begin' end' := by
  have hcap : hostMaxOverRangeIterations prog₂ = hostMaxOverRangeIterations prog₁ := by
    rw [hostMaxOverRangeIterations, hostMaxOverRangeIterations, harch]
  rw [checkIterationGuard, checkIterationGuard, hcap]

section Transfer

variable {expr : SerializedSizeExpr} {prog₁ prog₂ : ProgramView}
variable {ctx₁ ctx₂ : Option LaunchContextBuilder}

variable {fuel : Nat} {nodeIdx : Int32} {st₁ st₁' : EvalState}

theorem enumerateStaticObservations_reads
    {st₂ st₂' : EvalState} (hreads : st₂.reads.isSome = st₁.reads.isSome)
    (h₁ : enumerateStaticObservations expr prog₁ ctx₁ fuel nodeIdx st₁ = .ok st₁')
    (h₂ : enumerateStaticObservations expr prog₂ ctx₂ fuel nodeIdx st₂ = .ok st₂') :
    st₂'.reads.isSome = st₁'.reads.isSome := by
  have hwalk₁ : Walked prog₁ (fun _ => True) ctx₁ (leaves expr fuel nodeIdx) st₁ st₁' :=
    enumerateStaticObservations_walked h₁
  have hwalk₂ : Walked prog₂ (fun _ => True) ctx₂ (leaves expr fuel nodeIdx) st₂ st₂' :=
    enumerateStaticObservations_walked h₂
  rw [hwalk₁.reads_isSome, hwalk₂.reads_isSome, hreads]

theorem enumerateStaticObservations_transfer (st₂ : EvalState)
    (hagree : LeavesAgree prog₁ prog₂ ctx₁ ctx₂ (leaves expr fuel nodeIdx))
    (hreads : st₂.reads.isSome = st₁.reads.isSome)
    (h : enumerateStaticObservations expr prog₁ ctx₁ fuel nodeIdx st₁ = .ok st₁') :
    ∃ st₂', enumerateStaticObservations expr prog₂ ctx₂ fuel nodeIdx st₂ = .ok st₂' := by
  induction fuel generalizing nodeIdx st₁ st₁' st₂ with
  | zero => simp [enumerateStaticObservations] at h
  | succ fuel ih =>
    simp only [enumerateStaticObservations] at h ⊢
    have hnone : st₂.reads.isNone = st₁.reads.isNone := by
      rw [← not_isSome, ← not_isSome, hreads]
    by_cases hsink : st₁.reads.isNone = true
    · rw [hnone, if_pos hsink]
      exact ⟨st₂, rfl⟩
    rw [hnone, if_neg hsink]
    rw [if_neg hsink] at h
    cases hnode : expr.node? nodeIdx with
    | none => simp [hnode] at h
    | some node =>
      simp only [hnode] at h ⊢
      simp only [leaves, hnode] at hagree
      cases hkind : node.kind with
      | const | boundVariable => exact ⟨st₂, rfl⟩
      | fieldLoad => exact ⟨_, rfl⟩
      | externalTensorShape =>
        simp only [hkind, bind_eq_ok, pure_eq_ok] at h hagree ⊢
        obtain ⟨⟨v, st'⟩, hshape, rfl⟩ := h
        have hvalue := evaluateExternalTensorShape_value hshape
        have hleaf := hagree node (mem_singleton.mpr rfl)
        simp only [LeafAgrees, hkind] at hleaf
        obtain ⟨st'', h₂⟩ := evaluateExternalTensorShape_of_value st₂ (hleaf v hvalue)
        exact ⟨st'', (v, st''), h₂, rfl⟩
      | externalTensorRead =>
        cases boundDataPtr ctx₂ node with
        | none => exact ⟨st₂, rfl⟩
        | some dataPtr => exact ⟨_, rfl⟩
      | add | sub | mul | max =>
        simp only [hkind, bind_eq_ok, leavesAgree_append] at h hagree ⊢
        obtain ⟨st, h₁, h₂⟩ := h
        obtain ⟨st', h₁'⟩ := ih st₂ hagree.1 hreads h₁
        have hreads' := enumerateStaticObservations_reads hreads h₁ h₁'
        obtain ⟨st'', h₂'⟩ := ih st' hagree.2 hreads' h₂
        exact ⟨st'', st', h₁', h₂'⟩
      | maxOverRange =>
        simp only [hkind, bind_eq_ok, leavesAgree_append] at h hagree ⊢
        obtain ⟨sta, h₁, stb, h₂, h₃⟩ := h
        obtain ⟨sta', h₁'⟩ := ih st₂ hagree.1.1 hreads h₁
        have hreads₁ := enumerateStaticObservations_reads hreads h₁ h₁'
        obtain ⟨stb', h₂'⟩ := ih sta' hagree.1.2 hreads₁ h₂
        have hreads₂ := enumerateStaticObservations_reads hreads₁ h₂ h₂'
        obtain ⟨stc', h₃'⟩ := ih stb' hagree.2 hreads₂ h₃
        exact ⟨stc', sta', h₁', stb', h₂', h₃'⟩

theorem evaluateNode_transfer {live : Int32 → Prop} {v : Int64} (st₂ : EvalState)
    (harch : prog₂.archIsCpu = prog₁.archIsCpu)
    (hagree : LeavesAgree prog₁ prog₂ ctx₁ ctx₂ (leaves expr fuel nodeIdx))
    (hlive : FieldsLive live (leaves expr fuel nodeIdx))
    (hcache₁ : ReadCacheAgrees prog₁ live st₁) (hcache₂ : ReadCacheAgrees prog₂ live st₂)
    (hvars : st₂.boundVars = st₁.boundVars) (hreads : st₂.reads.isSome = st₁.reads.isSome)
    (h : evaluateNode expr prog₁ ctx₁ fuel nodeIdx st₁ = .ok (v, st₁')) :
    ∃ st₂', evaluateNode expr prog₂ ctx₂ fuel nodeIdx st₂ = .ok (v, st₂') := by
  induction fuel generalizing nodeIdx st₁ st₁' st₂ v with
  | zero => simp [evaluateNode] at h
  | succ fuel ih =>
    simp only [evaluateNode] at h ⊢
    cases hnode : expr.node? nodeIdx with
    | none => simp [hnode] at h
    | some node =>
      simp only [hnode] at h ⊢
      simp only [leaves, hnode] at hagree hlive
      cases hkind : node.kind with
      | const =>
        simp only [hkind, Except.ok.injEq, Prod.mk.injEq] at h ⊢
        exact ⟨st₂, h.1, rfl⟩
      | boundVariable =>
        simp only [hkind, hvars] at h ⊢
        cases hvar : st₁.boundVars node.varId with
        | none => simp [hvar] at h
        | some w =>
          simp only [hvar, Except.ok.injEq, Prod.mk.injEq] at h ⊢
          exact ⟨st₂, h.1, rfl⟩
      | fieldLoad =>
        simp only [hkind] at h hagree hlive ⊢
        have hself := hlive node (mem_singleton.mpr rfl) hkind
        have hleaf := hagree node (mem_singleton.mpr rfl)
        simp only [LeafAgrees, hkind] at hleaf
        have hvalue := (evaluateFieldLoad_spec ctx₁ hkind hcache₁ hself h).1
        rw [← hvars] at hvalue
        exact evaluateFieldLoad_of_value hcache₂ hself (hleaf _ v hvalue)
      | externalTensorShape =>
        simp only [hkind] at h hagree ⊢
        have hleaf := hagree node (mem_singleton.mpr rfl)
        simp only [LeafAgrees, hkind] at hleaf
        exact evaluateExternalTensorShape_of_value st₂
          (hleaf v (evaluateExternalTensorShape_value h))
      | externalTensorRead =>
        simp only [hkind] at h hagree ⊢
        have hleaf := hagree node (mem_singleton.mpr rfl)
        simp only [LeafAgrees, hkind] at hleaf
        have hvalue := evaluateExternalTensorRead_value h
        rw [← hvars] at hvalue
        exact evaluateExternalTensorRead_of_value (hleaf _ v hvalue)
      | add | sub | mul | max =>
        simp only [hkind, bind_eq_ok, pure_eq_ok, Prod.mk.injEq, leavesAgree_append,
          fieldsLive_append] at h hagree hlive ⊢
        obtain ⟨⟨a, sta⟩, ha, ⟨b, stb⟩, hb, rfl, rfl⟩ := h
        obtain ⟨sta', ha'⟩ := ih st₂ hagree.1 hlive.1 hcache₁ hcache₂ hvars hreads ha
        obtain ⟨-, hwalk⟩ := evaluateNode_denote hcache₁ hlive.1 ha
        obtain ⟨-, hwalk'⟩ := evaluateNode_denote hcache₂ hlive.1 ha'
        obtain ⟨stb', hb'⟩ := ih sta' hagree.2 hlive.2 (hwalk.cache hcache₁)
          (hwalk'.cache hcache₂) (by rw [hwalk.boundVars, hwalk'.boundVars, hvars])
          (by rw [hwalk.reads_isSome, hwalk'.reads_isSome, hreads]) hb
        exact ⟨stb', (a, sta'), ha', (b, stb'), hb', rfl, rfl⟩
      | maxOverRange =>
        simp only [hkind, bind_eq_ok, pure_eq_ok, Prod.mk.injEq, leavesAgree_append,
          fieldsLive_append] at h hagree hlive ⊢
        obtain ⟨⟨hagbegin, hagend⟩, hagbody⟩ := hagree
        obtain ⟨⟨hlbegin, hlend⟩, hlbody⟩ := hlive
        obtain ⟨⟨begin', sta⟩, hbegin, ⟨end', stb⟩, hend, u, hguard, stc, henum,
          ⟨result, loopSt⟩, hloop, rfl, rfl⟩ := h
        obtain ⟨sta', hbegin'⟩ :=
          ih st₂ hagbegin hlbegin hcache₁ hcache₂ hvars hreads hbegin
        obtain ⟨-, hwa⟩ := evaluateNode_denote hcache₁ hlbegin hbegin
        obtain ⟨-, hwa'⟩ := evaluateNode_denote hcache₂ hlbegin hbegin'
        obtain ⟨stb', hend'⟩ := ih sta' hagend hlend (hwa.cache hcache₁)
          (hwa'.cache hcache₂) (by rw [hwa.boundVars, hwa'.boundVars, hvars])
          (by rw [hwa.reads_isSome, hwa'.reads_isSome, hreads]) hend
        obtain ⟨-, hwb⟩ := evaluateNode_denote (hwa.cache hcache₁) hlend hend
        obtain ⟨-, hwb'⟩ := evaluateNode_denote (hwa'.cache hcache₂) hlend hend'
        obtain ⟨stc', henum'⟩ := enumerateStaticObservations_transfer stb' hagbody
          (by rw [hwb.reads_isSome, hwb'.reads_isSome, hwa.reads_isSome,
            hwa'.reads_isSome, hreads]) henum
        have hwalk := (hwa.trans hwb).trans (enumerateStaticObservations_walked henum)
        have hwalk' := (hwa'.trans hwb').trans (enumerateStaticObservations_walked henum')
        have hstart : InRange prog₁ live st₁.boundVars node.varId
            { stc with reads := none } :=
          ⟨fun x => by rw [hwalk.boundVars], hwalk.cache hcache₁, rfl⟩
        have hstart' : InRange prog₂ live st₁.boundVars node.varId
            { stc' with reads := none } :=
          ⟨fun x => by rw [hwalk'.boundVars, hvars], hwalk'.cache hcache₂, rfl⟩
        obtain ⟨loopSt', hloop', -⟩ := maxLoop_simulation
          (fun i st => evaluateNode expr prog₂ ctx₂ fuel node.bodyNodeIdx
            { st with boundVars := update st.boundVars node.varId (some i) })
          (fun _ _ s s' => InRange prog₁ live st₁.boundVars node.varId s ∧
            InRange prog₂ live st₁.boundVars node.varId s')
          (by
            rintro _ i s s' w t ⟨hs, hs'⟩ hrun
            obtain ⟨t', hrun'⟩ := ih
              { s' with boundVars := update s'.boundVars node.varId (some i) }
              hagbody hlbody (by exact hs.cache) (by exact hs'.cache)
              (by simp only [hs.boundVars, hs'.boundVars])
              (by simp only [hs.reads, hs'.reads]) hrun
            obtain ⟨-, hw⟩ := evaluateNode_denote (by exact hs.cache) hlbody hrun
            obtain ⟨-, hw'⟩ := evaluateNode_denote (by exact hs'.cache) hlbody hrun'
            exact ⟨t', hrun', hs.step hw, hs'.step hw'⟩)
          { stc' with reads := none } ⟨hstart, hstart'⟩ hloop
        have hguard' := checkIterationGuard_congr harch begin' end'
        exact ⟨_, (begin', sta'), hbegin', (end', stb'), hend', u, hguard'.trans hguard,
          stc', henum', (result, loopSt'), hloop', rfl, rfl⟩

end Transfer

end Quadrants.AdStack.Denotation
