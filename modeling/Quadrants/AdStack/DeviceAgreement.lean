import Quadrants.AdStack.DeviceBytecode
import Quadrants.AdStack.Denotation

/-!
Agreement of the host walker and the device interpreter on an encoded size
expression.

`encodeSubtree_emitted` is the simulation: it follows the encoder through the
source tree and relates the value of a source node to what the interpreter
returns at the emitted position, for every extension of the bytecode.
-/

namespace Quadrants.AdStack.DeviceAgreement

open Quadrants.Library.StatefulLoops List
open Quadrants.Library.PrefixTable
open Quadrants.AdStack.SizeExpr
open Quadrants.AdStack.Denotation
open Quadrants.AdStack.DeviceBytecode

def Earlier (i : Nat) (idx : Int32) : Prop := 0 ≤ idx ∧ idx.toInt.toNat < i

/-- The operands a kind uses come earlier, the others are unused, and binders
have a non-negative id. -/
def OperandsOk (i : Nat) (node : SerializedSizeExprNode) : Prop :=
  match node.kind with
  | .add | .sub | .mul | .max =>
    Earlier i node.operandA ∧ Earlier i node.operandB ∧ node.bodyNodeIdx < 0
  | .maxOverRange =>
    Earlier i node.operandA ∧ Earlier i node.operandB ∧ Earlier i node.bodyNodeIdx ∧
      0 ≤ node.varId
  | .boundVariable =>
    node.operandA < 0 ∧ node.operandB < 0 ∧ node.bodyNodeIdx < 0 ∧ 0 ≤ node.varId
  | _ => node.operandA < 0 ∧ node.operandB < 0 ∧ node.bodyNodeIdx < 0

structure WellFormed (expr : SerializedSizeExpr) : Prop where
  size : expr.nodes.length < 2 ^ 31
  operands : ∀ i node, expr.nodes[i]? = some node → OperandsOk i node

variable {ctx : LaunchContextBuilder} {env : BoundVars} {expr : SerializedSizeExpr}
variable {idx x : Int32} {path remap : List Int32} {scope : DeviceEvalScope} {v : Int64}

theorem node?_eq_some {node : SerializedSizeExprNode} :
    expr.node? idx = some node ↔ 0 ≤ idx ∧ expr.nodes[idx.toInt.toNat]? = some node := by
  unfold SerializedSizeExpr.node?
  by_cases h : idx < 0
  · simp only [h, if_true, false_iff, not_and, reduceCtorEq]
    intro hle
    exact absurd h (Int32.not_lt.mpr hle)
  · simp only [h, if_false]
    exact ⟨fun hget => ⟨Int32.not_lt.mp h, hget⟩, fun hget => hget.2⟩

theorem WellFormed.operandsOk
    {node : SerializedSizeExprNode} (h : WellFormed expr) (hnode : expr.node? idx = some node) :
    OperandsOk idx.toInt.toNat node :=
  h.operands _ node (node?_eq_some.mp hnode).2

theorem tableAt_of_neg {β : Type} {table : List β} {d : β} (h : idx < 0) :
    tableAt table idx d = d := by
  simp [tableAt, h]

theorem tableAt_take {β : Type} (table : List β) {i : Nat} (d : β)
    (h : Earlier i idx) : tableAt (table.take i) idx d = tableAt table idx d := by
  unfold tableAt
  split
  · rfl
  · rw [getD_eq_getElem?_getD, getD_eq_getElem?_getD, List.getElem?_take_of_lt h.2]

theorem tableAt_buildTable {β : Type} (f : List β → SerializedSizeExprNode → β)
    {node : SerializedSizeExprNode} (d : β)
    (h : expr.node? idx = some node) : tableAt (buildTable f expr.nodes) idx d =
      f ((buildTable f expr.nodes).take idx.toInt.toNat) node := by
  obtain ⟨hle, hget⟩ := node?_eq_some.mp h
  unfold tableAt
  rw [if_neg (Int32.not_lt.mpr hle), getD_eq_getElem?_getD,
    buildTable_getElem? f hget, Option.getD_some]

theorem freeVars_eq
    {node : SerializedSizeExprNode} (hwf : WellFormed expr) (hnode : expr.node? idx = some node) :
    tableAt (computeFreeVars expr) idx [] = freeVarsStep (computeFreeVars expr) node := by
  have hops := hwf.operandsOk hnode
  rw [computeFreeVars, tableAt_buildTable freeVarsStep [] hnode]
  unfold freeVarsStep OperandsOk at *
  cases hkind : node.kind with
  | const | externalTensorShape | boundVariable | fieldLoad | externalTensorRead => rfl
  | add | sub | mul | max =>
    simp only [hkind] at hops ⊢
    rw [tableAt_take _ _ hops.1, tableAt_take _ _ hops.2.1]
  | maxOverRange =>
    simp only [hkind] at hops ⊢
    rw [tableAt_take _ _ hops.1, tableAt_take _ _ hops.2.1, tableAt_take _ _ hops.2.2.1]

theorem containsDeviceLeaf_leaf
    {node : SerializedSizeExprNode} (hwf : WellFormed expr) (hnode : expr.node? idx = some node)
    (hkind : node.kind = .const ∨ node.kind = .externalTensorShape) :
    tableAt (computeContainsDeviceLeaf expr false) idx false = false := by
  have hops := hwf.operandsOk hnode
  rw [computeContainsDeviceLeaf, tableAt_buildTable (deviceLeafStep false) false hnode]
  unfold deviceLeafStep OperandsOk at *
  rcases hkind with hkind | hkind
  all_goals
    simp only [hkind] at hops ⊢
    rw [tableAt_of_neg hops.1, tableAt_of_neg hops.2.1, tableAt_of_neg hops.2.2]
    rfl

theorem maxOverRangeValue_mono {body body' : Int64 → Except EvalError Int64}
    {begin' end' : Int64} (hbody : ∀ i w, body i = .ok w → body' i = .ok w)
    (h : maxOverRangeValue body begin' end' = .ok v) :
    maxOverRangeValue body' begin' end' = .ok v := by
  simp only [maxOverRangeValue, bind_eq_ok, pure_eq_ok] at h ⊢
  obtain ⟨⟨w, u⟩, hrun, rfl⟩ := h
  obtain ⟨u', hrun', -⟩ := maxLoop_simulation
    (fun i (st : Unit) => do return (← body' i, st)) (fun _ _ _ _ => True)
    (by
      intro _ i st st' x st₁ _ hstep
      simp only [bind_eq_ok, pure_eq_ok, Prod.mk.injEq] at hstep ⊢
      obtain ⟨y, hy, rfl, -⟩ := hstep
      exact ⟨(), ⟨y, hbody i y hy, rfl, trivial⟩, trivial⟩)
    () trivial hrun
  exact ⟨(w, u'), hrun', rfl⟩

theorem denote_mono {prog : ProgramView}
    {ctx : Option LaunchContextBuilder} {fuel fuel' : Nat} (hle : fuel ≤ fuel')
    (h : denote expr prog ctx fuel idx env = .ok v) :
    denote expr prog ctx fuel' idx env = .ok v := by
  induction fuel generalizing fuel' idx env v with
  | zero => simp [denote] at h
  | succ fuel ih =>
    obtain ⟨k, rfl⟩ : ∃ k, fuel' = k + 1 := ⟨fuel' - 1, by omega⟩
    have hk : fuel ≤ k := by omega
    simp only [denote] at h ⊢
    cases hnode : expr.node? idx with
    | none => simp [hnode] at h
    | some node =>
      simp only [hnode] at h ⊢
      cases hkind : node.kind with
      | const | fieldLoad | boundVariable | externalTensorShape | externalTensorRead =>
        simpa only [hkind] using h
      | add | sub | mul | max =>
        simp only [hkind, bind_eq_ok, pure_eq_ok] at h ⊢
        obtain ⟨a, ha, b, hb, rfl⟩ := h
        exact ⟨a, ih hk ha, b, ih hk hb, rfl⟩
      | maxOverRange =>
        simp only [hkind, bind_eq_ok] at h ⊢
        obtain ⟨b, hb, e, he, u, hguard, hmax⟩ := h
        exact ⟨b, ih hk hb, e, ih hk he, u, hguard,
          maxOverRangeValue_mono (fun i w hw => ih hk hw) hmax⟩

theorem resolveIndices_congr {env₁ env₂ : BoundVars} {unbound : Int32 → EvalError}
    {indices : List Int32} (h : ∀ x ∈ indexVars indices, env₁ x = env₂ x) :
    resolveIndices env₁ unbound indices = resolveIndices env₂ unbound indices := by
  induction indices with
  | nil => rfl
  | cons raw rest ih =>
    have hrest : ∀ x ∈ indexVars rest, env₁ x = env₂ x := by
      intro x hx
      apply h
      simp only [indexVars, mem_map, mem_filter, mem_cons] at hx ⊢
      obtain ⟨r, ⟨hr, hneg⟩, rfl⟩ := hx
      exact ⟨r, ⟨Or.inr hr, hneg⟩, rfl⟩
    have hraw : resolveIndex env₁ unbound raw = resolveIndex env₂ unbound raw := by
      unfold resolveIndex
      split
      · rfl
      · rename_i hneg
        rw [h (indexVar raw)]
        simp only [indexVars, mem_map, mem_filter, mem_cons]
        exact ⟨raw, ⟨Or.inl rfl, by simpa using Int32.not_le.mp hneg⟩, rfl⟩
    simp only [resolveIndices, hraw, ih hrest]

theorem denote_congr {prog : ProgramView}
    {ctx : Option LaunchContextBuilder} {fuel : Nat} {env₁ env₂ : BoundVars}
    (hwf : WellFormed expr) (h : ∀ x ∈ tableAt (computeFreeVars expr) idx [], env₁ x = env₂ x) :
    denote expr prog ctx fuel idx env₁ = denote expr prog ctx fuel idx env₂ := by
  induction fuel generalizing idx env₁ env₂ with
  | zero => rfl
  | succ fuel ih =>
    simp only [denote]
    cases hnode : expr.node? idx with
    | none => rfl
    | some node =>
      rw [freeVars_eq hwf hnode] at h
      unfold freeVarsStep at h
      cases hkind : node.kind with
      | const | externalTensorShape => simp only [hkind]
      | boundVariable =>
        simp only [hkind] at h ⊢
        rw [h node.varId (mem_singleton.mpr rfl)]
      | fieldLoad =>
        simp only [hkind] at h ⊢
        simp only [fieldValue, resolveIndices_congr h]
      | externalTensorRead =>
        simp only [hkind] at h ⊢
        simp only [externalReadValue, resolveIndices_congr h]
      | add | sub | mul | max =>
        simp only [hkind, mem_append] at h ⊢
        rw [ih (fun x hx => h x (Or.inl hx)), ih (fun x hx => h x (Or.inr hx))]
      | maxOverRange =>
        simp only [hkind, mem_append] at h ⊢
        have hbody : ∀ i : Int64,
            denote expr prog ctx fuel node.bodyNodeIdx
              (Function.update env₁ node.varId (some i)) =
            denote expr prog ctx fuel node.bodyNodeIdx
              (Function.update env₂ node.varId (some i)) := by
          intro i
          apply ih
          intro x hx
          by_cases hvar : x = node.varId
          · simp [hvar]
          · rw [Function.update_of_ne hvar, Function.update_of_ne hvar]
            exact h x (Or.inr (mem_filter.mpr ⟨hx, by simpa using hvar⟩))
        rw [ih (fun x hx => h x (Or.inl (Or.inl hx))), ih (fun x hx => h x (Or.inl (Or.inr hx)))]
        simp only [hbody]

theorem indexVar_nonneg {raw : Int32} (h : raw < 0) : 0 ≤ indexVar raw := by
  have hneg : raw.toInt < 0 := Int32.lt_iff_toInt_lt.mp h
  have hmin : -2147483648 ≤ raw.toInt := raw.le_toInt
  have hsucc : (raw.toInt + 1).bmod 4294967296 = raw.toInt + 1 :=
    Int.bmod_eq_of_le (by omega) (by omega)
  have hnot : (-(raw.toInt + 1)).bmod 4294967296 = -(raw.toInt + 1) :=
    Int.bmod_eq_of_le (by omega) (by omega)
  rw [Int32.le_iff_toInt_le, indexVar, Int32.toInt_neg, Int32.toInt_add]
  simp only [Int32.reduceToInt, Nat.reducePow, hsucc, hnot]
  omega

theorem indexVar_dense (d : Int32) : indexVar (-(d + 1)) = d := by
  unfold indexVar
  grind

theorem dense_neg : ∀ k : Fin 32, -(Int32.ofNat k + 1) < 0 := by
  decide

theorem dense_inScope : ∀ k : Fin 32, inScope (Int32.ofNat k) = true := by
  decide

theorem dense_injective : ∀ j k : Fin 32, Int32.ofNat j = Int32.ofNat k → j = k := by
  decide

theorem denseVarIds_foldl_mem {vs : List Int32} {v : Int32} (h : v ∈ remap ∨ v ∈ vs ∧ 0 ≤ v) :
    v ∈ vs.foldl (fun remap v => if v < 0 ∨ v ∈ remap then remap else remap ++ [v]) remap := by
  induction vs generalizing remap with
  | nil => simpa using h
  | cons w vs ih =>
    rw [foldl_cons]
    apply ih
    rcases h with hmem | ⟨hmem, hnonneg⟩
    · left
      split
      · exact hmem
      · exact mem_append_left _ hmem
    · rcases mem_cons.mp hmem with rfl | hmem
      · left
        split
        · rename_i hskip
          rcases hskip with hneg | hseen
          · exact absurd hneg (Int32.not_lt.mpr hnonneg)
          · exact hseen
        · simp
      · right
        exact ⟨hmem, hnonneg⟩

theorem mem_denseVarIds
    {node : SerializedSizeExprNode} {v : Int32} (hnode : expr.node? idx = some node)
    (hmem : v ∈ mentionedVars node) (hnonneg : 0 ≤ v) : v ∈ denseVarIds expr := by
  apply denseVarIds_foldl_mem
  right
  refine ⟨mem_flatMap.mpr ⟨node, ?_, hmem⟩, hnonneg⟩
  exact mem_of_getElem? (node?_eq_some.mp hnode).2

theorem mem_denseVarIds_index {raw : Int32}
    {node : SerializedSizeExprNode} (hnode : expr.node? idx = some node)
    (hraw : raw ∈ node.indices) (hneg : raw < 0) : indexVar raw ∈ denseVarIds expr := by
  refine mem_denseVarIds hnode (mem_append_right _ ?_) (indexVar_nonneg hneg)
  exact mem_map.mpr ⟨raw, mem_filter.mpr ⟨hraw, by simpa using hneg⟩, rfl⟩

def slot (remap : List Int32) (x : Int32) : Int32 := Int32.ofNat (remap.idxOf x)

theorem remapVarId_of_mem (h : x ∈ remap) : remapVarId remap x = .ok (slot remap x) := by
  simp [remapVarId, h, slot]

theorem slot_fin (hlen : remap.length ≤ 32)
    (h : x ∈ remap) : ∃ k : Fin 32, slot remap x = Int32.ofNat k ∧ k.val = remap.idxOf x := by
  have hlt : remap.idxOf x < 32 := Nat.lt_of_lt_of_le (idxOf_lt_length_iff.mpr h) hlen
  exact ⟨⟨remap.idxOf x, hlt⟩, rfl, rfl⟩

theorem slot_injective {y : Int32} (hlen : remap.length ≤ 32)
    (hx : x ∈ remap) (hy : y ∈ remap) (h : slot remap x = slot remap y) : x = y := by
  obtain ⟨j, hj, hjval⟩ := slot_fin hlen hx
  obtain ⟨k, hk, hkval⟩ := slot_fin hlen hy
  have heq : j = k := dense_injective j k (by rw [← hj, ← hk, h])
  exact (idxOf_inj hx).mp (by rw [← hjval, ← hkval, heq])

def ScopeRel (remap : List Int32) (env : BoundVars) (scope : DeviceEvalScope) : Prop :=
  ∀ x v, env x = some v → x ∈ remap ∧ scope (slot remap x) = v

theorem ScopeRel.read (hlen : remap.length ≤ 32) (h : ScopeRel remap env scope)
    (hx : env x = some v) : scope.read (slot remap x) = v := by
  obtain ⟨hmem, hv⟩ := h x v hx
  obtain ⟨k, hk, -⟩ := slot_fin hlen hmem
  rw [DeviceEvalScope.read, hk, dense_inScope, if_pos rfl, ← hk, hv]

theorem ScopeRel.bind (hlen : remap.length ≤ 32) (hx : x ∈ remap) (h : ScopeRel remap env scope)
    (i : Int64) :
    ScopeRel remap (Function.update env x (some i)) (scope.bind (slot remap x) i) := by
  obtain ⟨k, hk, -⟩ := slot_fin hlen hx
  have hbind : scope.bind (slot remap x) i = Function.update scope (slot remap x) i := by
    rw [DeviceEvalScope.bind, hk, dense_inScope, if_pos rfl]
  rw [hbind]
  intro y v hy
  by_cases hxy : y = x
  · subst hxy
    rw [Function.update_self, Option.some.injEq] at hy
    exact ⟨hx, by rw [Function.update_self, hy]⟩
  · rw [Function.update_of_ne hxy] at hy
    obtain ⟨hmem, hv⟩ := h y v hy
    refine ⟨hmem, ?_⟩
    rw [Function.update_of_ne (fun heq => hxy (slot_injective hlen hmem hx heq)), hv]

theorem ScopeRel.unbind {i : Int64} (hx : env x = none)
    (h : ScopeRel remap (Function.update env x (some i)) scope) : ScopeRel remap env scope := by
  intro y v hy
  apply h y v
  have hne : y ≠ x := by
    rintro rfl
    rw [hx] at hy
    exact absurd hy (by simp)
  rw [Function.update_of_ne hne, hy]

def StridesFit (ctx : LaunchContextBuilder) (argIdPath : List Int32) : Nat → Nat → Prop
  | 0, _ => True
  | 1, _ => True
  | count + 2, k =>
    let stride := (elemStrides ctx argIdPath (count + 1) (k + 1)).headD 1
    let extent := ctx.structArgs (shapeSlot argIdPath (Int32.ofNat (k + 1)))
    (stride * extent).toInt64 = stride.toInt64 * extent.toInt64 ∧
      StridesFit ctx argIdPath (count + 1) (k + 1)

def strideAfter (ctx : LaunchContextBuilder) (argIdPath : List Int32) :
    Nat → Nat → Int64 → Int64
  | 0, _, stride => stride
  | count + 1, axis, stride =>
    strideAfter ctx argIdPath count (axis - 1)
      (if 0 < axis then
        stride * (ctx.structArgs (shapeSlot argIdPath (Int32.ofNat axis))).toInt64
      else stride)

theorem linearOffset_append (ctx : LaunchContextBuilder) (path : List Int32)
    (idxs : List Int64) (idx : Int64) (axis : Nat) (linear stride : Int64) :
    linearOffset ctx path (idxs ++ [idx]) axis linear stride =
      linearOffset ctx path idxs axis linear stride +
        idx * strideAfter ctx path idxs.length axis stride := by
  induction idxs generalizing axis linear stride with
  | nil => rfl
  | cons i idxs ih =>
    simp only [cons_append, linearOffset, length_cons, strideAfter]
    rw [ih]

theorem strideAfter_succ (ctx : LaunchContextBuilder) (path : List Int32)
    (count axis : Nat) (stride : Int64) (h : count < axis) :
    strideAfter ctx path (count + 1) axis stride =
      strideAfter ctx path count axis stride *
        (ctx.structArgs (shapeSlot path (Int32.ofNat (axis - count)))).toInt64 := by
  induction count generalizing axis stride with
  | zero =>
    simp [strideAfter, if_pos h]
  | succ count ih =>
    rw [strideAfter, ih (axis - 1) _ (by omega), Nat.sub_sub, Nat.add_comm 1 count]
    rfl

theorem elemStrides_head (count k : Nat) (h : StridesFit ctx path (count + 1) k) :
    ((elemStrides ctx path (count + 1) k).headD 1).toInt64 =
      strideAfter ctx path count (k + count) 1 := by
  induction count generalizing k with
  | zero => rfl
  | succ count ih =>
    have hexact := h.1
    have hrest := ih (k + 1) h.2
    have haxis : k + (count + 1) - count = k + 1 := by omega
    have hcomm : k + 1 + count = k + (count + 1) := by omega
    rw [strideAfter_succ ctx path count _ 1 (by omega), haxis, ← hcomm, ← hrest]
    exact hexact

def weighted : List Int64 → List Int32 → Int64
  | idx :: idxs, stride :: strides => idx * stride.toInt64 + weighted idxs strides
  | _, _ => 0

theorem elemStrides_cons (ctx : LaunchContextBuilder) (path : List Int32) (count k : Nat) :
    elemStrides ctx path (count + 1) k =
      (elemStrides ctx path (count + 1) k).headD 1 :: elemStrides ctx path count (k + 1) := by
  cases count <;> rfl

theorem elemStrides_length (ctx : LaunchContextBuilder) (path : List Int32) (count k : Nat) :
    (elemStrides ctx path count k).length = count := by
  induction count generalizing k with
  | zero => rfl
  | succ count ih => rw [elemStrides_cons, length_cons, ih]

theorem StridesFit.tail {count k : Nat}
    (h : StridesFit ctx path (count + 1) k) : StridesFit ctx path count (k + 1) := by
  cases count with
  | zero => trivial
  | succ count => exact h.2

theorem linearOffset_eq_weighted
    (idxs : List Int64) (k : Nat) (h : StridesFit ctx path idxs.length k) :
    linearOffset ctx path idxs.reverse (k + idxs.length - 1) 0 1 =
      weighted idxs (elemStrides ctx path idxs.length k) := by
  induction idxs generalizing k with
  | nil => rfl
  | cons idx idxs ih =>
    have hhead := elemStrides_head idxs.length k h
    have haxis : k + (idx :: idxs).length - 1 = k + 1 + idxs.length - 1 := by
      simp only [length_cons]
      omega
    have hlast : k + 1 + idxs.length - 1 = k + idxs.length := by omega
    rw [reverse_cons, linearOffset_append, haxis, ih (k + 1) h.tail, hlast, length_cons,
      elemStrides_cons, weighted, hhead]
    grind

theorem encodeIndices_spec {raws strides : List Int32} (hlen : remap.length ≤ 32)
    (hraws : ∀ raw ∈ raws, raw < 0 → indexVar raw ∈ remap)
    (hstrides : strides.length = raws.length) :
    ∃ pairs, encodeIndices remap raws strides = .ok pairs ∧
      pairs.length = 2 * raws.length ∧
      ∀ env scope unbound resolved linear, ScopeRel remap env scope →
        resolveIndices env unbound raws = .ok resolved →
        deviceLinear scope pairs linear = linear + weighted resolved strides := by
  induction raws generalizing strides with
  | nil =>
    refine ⟨[], by simp [encodeIndices], rfl, ?_⟩
    intro env scope unbound resolved linear _ hres
    simp only [resolveIndices, Except.ok.injEq] at hres
    subst hres
    simp [deviceLinear, weighted]
  | cons raw raws ih =>
    obtain ⟨stride, strides, rfl⟩ := exists_cons_of_length_eq_add_one hstrides
    obtain ⟨pairs, hpairs, hcount, hsum⟩ := ih
      (fun r hr => hraws r (mem_cons_of_mem _ hr)) (by simpa using hstrides)
    -- the emitted entry selects on the device what the source entry selects on the host
    have hraw : ∃ raw', remapIndex remap raw = .ok raw' ∧
        ∀ env scope unbound v, ScopeRel remap env scope →
          resolveIndex env unbound raw = .ok v →
          (if 0 ≤ raw' then raw'.toInt64 else scope.read (indexVar raw')) = v := by
      by_cases hneg : raw < 0
      · have hmem := hraws raw (mem_cons_self) hneg
        obtain ⟨k, hk, -⟩ := slot_fin hlen hmem
        refine ⟨-(slot remap (indexVar raw) + 1), ?_, ?_⟩
        · simp [remapIndex, hneg, remapVarId_of_mem hmem, bind, Except.bind, pure, Except.pure]
        · intro env scope unbound v hrel hv
          have hneg' : ¬ (0 : Int32) ≤ -(slot remap (indexVar raw) + 1) := by
            rw [hk]
            exact Int32.not_le.mpr (dense_neg k)
          rw [if_neg hneg', indexVar_dense]
          apply hrel.read hlen
          unfold resolveIndex at hv
          rw [if_neg (Int32.not_le.mpr hneg)] at hv
          cases henv : env (indexVar raw) with
          | none => simp [henv] at hv
          | some w => simpa [henv] using hv
      · refine ⟨raw, by simp [remapIndex, hneg], ?_⟩
        intro env scope unbound v _ hv
        have hnonneg : 0 ≤ raw := Int32.not_lt.mp hneg
        simpa [resolveIndex, hnonneg] using hv
    obtain ⟨raw', hraw', hvalue⟩ := hraw
    refine ⟨raw' :: stride :: pairs, ?_, by simp [hcount]; omega, ?_⟩
    · simp only [encodeIndices, bind_eq_ok, pure_eq_ok]
      exact ⟨raw', hraw', pairs, hpairs, rfl⟩
    · intro env scope unbound resolved linear hrel hres
      simp only [resolveIndices, bind_eq_ok, Except.ok.injEq] at hres
      obtain ⟨v, hv, vs, hvs, rfl⟩ := hres
      rw [deviceLinear, hvalue env scope unbound v hrel hv, hsum env scope unbound vs _ hrel hvs,
        weighted]
      grind

section Simulation

variable {src : SerializedSizeExpr} {prog : ProgramView} {ctx : Option LaunchContextBuilder}
variable {mem : DeviceMemory}

def tablesOf (expr : SerializedSizeExpr) : EncoderTables where
  containsDeviceLeaf := computeContainsDeviceLeaf expr false
  freeVars := computeFreeVars expr
  varIdRemap := denseVarIds expr

/-- What the encoder accepts below a node, inside the scope of the variables
`bound`.  A subtree that is folded must have a value on the host, whether or not
a walk would visit it; no field load stays on the device; the strides of an
external read fit in 32 bits; and a range that stays on the device does not
rebind a variable of its surroundings, nor is it a constant range beyond the
guard. -/
def Encodable (src : SerializedSizeExpr) (prog : ProgramView)
    (ctx : Option LaunchContextBuilder) : Nat → Int32 → List Int32 → Prop
  | 0, _, _ => False
  | fuel + 1, idx, bound =>
    match src.node? idx with
    | none => False
    | some node =>
      if (tablesOf src).folds idx then ∃ v, hostFold src prog ctx idx = .ok v
      else match node.kind with
      | .const | .boundVariable | .externalTensorShape => True
      | .fieldLoad => False
      | .externalTensorRead =>
        ∃ c offset, ctx = some c ∧ c.argsTypeOffset = some offset ∧
          node.argIdPath ≠ [] ∧ StridesFit c node.argIdPath node.indices.length 0
      | .add | .sub | .mul | .max =>
        Encodable src prog ctx fuel node.operandA bound ∧
          Encodable src prog ctx fuel node.operandB bound
      | .maxOverRange =>
        node.varId ∉ bound ∧
          Encodable src prog ctx fuel node.operandA bound ∧
          Encodable src prog ctx fuel node.operandB bound ∧
          Encodable src prog ctx fuel node.bodyNodeIdx (node.varId :: bound) ∧
          ((tablesOf src).folds node.operandA = true → (tablesOf src).folds node.operandB = true →
            ∀ begin' end', hostFold src prog ctx node.operandA = .ok begin' →
              hostFold src prog ctx node.operandB = .ok end' →
              ¬ (begin' < end' ∧ deviceMaxOverRangeIterations < end' - begin'))

/-- Every range that is walked on the device stays within the guard. -/
def RangesFit (src : SerializedSizeExpr) (prog : ProgramView)
    (ctx : Option LaunchContextBuilder) : Nat → Int32 → BoundVars → Prop
  | 0, _, _ => True
  | fuel + 1, idx, env =>
    match src.node? idx with
    | none => True
    | some node =>
      if (tablesOf src).folds idx then True
      else match node.kind with
      | .add | .sub | .mul | .max =>
        RangesFit src prog ctx fuel node.operandA env ∧
          RangesFit src prog ctx fuel node.operandB env
      | .maxOverRange =>
        RangesFit src prog ctx fuel node.operandA env ∧
          RangesFit src prog ctx fuel node.operandB env ∧
          ∀ begin' end', denote src prog ctx fuel node.operandA env = .ok begin' →
            denote src prog ctx fuel node.operandB env = .ok end' →
            ¬ (begin' < end' ∧ deviceMaxOverRangeIterations < end' - begin') ∧
              ∀ k < tripCount begin' end',
                RangesFit src prog ctx fuel node.bodyNodeIdx
                  (Function.update env node.varId (some ((· + 1)^[k] begin')))
      | _ => True

/-- The device sees the memory of the launch: the argument buffer holds the data
pointer of every array the expression reads. -/
structure SameMemory (src : SerializedSizeExpr) (prog : ProgramView)
    (ctx : Option LaunchContextBuilder) (mem : DeviceMemory) : Prop where
  bytes : mem.bytes = prog.arrayBytes
  pointers : ∀ idx node c offset ptr, src.node? idx = some node →
    node.kind = .externalTensorRead → ctx = some c → c.argsTypeOffset = some offset →
    boundDataPtr ctx node = some ptr →
    mem.argBuffer (Int32.ofNat (offset (node.argIdPath ++ [TypeFactory.dataPtrPosInNdarray]))) = ptr

structure Extends (bc bc' : Bytecode) : Prop where
  nodes : bc.nodes <+: bc'.nodes
  indices : bc.indices <+: bc'.indices

theorem Extends.refl (bc : Bytecode) : Extends bc bc :=
  ⟨prefix_refl _, prefix_refl _⟩

variable {a b fuel : Nat} {bc bc₁ bc₂ : Bytecode} {bound : List Int32} {idx : Int32}

theorem Extends.trans {bc₃ : Bytecode} (h₁ : Extends bc₁ bc₂) (h₂ : Extends bc₂ bc₃) :
    Extends bc₁ bc₃ :=
  ⟨h₁.nodes.trans h₂.nodes, h₁.indices.trans h₂.indices⟩

theorem Extends.emit (bc : Bytecode) (node : AdStackSizeExprDeviceNode) :
    Extends bc (bc.emit node).2 :=
  ⟨prefix_append _ _, prefix_refl _⟩

theorem Extends.node {bc' : Bytecode} {i : Nat} {node : AdStackSizeExprDeviceNode}
    (h : Extends bc bc') (hnode : bc.nodes[i]? = some node) : bc'.nodes[i]? = some node := by
  obtain ⟨rest, hrest⟩ := h.nodes
  obtain ⟨hlt, -⟩ := List.getElem?_eq_some_iff.mp hnode
  rw [← hrest, List.getElem?_append_left hlt, hnode]

theorem Extends.emitted {final : Bytecode} {node : AdStackSizeExprDeviceNode}
    (h : Extends (bc.emit node).2 final) : final.node (some bc.nodes.length) = .ok node := by
  have hget : (bc.emit node).2.nodes[bc.nodes.length]? = some node := by
    simp [Bytecode.emit]
  simp [Bytecode.node, h.node hget]

/-- What encoding the node at `idx` guarantees: the bytecode only grows, a
constant root is a folded subtree, and at the root the interpreter returns the
value of the source. -/
structure Emitted (src : SerializedSizeExpr) (prog : ProgramView)
    (ctx : Option LaunchContextBuilder) (mem : DeviceMemory) (srcFuel : Nat) (idx : Int32)
    (bound : List Int32) (bc : Bytecode) (root : Nat) (bc' : Bytecode) : Prop where
  ext : Extends bc bc'
  root_lt : root < bc'.nodes.length
  const : ∀ node, bc'.nodes[root]? = some node → node.kind = .const →
    (tablesOf src).folds idx = true ∧ hostFold src prog ctx idx = .ok node.constValue
  eval : ∀ final, Extends bc' final → ∀ env scope v fuel, root < fuel →
    (∀ x, x ∉ bound → env x = none) → ScopeRel (denseVarIds src) env scope →
    RangesFit src prog ctx srcFuel idx env →
    denote src prog ctx srcFuel idx env = .ok v →
    ∃ scope', deviceEvalNode mem final fuel (some root) scope = .ok (v, scope') ∧
      ScopeRel (denseVarIds src) env scope'

theorem getElem?_emit (bc : Bytecode) (node : AdStackSizeExprDeviceNode) :
    (bc.emit node).2.nodes[(bc.emit node).1]? = some node := by
  simp [Bytecode.emit]

theorem hostFold_denote {v w : Int64} {env : BoundVars}
    (hwf : WellFormed src) (hfuel : fuel ≤ src.nodes.length)
    (hfolds : (tablesOf src).folds idx = true) (hfold : hostFold src prog ctx idx = .ok v)
    (h : denote src prog ctx fuel idx env = .ok w) : w = v := by
  have hrun : ∃ st, evaluateNode src prog ctx src.nodes.length idx bareState = .ok (v, st) := by
    unfold hostFold at hfold
    split at hfold
    · rename_i u st hrun
      simp only [Except.ok.injEq] at hfold
      exact ⟨st, by rw [hrun, hfold]⟩
    · simp at hfold
  obtain ⟨st, hrun⟩ := hrun
  have hcache : ReadCacheAgrees prog (fun _ => True) bareState := by
    intro map hmap
    simp [bareState] at hmap
  obtain ⟨hvalue, -⟩ := evaluateNode_denote hcache (fun _ _ _ => trivial) hrun
  have hclosed : tableAt (computeFreeVars src) idx [] = [] := by
    simp only [EncoderTables.folds, tablesOf, Bool.and_eq_true, List.isEmpty_iff] at hfolds
    exact hfolds.2
  have hcongr : denote src prog ctx src.nodes.length idx env =
      denote src prog ctx src.nodes.length idx emptyBoundVars :=
    denote_congr hwf (by simp [hclosed])
  have hfull := denote_mono hfuel h
  exact Except.ok.inj ((hfull.symm.trans hcongr).trans hvalue)

theorem emitted_folded {v : Int64} (hwf : WellFormed src) (hfuel : fuel ≤ src.nodes.length)
    (hfolds : (tablesOf src).folds idx = true) (hfold : hostFold src prog ctx idx = .ok v)
    (bc : Bytecode) : Emitted src prog ctx mem fuel idx bound bc
      (bc.emit { kind := .const, constValue := v }).1
      (bc.emit { kind := .const, constValue := v }).2 := by
  refine ⟨Extends.emit _ _, by simp [Bytecode.emit], ?_, ?_⟩
  · intro node hnode _
    rw [getElem?_emit, Option.some.injEq] at hnode
    rw [← hnode]
    exact ⟨hfolds, hfold⟩
  · intro final hext env scope w devFuel hlt _ hrel _ hvalue
    obtain ⟨f, rfl⟩ : ∃ f, devFuel = f + 1 := ⟨devFuel - 1, by omega⟩
    refine ⟨scope, ?_, hrel⟩
    simp only [deviceEvalNode, bind_eq_ok]
    refine ⟨_, hext.emitted, ?_⟩
    rw [hostFold_denote hwf hfuel hfolds hfold hvalue]

theorem emitted_boundVariable {node : SerializedSizeExprNode} (hlen : (denseVarIds src).length ≤ 32)
    (hnode : src.node? idx = some node) (hkind : node.kind = .boundVariable) (bc : Bytecode) :
    Emitted src prog ctx mem (fuel + 1) idx bound bc
      (bc.emit { kind := .boundVariable, varId := slot (denseVarIds src) node.varId }).1
      (bc.emit { kind := .boundVariable, varId := slot (denseVarIds src) node.varId }).2 := by
  refine ⟨Extends.emit _ _, by simp [Bytecode.emit], ?_, ?_⟩
  · intro n hn hconst
    rw [getElem?_emit, Option.some.injEq] at hn
    simp [← hn] at hconst
  · intro final hext env scope w devFuel hlt _ hrel _ hvalue
    obtain ⟨f, rfl⟩ : ∃ f, devFuel = f + 1 := ⟨devFuel - 1, by omega⟩
    refine ⟨scope, ?_, hrel⟩
    simp only [denote, hnode, hkind] at hvalue
    have hw : env node.varId = some w := by
      cases henv : env node.varId with
      | none => simp [henv] at hvalue
      | some u => simpa [henv] using hvalue
    simp only [deviceEvalNode, bind_eq_ok]
    refine ⟨_, hext.emitted, ?_⟩
    rw [hrel.read hlen hw]

theorem hostBinary_eq_deviceBinary (kind : Kind)
    (hkind : kind = .add ∨ kind = .sub ∨ kind = .mul ∨ kind = .max) (a b : Int64) :
    deviceBinary (binaryDeviceKind kind) a b = hostBinary kind a b := by
  rcases hkind with rfl | rfl | rfl | rfl
  · rfl
  · simp only [deviceBinary, binaryDeviceKind, hostBinary]
    split
    · rename_i hpos
      rw [if_neg (Int64.not_lt.mpr (Int64.le_of_lt hpos))]
    · rename_i hnonpos
      split
      · rfl
      · rename_i hnonneg
        exact Int64.le_antisymm (Int64.not_lt.mp hnonneg) (Int64.not_lt.mp hnonpos)
  · rfl
  · simp only [deviceBinary, binaryDeviceKind, hostBinary]
    split
    · rename_i hlt
      rw [if_neg (Int64.not_lt.mpr (Int64.le_of_lt hlt))]
    · rename_i hge
      split
      · rfl
      · rename_i hle
        exact Int64.le_antisymm (Int64.not_lt.mp hle) (Int64.not_lt.mp hge)

theorem emitted_binary {node : SerializedSizeExprNode} (hnode : src.node? idx = some node)
    (hkind : node.kind = .add ∨ node.kind = .sub ∨ node.kind = .mul ∨ node.kind = .max)
    (hfolds : (tablesOf src).folds idx = false)
    (ha : Emitted src prog ctx mem fuel node.operandA bound bc a bc₁)
    (hb : Emitted src prog ctx mem fuel node.operandB bound bc₁ b bc₂) :
    Emitted src prog ctx mem (fuel + 1) idx bound bc
      (bc₂.emit { kind := binaryDeviceKind node.kind
                  operandA := some a
                  operandB := some b }).1
      (bc₂.emit { kind := binaryDeviceKind node.kind
                  operandA := some a
                  operandB := some b }).2 := by
  have hsize := hb.ext.nodes.length_le
  have ha_lt := ha.root_lt
  have hb_lt := hb.root_lt
  refine ⟨(ha.ext.trans hb.ext).trans (Extends.emit _ _), by simp [Bytecode.emit], ?_, ?_⟩
  · intro n hn hconst
    rw [getElem?_emit, Option.some.injEq] at hn
    rw [← hn] at hconst
    rcases hkind with h | h | h | h <;> simp [h, binaryDeviceKind] at hconst
  · intro final hext env scope w devFuel hlt hbound hrel hfit hvalue
    obtain ⟨f, rfl⟩ : ∃ f, devFuel = f + 1 := ⟨devFuel - 1, by omega⟩
    have hlt' : bc₂.nodes.length < f + 1 := hlt
    have hext₂ := (Extends.emit bc₂ _).trans hext
    have hparts : ∃ x y, denote src prog ctx fuel node.operandA env = .ok x ∧
        denote src prog ctx fuel node.operandB env = .ok y ∧ hostBinary node.kind x y = w := by
      simp only [denote, hnode] at hvalue
      rcases hkind with h | h | h | h
      all_goals
        simp only [h, bind_eq_ok, pure_eq_ok] at hvalue
        obtain ⟨x, hx, y, hy, rfl⟩ := hvalue
        exact ⟨x, y, hx, hy, by rw [h]⟩
    have hfits : RangesFit src prog ctx fuel node.operandA env ∧
        RangesFit src prog ctx fuel node.operandB env := by
      simp only [RangesFit, hnode, hfolds, Bool.false_eq_true, if_false] at hfit
      rcases hkind with h | h | h | h <;> simpa only [h] using hfit
    obtain ⟨x, y, hx, hy, rfl⟩ := hparts
    obtain ⟨scope₁, hrunA, hrel₁⟩ := ha.eval final (hb.ext.trans hext₂) env scope x f
      (by omega) hbound hrel hfits.1 hx
    obtain ⟨scope₂, hrunB, hrel₂⟩ := hb.eval final hext₂ env scope₁ y f
      (by omega) hbound hrel₁ hfits.2 hy
    refine ⟨scope₂, ?_, hrel₂⟩
    rw [← hostBinary_eq_deviceBinary node.kind hkind]
    simp only [deviceEvalNode, bind_eq_ok]
    refine ⟨_, hext.emitted, ?_⟩
    rcases hkind with h | h | h | h
    all_goals
      simp only [h, binaryDeviceKind, bind_eq_ok, pure_eq_ok]
      exact ⟨(x, scope₁), hrunA, (y, scope₂), hrunB, rfl⟩

theorem emitted_maxOverRange {node : SerializedSizeExprNode} {bc₃ : Bytecode} {body : Nat}
    (hlen : (denseVarIds src).length ≤ 32) (hvar : node.varId ∈ denseVarIds src)
    (hnode : src.node? idx = some node) (hkind : node.kind = .maxOverRange)
    (hfolds : (tablesOf src).folds idx = false) (hfresh : node.varId ∉ bound)
    (ha : Emitted src prog ctx mem fuel node.operandA bound bc a bc₁)
    (hb : Emitted src prog ctx mem fuel node.operandB bound bc₁ b bc₂)
    (hc : Emitted src prog ctx mem fuel node.bodyNodeIdx (node.varId :: bound) bc₂ body bc₃) :
    Emitted src prog ctx mem (fuel + 1) idx bound bc
      (bc₃.emit { kind := .maxOverRange
                  operandA := some a
                  operandB := some b
                  bodyNodeIdx := some body
                  varId := slot (denseVarIds src) node.varId }).1
      (bc₃.emit { kind := .maxOverRange
                  operandA := some a
                  operandB := some b
                  bodyNodeIdx := some body
                  varId := slot (denseVarIds src) node.varId }).2 := by
  have hsize₂ := hb.ext.nodes.length_le
  have hsize₃ := hc.ext.nodes.length_le
  have ha_lt := ha.root_lt
  have hb_lt := hb.root_lt
  have hc_lt := hc.root_lt
  refine ⟨((ha.ext.trans hb.ext).trans hc.ext).trans (Extends.emit _ _),
    by simp [Bytecode.emit], ?_, ?_⟩
  · intro n hn hconst
    rw [getElem?_emit, Option.some.injEq] at hn
    simp [← hn] at hconst
  · intro final hext env scope w devFuel hlt hbound hrel hfit hvalue
    obtain ⟨f, rfl⟩ : ∃ f, devFuel = f + 1 := ⟨devFuel - 1, by omega⟩
    have hlt' : bc₃.nodes.length < f + 1 := hlt
    have hext₃ := (Extends.emit bc₃ _).trans hext
    have hext₂ := hc.ext.trans hext₃
    simp only [denote, hnode, hkind, bind_eq_ok] at hvalue
    obtain ⟨begin', hbegin, end', hend, _, -, hmax⟩ := hvalue
    simp only [RangesFit, hnode, hfolds, hkind, Bool.false_eq_true, if_false] at hfit
    obtain ⟨hfitA, hfitB, hfitBody⟩ := hfit
    obtain ⟨hguard, hfitBody⟩ := hfitBody begin' end' hbegin hend
    obtain ⟨scope₁, hrunA, hrel₁⟩ := ha.eval final (hb.ext.trans hext₂) env scope begin' f
      (by omega) hbound hrel hfitA hbegin
    obtain ⟨scope₂, hrunB, hrel₂⟩ := hb.eval final hext₂ env scope₁ end' f
      (by omega) hbound hrel₁ hfitB hend
    have hunbound : env node.varId = none := hbound node.varId hfresh
    simp only [maxOverRangeValue, bind_eq_ok, pure_eq_ok] at hmax
    obtain ⟨⟨u, _⟩, hloop, rfl⟩ := hmax
    -- the device loop follows the host loop; the scope agrees outside of the loop variable
    obtain ⟨scope₃, hloop', hrel₃, -⟩ := maxLoop_simulation
      (fun i scope => deviceEvalNode mem final f (some body)
        (scope.bind (slot (denseVarIds src) node.varId) i))
      (fun n i _ scope => ScopeRel (denseVarIds src) env scope ∧
        ∀ k < n, RangesFit src prog ctx fuel node.bodyNodeIdx
          (Function.update env node.varId (some ((· + 1)^[k] i))))
      (by
        rintro n i st s x st₁ ⟨hs, hfits⟩ hstep
        simp only [bind_eq_ok, pure_eq_ok, Prod.mk.injEq] at hstep
        obtain ⟨y, hy, rfl, -⟩ := hstep
        have hinner : ∀ z, z ∉ node.varId :: bound →
            Function.update env node.varId (some i) z = none := by
          intro z hz
          rw [mem_cons, not_or] at hz
          rw [Function.update_of_ne hz.1]
          exact hbound z hz.2
        obtain ⟨s', hrun, hs'⟩ := hc.eval final hext₃ _ _ y f (by omega) hinner
          (hs.bind hlen hvar i) (hfits 0 (by omega)) hy
        refine ⟨s', hrun, hs'.unbind hunbound, ?_⟩
        intro k hk
        have hfit := hfits (k + 1) (by omega)
        rwa [Function.iterate_succ_apply] at hfit)
      scope₂ ⟨hrel₂, hfitBody⟩ hloop
    refine ⟨scope₃, ?_, hrel₃⟩
    simp only [deviceEvalNode, bind_eq_ok]
    refine ⟨_, hext.emitted, ?_⟩
    simp only [bind_eq_ok]
    refine ⟨(begin', scope₁), hrunA, (end', scope₂), hrunB, ?_⟩
    simp only [hguard, if_false]
    exact hloop'

theorem encodeExternalTensorRead_emitted
    {node : SerializedSizeExprNode} {c : LaunchContextBuilder} {offset : List Int32 → Nat}
    (hmem : SameMemory src prog ctx mem) (hlen : (denseVarIds src).length ≤ 32)
    (hnode : src.node? idx = some node) (hkind : node.kind = .externalTensorRead)
    (hctx : ctx = some c) (hoffset : c.argsTypeOffset = some offset) (hpath : node.argIdPath ≠ [])
    (hstrides : StridesFit c node.argIdPath node.indices.length 0) (bc : Bytecode) :
    ∃ root bc', encodeExternalTensorRead ctx (denseVarIds src) idx node bc = .ok (root, bc') ∧
      Emitted src prog ctx mem (fuel + 1) idx bound bc root bc' := by
  obtain ⟨pairs, hpairs, hcount, hsum⟩ := encodeIndices_spec hlen
    (fun raw hraw hneg => mem_denseVarIds_index hnode hraw hneg)
    (elemStrides_length c node.argIdPath node.indices.length 0)
  obtain ⟨out, hout⟩ : ∃ out, out = Bytecode.emit { bc with indices := bc.indices ++ pairs }
    (externalReadNode node (offset (node.argIdPath ++ [TypeFactory.dataPtrPosInNdarray]))
      bc.indices.length) := ⟨_, rfl⟩
  refine ⟨out.1, out.2, ?_, ?_⟩
  · subst hout
    simp only [encodeExternalTensorRead, hctx, hoffset, Option.bind_some, Option.map_some, hpath,
      if_false, bind_eq_ok, pure_eq_ok]
    exact ⟨pairs, hpairs, rfl⟩
  · subst hout
    refine ⟨⟨prefix_append _ _, prefix_append _ _⟩, by simp [Bytecode.emit], ?_, ?_⟩
    · intro n hn hconst
      rw [getElem?_emit, Option.some.injEq] at hn
      simp [← hn, externalReadNode] at hconst
    · intro final hext env scope w devFuel hlt _ hrel _ hvalue
      obtain ⟨f, rfl⟩ : ∃ f, devFuel = f + 1 := ⟨devFuel - 1, by omega⟩
      refine ⟨scope, ?_, hrel⟩
      simp only [denote, hnode, hkind, externalReadValue, bind_eq_ok] at hvalue
      obtain ⟨⟨c', ptr⟩, hptr, resolved, hres, hread⟩ := hvalue
      obtain ⟨hc', hbound⟩ := resolveDataPtr_eq_ok.mp hptr
      obtain rfl : c = c' := Option.some.inj (hctx.symm.trans hc')
      have hslot := hmem.pointers idx node c offset ptr hnode hkind hctx hoffset hbound
      -- the emitted pairs are where the node says they are
      have hindices : (final.indices.drop bc.indices.length).take (2 * node.indices.length) =
          pairs := by
        obtain ⟨rest, hrest⟩ := hext.indices
        rw [← hrest, ← hcount]
        simp [Bytecode.emit]
      have hres_len := resolveIndices_length hres
      have hlinear : linearOffset c node.argIdPath resolved.reverse (resolved.length - 1) 0 1 =
          weighted resolved (elemStrides c node.argIdPath node.indices.length 0) := by
        have hfit : StridesFit c node.argIdPath resolved.length 0 := by
          rw [hres_len]
          exact hstrides
        have hsame := linearOffset_eq_weighted resolved 0 hfit
        rw [Nat.zero_add] at hsame
        rw [hsame, hres_len]
      simp only [deviceEvalNode, bind_eq_ok]
      refine ⟨_, hext.emitted, ?_⟩
      simp only [externalReadNode, deviceIndices, hindices, hslot, hmem.bytes, deviceLoadElement,
        hsum env scope _ resolved 0 hrel hres, Int64.zero_add]
      simp only [readElement, hlinear] at hread
      cases hload : loadElement (prog.arrayBytes ptr)
          (weighted resolved (elemStrides c node.argIdPath node.indices.length 0))
          (PrimitiveTypeID.ofInt node.constValue.toInt32.toInt) with
      | none =>
        rw [hload] at hread
        exact absurd hread (by simp)
      | some x =>
        rw [hload] at hread
        rw [Option.getD_some, Except.ok.inj hread]

theorem checkConstRange_ok {idxA idxB : Int32}
    (ha : Emitted src prog ctx mem fuel idxA bound bc a bc₁)
    (hb : Emitted src prog ctx mem fuel idxB bound bc₁ b bc₂)
    (hrange : (tablesOf src).folds idxA = true → (tablesOf src).folds idxB = true →
      ∀ begin' end', hostFold src prog ctx idxA = .ok begin' →
        hostFold src prog ctx idxB = .ok end' →
        ¬ (begin' < end' ∧ deviceMaxOverRangeIterations < end' - begin')) :
    checkConstRange bc₂ a b = .ok () := by
  obtain ⟨nodeA, hnodeA⟩ : ∃ n, bc₁.nodes[a]? = some n :=
    ⟨_, List.getElem?_eq_getElem ha.root_lt⟩
  obtain ⟨nodeB, hnodeB⟩ : ∃ n, bc₂.nodes[b]? = some n :=
    ⟨_, List.getElem?_eq_getElem hb.root_lt⟩
  simp only [checkConstRange, hb.ext.node hnodeA, hnodeB]
  rw [if_neg]
  rintro ⟨hconstA, hconstB, hlt, hcap⟩
  obtain ⟨hfoldsA, hvalueA⟩ := ha.const nodeA hnodeA hconstA
  obtain ⟨hfoldsB, hvalueB⟩ := hb.const nodeB hnodeB hconstB
  exact hrange hfoldsA hfoldsB _ _ hvalueA hvalueB ⟨hlt, hcap⟩

theorem folds_of_closed_leaf {node : SerializedSizeExprNode}
    (hwf : WellFormed src) (hnode : src.node? idx = some node)
    (hkind : node.kind = .const ∨ node.kind = .externalTensorShape) :
    (tablesOf src).folds idx = true := by
  have hvars : tableAt (computeFreeVars src) idx [] = [] := by
    rw [freeVars_eq hwf hnode]
    rcases hkind with h | h <;> simp [freeVarsStep, h]
  simp [EncoderTables.folds, tablesOf, containsDeviceLeaf_leaf hwf hnode hkind, hvars]

theorem encodeSubtree_emitted (hwf : WellFormed src) (hmem : SameMemory src prog ctx mem)
    (hlen : (denseVarIds src).length ≤ 32) (hfuel : fuel ≤ src.nodes.length)
    (h : Encodable src prog ctx fuel idx bound) (bc : Bytecode) :
    ∃ root bc', encodeSubtree src (tablesOf src) prog ctx fuel idx bc = .ok (root, bc') ∧
      Emitted src prog ctx mem fuel idx bound bc root bc' := by
  induction fuel generalizing idx bound bc with
  | zero => exact absurd h (by simp [Encodable])
  | succ fuel ih =>
    cases hnode : src.node? idx with
    | none => simp [Encodable, hnode] at h
    | some node =>
      simp only [Encodable, hnode] at h
      simp only [encodeSubtree, hnode]
      cases hfolds : (tablesOf src).folds idx with
      | true =>
        simp only [hfolds, if_true] at h
        obtain ⟨v, hv⟩ := h
        refine ⟨_, _, ?_, emitted_folded hwf hfuel hfolds hv bc⟩
        simp only [if_true, bind_eq_ok, pure_eq_ok]
        exact ⟨v, hv, rfl⟩
      | false =>
        simp only [hfolds, Bool.false_eq_true, if_false] at h ⊢
        cases hkind : node.kind with
        | const =>
          rw [folds_of_closed_leaf hwf hnode (Or.inl hkind)] at hfolds
          exact absurd hfolds (by simp)
        | externalTensorShape =>
          rw [folds_of_closed_leaf hwf hnode (Or.inr hkind)] at hfolds
          exact absurd hfolds (by simp)
        | fieldLoad => simp [hkind] at h
        | boundVariable =>
          have hops := hwf.operandsOk hnode
          simp only [OperandsOk, hkind] at hops
          have hvar : node.varId ∈ denseVarIds src :=
            mem_denseVarIds hnode (by simp [mentionedVars, hkind]) hops.2.2.2
          refine ⟨_, _, ?_, emitted_boundVariable hlen hnode hkind bc⟩
          simp only [bind_eq_ok, pure_eq_ok]
          exact ⟨_, remapVarId_of_mem hvar, rfl⟩
        | externalTensorRead =>
          simp only [hkind] at h
          obtain ⟨c, offset, hctx, hoffset, hpath, hstrides⟩ := h
          exact encodeExternalTensorRead_emitted hmem hlen hnode hkind hctx hoffset
            hpath hstrides bc
        | add | sub | mul | max =>
          simp only [hkind] at h
          obtain ⟨a, bc₁, hrunA, hemitA⟩ := ih (by omega) h.1 bc
          obtain ⟨b, bc₂, hrunB, hemitB⟩ := ih (by omega) h.2 bc₁
          refine ⟨_, _, ?_, emitted_binary hnode (by simp [hkind]) hfolds hemitA hemitB⟩
          simp only [bind_eq_ok, pure_eq_ok]
          exact ⟨(a, bc₁), hrunA, (b, bc₂), hrunB, by rw [hkind]⟩
        | maxOverRange =>
          simp only [hkind] at h
          obtain ⟨hfresh, hencA, hencB, hencBody, hrange⟩ := h
          have hops := hwf.operandsOk hnode
          simp only [OperandsOk, hkind] at hops
          have hvar : node.varId ∈ denseVarIds src :=
            mem_denseVarIds hnode (by simp [mentionedVars, hkind]) hops.2.2.2
          obtain ⟨a, bc₁, hrunA, hemitA⟩ := ih (by omega) hencA bc
          obtain ⟨b, bc₂, hrunB, hemitB⟩ := ih (by omega) hencB bc₁
          obtain ⟨body, bc₃, hrunBody, hemitBody⟩ := ih (by omega) hencBody bc₂
          refine ⟨_, _, ?_, emitted_maxOverRange hlen hvar hnode hkind hfolds hfresh
            hemitA hemitB hemitBody⟩
          simp only [bind_eq_ok, pure_eq_ok]
          exact ⟨(a, bc₁), hrunA, (b, bc₂), hrunB, (),
            checkConstRange_ok hemitA hemitB hrange, (body, bc₃), hrunBody, _,
            remapVarId_of_mem hvar, rfl⟩

/-- The conditions on one expression and a launch state under which encoding
succeeds and the device computes what the host computes. -/
structure Ready (expr : SerializedSizeExpr) (prog : ProgramView)
    (ctx : Option LaunchContextBuilder) (mem : DeviceMemory) : Prop where
  wellFormed : WellFormed expr
  memory : SameMemory expr prog ctx mem
  closed : tableAt (computeFreeVars expr) expr.rootIdx [] = []
  boundVars : (denseVarIds expr).length ≤ deviceMaxBoundVars
  nesting : computeMaxMorNesting expr ≤ sizerMaxPendingFrames
  encodable : Encodable expr prog ctx expr.nodes.length expr.rootIdx []
  ranges : RangesFit expr prog ctx expr.nodes.length expr.rootIdx emptyBoundVars

theorem encoderTables_ready {expr : SerializedSizeExpr} (h : Ready expr prog ctx mem) :
    encoderTables expr = .ok (tablesOf expr) := by
  have hvars : ¬ deviceMaxBoundVars < (denseVarIds expr).length := Nat.not_lt.mpr h.boundVars
  have hnest : ¬ sizerMaxPendingFrames < computeMaxMorNesting expr := Nat.not_lt.mpr h.nesting
  simp only [encoderTables, h.closed, ne_eq, not_true_eq_false, if_false, buildDenseVarIdRemap,
    hvars, hnest]
  rfl

theorem encodeStack_ready {expr : SerializedSizeExpr} (h : Ready expr prog ctx mem)
    (hne : expr.nodes ≠ []) (bc : Bytecode) :
    ∃ root bc', encodeStack prog ctx (some expr) bc = .ok (some root, bc') ∧ Extends bc bc' ∧
      root < bc'.nodes.length ∧
      ∀ final, Extends bc' final → ∀ st st' v scope, st.boundVars = emptyBoundVars →
        ReadCacheAgrees prog (fun _ => True) st →
        evaluateNode expr prog ctx expr.nodes.length expr.rootIdx st = .ok (v, st') →
        (deviceEvalNode mem final final.nodes.length (some root) scope).map Prod.fst =
          .ok v := by
  obtain ⟨root, bc', hrun, hemit⟩ := encodeSubtree_emitted h.wellFormed h.memory h.boundVars
    (Nat.le_refl _) h.encodable bc
  refine ⟨root, bc', ?_, hemit.ext, hemit.root_lt, ?_⟩
  · simp only [encodeStack, hne, if_false, bind_eq_ok, pure_eq_ok]
    exact ⟨tablesOf expr, encoderTables_ready h, (root, bc'), hrun, rfl⟩
  · intro final hext st st' v scope hvars hcache heval
    obtain ⟨hvalue, -⟩ := evaluateNode_denote hcache (fun _ _ _ => trivial) heval
    rw [hvars] at hvalue
    have hlt : root < final.nodes.length :=
      Nat.lt_of_lt_of_le hemit.root_lt hext.nodes.length_le
    obtain ⟨scope', hdevice, -⟩ := hemit.eval final hext emptyBoundVars scope v
      final.nodes.length hlt (fun _ _ => rfl)
      (fun x w hx => by simp [emptyBoundVars] at hx) h.ranges hvalue
    rw [hdevice]
    rfl

theorem encodeBytecodeCommon_ready {exprs : List (Option SerializedSizeExpr)}
    (h : ∀ expr, some expr ∈ exprs → expr.nodes ≠ [] → Ready expr prog ctx mem) (bc : Bytecode) :
    ∃ roots final, encodeBytecodeCommon prog ctx exprs bc = .ok (roots, final) ∧
      Extends bc final ∧
      ∀ (i : Nat) expr, exprs[i]? = some (some expr) → expr.nodes ≠ [] →
        ∃ root, roots[i]? = some (some root) ∧
          ∀ st st' v scope, st.boundVars = emptyBoundVars →
            ReadCacheAgrees prog (fun _ => True) st →
            evaluateNode expr prog ctx expr.nodes.length expr.rootIdx st = .ok (v, st') →
            (deviceEvalNode mem final final.nodes.length (some root) scope).map Prod.fst =
              .ok v := by
  induction exprs generalizing bc with
  | nil => exact ⟨[], bc, rfl, Extends.refl bc, by simp⟩
  | cons head exprs ih =>
    have hrest : ∀ expr, some expr ∈ exprs → expr.nodes ≠ [] → Ready expr prog ctx mem :=
      fun expr hmem hne => h expr (mem_cons_of_mem _ hmem) hne
    by_cases hcase : ∃ expr, head = some expr ∧ expr.nodes ≠ []
    · obtain ⟨expr, rfl, hne⟩ := hcase
      obtain ⟨root, bc₁, hrun, hext, -, heval⟩ :=
        encodeStack_ready (h expr mem_cons_self hne) hne bc
      obtain ⟨roots, final, hruns, hexts, hevals⟩ := ih hrest bc₁
      refine ⟨some root :: roots, final, ?_, hext.trans hexts, ?_⟩
      · simp only [encodeBytecodeCommon, bind_eq_ok, pure_eq_ok]
        exact ⟨(some root, bc₁), hrun, (roots, final), hruns, rfl⟩
      · intro i e hi hne'
        cases i with
        | zero =>
          obtain rfl : expr = e := by simpa using hi
          exact ⟨root, rfl, heval final hexts⟩
        | succ i => exact hevals i e hi hne'
    · have hskip : encodeStack prog ctx head bc = .ok (none, bc) := by
        cases head with
        | none => rfl
        | some expr =>
          have hnil : expr.nodes = [] := by
            by_contra hne
            exact hcase ⟨expr, rfl, hne⟩
          simp [encodeStack, hnil]
      obtain ⟨roots, final, hruns, hexts, hevals⟩ := ih hrest bc
      refine ⟨none :: roots, final, ?_, hexts, ?_⟩
      · simp only [encodeBytecodeCommon, bind_eq_ok, pure_eq_ok]
        exact ⟨(none, bc), hskip, (roots, final), hruns, rfl⟩
      · intro i e hi hne'
        cases i with
        | zero => exact absurd ⟨e, by simpa using hi, hne'⟩ hcase
        | succ i => exact hevals i e hi hne'

/-- For every list of stacks whose expressions are ready, encoding succeeds, and
on every stack with an expression the device interpreter returns the value of
the host walker. -/
theorem device_eq_host {exprs : List (Option SerializedSizeExpr)}
    (h : ∀ expr, some expr ∈ exprs → expr.nodes ≠ [] → Ready expr prog ctx mem) :
    ∃ roots final, encodeBytecodeCommon prog ctx exprs {} = .ok (roots, final) ∧
      ∀ (i : Nat) expr, exprs[i]? = some (some expr) → expr.nodes ≠ [] →
        ∃ root, roots[i]? = some (some root) ∧
          ∀ st st' v scope, st.boundVars = emptyBoundVars →
            ReadCacheAgrees prog (fun _ => True) st →
            evaluateNode expr prog ctx expr.nodes.length expr.rootIdx st = .ok (v, st') →
            (deviceEvalNode mem final final.nodes.length (some root) scope).map Prod.fst =
              .ok v := by
  obtain ⟨roots, final, hruns, -, hevals⟩ := encodeBytecodeCommon_ready h {}
  exact ⟨roots, final, hruns, hevals⟩

end Simulation

section Instances

/-- Byte `i` of every array is `i`, and 7 from 2 GiB on; the SNodes with a
positive id exist. -/
def sampleView : ProgramView where
  hasSnode id := 0 < id
  readInt _ _ := 5
  arrayBytes _ i := if i < 2147483648 then UInt8.ofInt i else 7
  archIsCpu := true
  snodeWriteGen _ := 0
  ndarrayDataGen _ := 0

def sampleContext (extent : Int32) : LaunchContextBuilder where
  arrayPtrs argId := if argId = 0 then some 64 else none
  structArgs _ := extent
  deviceAllocationType _ := some .none
  argsTypeOffset := some fun _ => 0

def sampleDevice : DeviceMemory where
  argBuffer _ := 64
  bytes := sampleView.arrayBytes
  roots := none

def maxOfTwo : SerializedSizeExpr where
  nodes := [{ kind := .const }, { kind := .const, constValue := 2 },
    { kind := .externalTensorRead, constValue := 8, indices := [-1], argIdPath := [0] },
    { kind := .maxOverRange, operandA := 0, operandB := 1, bodyNodeIdx := 2, varId := 0 }]

theorem maxOfTwo_ready : Ready maxOfTwo sampleView (some (sampleContext 2)) sampleDevice := by
  refine ⟨⟨by decide, ?_⟩, ⟨rfl, ?_⟩, by decide, by decide, by decide, ?_, ?_⟩
  · intro i node hnode
    rcases i with _ | _ | _ | _ | i
    · obtain rfl := Option.some.inj hnode
      simp [OperandsOk]
    · obtain rfl := Option.some.inj hnode
      simp [OperandsOk]
    · obtain rfl := Option.some.inj hnode
      simp [OperandsOk]
    · obtain rfl := Option.some.inj hnode
      simp [OperandsOk, Earlier]
    · simp [maxOfTwo] at hnode
  · intro idx node c offset ptr _ _ _ _ hptr
    simp only [boundDataPtr, Option.bind_eq_bind, Option.bind_some, sampleContext] at hptr
    obtain ⟨argId, -, hptr⟩ := Option.bind_eq_some_iff.mp hptr
    split at hptr
    · exact Option.some.inj hptr
    · simp at hptr
  · refine ⟨by decide, ⟨0, rfl⟩, ⟨2, rfl⟩, ⟨sampleContext 2, fun _ => 0, rfl, rfl, by decide,
      trivial⟩, ?_⟩
    intro _ _ begin' end' hbegin hend
    obtain rfl : 0 = begin' := Except.ok.inj hbegin
    obtain rfl : 2 = end' := Except.ok.inj hend
    decide
  · refine ⟨trivial, trivial, ?_⟩
    intro begin' end' hbegin hend
    obtain rfl : 0 = begin' := Except.ok.inj hbegin
    obtain rfl : 2 = end' := Except.ok.inj hend
    refine ⟨by decide, ?_⟩
    intro k _
    trivial

theorem device_eq_host_maxOfTwo :
    ∃ roots final, encodeBytecodeCommon sampleView (some (sampleContext 2)) [some maxOfTwo] {} =
        .ok (roots, final) ∧
      ∃ root, roots[0]? = some (some root) ∧
        (deviceEvalNode sampleDevice final final.nodes.length (some root) fun _ => 0).map
          Prod.fst = .ok 1 := by
  have hready : ∀ expr, some expr ∈ [some maxOfTwo] → expr.nodes ≠ [] →
      Ready expr sampleView (some (sampleContext 2)) sampleDevice := by
    intro expr hmem _
    obtain rfl : expr = maxOfTwo := by simpa using hmem
    exact maxOfTwo_ready
  obtain ⟨roots, final, hrun, heval⟩ := device_eq_host hready
  obtain ⟨root, hroot, hvalue⟩ := heval 0 maxOfTwo rfl (by decide)
  refine ⟨roots, final, hrun, root, hroot, ?_⟩
  exact hvalue bareState _ 1 _ rfl (fun map hmap => by simp [bareState] at hmap) rfl

def deviceValue (prog : ProgramView) (ctx : Option LaunchContextBuilder) (mem : DeviceMemory)
    (expr : SerializedSizeExpr) : Except EncodeError (Option Int64) := do
  let (roots, bc) ← encodeBytecodeCommon prog ctx [some expr] {}
  return (deviceEvalNode mem bc bc.nodes.length (roots.headD none) fun _ => 0).toOption.map
    Prod.fst

def hostValue (prog : ProgramView) (ctx : Option LaunchContextBuilder)
    (expr : SerializedSizeExpr) : Except EvalError Int64 :=
  (evaluateNode expr prog ctx expr.nodes.length expr.rootIdx bareState).map Prod.fst

/-- A range over `v0` around another range over `v0`, and a use of the outer
variable after the inner range. -/
def shadowedRange : SerializedSizeExpr where
  nodes := [{ kind := .const }, { kind := .const, constValue := 1 },
    { kind := .const, constValue := 2 },
    { kind := .externalTensorRead, constValue := 8, indices := [-1], argIdPath := [0] },
    { kind := .maxOverRange, operandA := 0, operandB := 1, bodyNodeIdx := 3, varId := 0 },
    { kind := .boundVariable, varId := 0 },
    { kind := .add, operandA := 4, operandB := 5 },
    { kind := .maxOverRange, operandA := 0, operandB := 2, bodyNodeIdx := 6, varId := 0 }]

def fieldOfVariable : SerializedSizeExpr where
  nodes := [{ kind := .const }, { kind := .const, constValue := 2 },
    { kind := .fieldLoad, snodeId := 7, indices := [-1] },
    { kind := .externalTensorRead, constValue := 8, indices := [-1], argIdPath := [0] },
    { kind := .add, operandA := 2, operandB := 3 },
    { kind := .maxOverRange, operandA := 0, operandB := 1, bodyNodeIdx := 4, varId := 0 }]

def unvisitedField : SerializedSizeExpr where
  nodes := [{ kind := .const }, { kind := .fieldLoad, snodeId := 0 },
    { kind := .externalTensorRead, constValue := 8, indices := [-1], argIdPath := [0] },
    { kind := .add, operandA := 1, operandB := 2 },
    { kind := .maxOverRange, operandA := 0, operandB := 0, bodyNodeIdx := 3, varId := 0 }]

def unvisitedLongRange : SerializedSizeExpr where
  nodes := [{ kind := .const }, { kind := .const, constValue := 16777217 },
    { kind := .externalTensorRead, constValue := 8, indices := [-2], argIdPath := [0] },
    { kind := .maxOverRange, operandA := 0, operandB := 1, bodyNodeIdx := 2, varId := 1 },
    { kind := .maxOverRange, operandA := 0, operandB := 0, bodyNodeIdx := 3, varId := 0 }]

def readThreeAxes : SerializedSizeExpr where
  nodes :=
    [{ kind := .externalTensorRead, constValue := 8, indices := [1, 0, 1], argIdPath := [0] }]

/-- The evaluators disagree: on a rebound variable, on strides beyond 32 bits,
and where the encoder refuses an expression that the host evaluates. -/
theorem device_ne_host : (hostValue sampleView (some (sampleContext 2)) shadowedRange = .ok 1 ∧
      deviceValue sampleView (some (sampleContext 2)) sampleDevice shadowedRange =
        .ok (some 0)) ∧
    (hostValue sampleView (some (sampleContext 65536)) readThreeAxes = .ok 7 ∧
      deviceValue sampleView (some (sampleContext 65536)) sampleDevice readThreeAxes =
        .ok (some 1)) ∧
    (hostValue sampleView (some (sampleContext 2)) fieldOfVariable = .ok 6 ∧
      deviceValue sampleView (some (sampleContext 2)) sampleDevice fieldOfVariable =
        .error (.fieldLoadWithoutEmitter 2)) ∧
    (hostValue sampleView (some (sampleContext 2)) unvisitedField = .ok 0 ∧
      deviceValue sampleView (some (sampleContext 2)) sampleDevice unvisitedField =
        .error (.hostFold (.fieldLoadSnodeNotFound 0))) ∧
    (hostValue sampleView (some (sampleContext 2)) unvisitedLongRange = .ok 0 ∧
      deviceValue sampleView (some (sampleContext 2)) sampleDevice unvisitedLongRange =
        .error (.maxOverRangeGuard 16777217 16777216)) := by
  decide

end Instances

end Quadrants.AdStack.DeviceAgreement
