import Mathlib.Data.Finset.Image
import Mathlib.Logic.Function.Basic
import Quadrants.Library.PrefixRewriting

/-!
What the discovery pass of `_pruning.py` records: the names and attribute chains that a function
uses, and one edge for each call site.
-/

namespace Quadrants.CallPruning

abbrev Name := List Char

abbrev FuncId := ℕ

def delimiter : Name := ['_', '_', 'q', 'd', '_']

def createFlatName (basename childName : Name) : Name :=
  if delimiter.isPrefixOf basename then basename ++ delimiter ++ childName
  else delimiter ++ basename ++ delimiter ++ childName

inductive ArgNode where
  | name (id : Name)
  | attribute (value : ArgNode) (attr : Name)
  | other

def flattenArgNode : ArgNode → Option (Name × Name)
  | .name id => some (id, id)
  | .attribute value attr =>
    match flattenArgNode value with
    | none => none
    | some (parentFlat, rootId) => some (createFlatName parentFlat attr, rootId)
  | .other => none

/-- In `pairs` the name of the caller stands first, in `chainPairs` the parameter. A `**kwargs`
argument has no parameter. -/
structure CallEdge where
  callerFuncId : FuncId
  calleeFuncId : FuncId
  pairs : List (Name × Option Name)
  positionalMap : List (Name × List Name)
  chainPairs : List (Name × Name)
  deriving DecidableEq

structure CallSiteKey where
  callerFuncId : FuncId
  calleeFuncId : FuncId
  lineno : ℕ
  colOffset : ℕ
  deriving DecidableEq

/-- The call of a function or method of the repository, as the discovery pass sees it. -/
structure Call where
  callerFuncId : FuncId
  calleeFuncId : FuncId
  hasSelf : Bool
  argMetasExpanded : List Name
  lineno : ℕ
  colOffset : ℕ
  nodeArgs : List ArgNode
  nodeKeywords : List (Option Name × ArgNode)

def callSiteKey (call : Call) : CallSiteKey :=
  ⟨call.callerFuncId, call.calleeFuncId, call.lineno, call.colOffset⟩

def appendAt (positionalMap : List (Name × List Name)) (name param : Name) :
    List (Name × List Name) :=
  match positionalMap with
  | [] => [(name, [param])]
  | (key, params) :: rest =>
    if key = name then (key, params ++ [param]) :: rest
    else (key, params) :: appendAt rest name param

def recordArg (argMetas : List Name) (edge : CallEdge) (slot : ℕ) (arg : ArgNode) :
    Option CallEdge := do
  let edge ←
    match arg with
    | .name callerArgName => do
        let calleeParamName ← argMetas[slot]?
        let edge := { edge with pairs := edge.pairs ++ [(callerArgName, some calleeParamName)] }
        if delimiter.isPrefixOf callerArgName then
          some { edge with
            positionalMap := appendAt edge.positionalMap callerArgName calleeParamName }
        else some edge
    | _ => some edge
  match flattenArgNode arg with
  | none => some edge
  | some (callerFlat, rootId) =>
    if delimiter.isPrefixOf rootId then some edge
    else do
      let calleeParamName ← argMetas[slot]?
      some { edge with chainPairs := edge.chainPairs ++ [(calleeParamName, callerFlat)] }

def recordArgs (argMetas : List Name) : CallEdge → ℕ → List ArgNode → Option CallEdge
  | edge, _, [] => some edge
  | edge, slot, arg :: args => do
      let edge ← recordArg argMetas edge slot arg
      recordArgs argMetas edge (slot + 1) args

def recordKeyword (edge : CallEdge) (kwarg : Option Name × ArgNode) : CallEdge :=
  let edge :=
    match kwarg.2 with
    | .name callerArgName => { edge with pairs := edge.pairs ++ [(callerArgName, kwarg.1)] }
    | _ => edge
  match flattenArgNode kwarg.2, kwarg.1 with
  | some (callerFlat, rootId), some calleeParamName =>
    if delimiter.isPrefixOf rootId then edge
    else { edge with chainPairs := edge.chainPairs ++ [(calleeParamName, callerFlat)] }
  | _, _ => edge

def callEdge (call : Call) : Option CallEdge := do
  let selfOffset := if call.hasSelf then 1 else 0
  let edge ← recordArgs call.argMetasExpanded ⟨call.callerFuncId, call.calleeFuncId, [], [], []⟩
    selfOffset call.nodeArgs
  some (call.nodeKeywords.foldl recordKeyword edge)

/-- The sets by function id. `funcIds` are the ids that have an entry in one of the two
dictionaries. -/
structure Pruning where
  usedVars : FuncId → Finset Name
  chainPaths : FuncId → Finset Name
  funcIds : List FuncId
  used_empty : ∀ f, f ∉ funcIds → usedVars f = ∅
  chain_empty : ∀ f, f ∉ funcIds → chainPaths f = ∅
  edgesByCallSite : List (CallSiteKey × CallEdge)

namespace Pruning

def empty : Pruning where
  usedVars _ := ∅
  chainPaths _ := ∅
  funcIds := []
  used_empty _ _ := rfl
  chain_empty _ _ := rfl
  edgesByCallSite := []

def edges (p : Pruning) : List CallEdge :=
  p.edgesByCallSite.map Prod.snd

def markUsed (p : Pruning) (funcId : FuncId) (parameterFlatName : Name) : Pruning where
  usedVars := Function.update p.usedVars funcId (insert parameterFlatName (p.usedVars funcId))
  chainPaths := p.chainPaths
  funcIds := funcId :: p.funcIds
  used_empty f hf := by
    rw [List.mem_cons, not_or] at hf
    rw [Function.update_of_ne hf.1, p.used_empty f hf.2]
  chain_empty f hf := p.chain_empty f fun h => hf (List.mem_cons_of_mem _ h)
  edgesByCallSite := p.edgesByCallSite

def markKernelArgChainUsed (p : Pruning) (funcId : FuncId) (chainFlatName : Name) : Pruning where
  usedVars := p.usedVars
  chainPaths := Function.update p.chainPaths funcId (insert chainFlatName (p.chainPaths funcId))
  funcIds := funcId :: p.funcIds
  used_empty f hf := p.used_empty f fun h => hf (List.mem_cons_of_mem _ h)
  chain_empty f hf := by
    rw [List.mem_cons, not_or] at hf
    rw [Function.update_of_ne hf.1, p.chain_empty f hf.2]
  edgesByCallSite := p.edgesByCallSite

def setEdge (key : CallSiteKey) (edge : CallEdge) :
    List (CallSiteKey × CallEdge) → List (CallSiteKey × CallEdge)
  | [] => [(key, edge)]
  | entry :: rest =>
    if entry.1 = key then (key, edge) :: rest else entry :: setEdge key edge rest

def recordAfterCall (p : Pruning) (call : Call) : Option Pruning := do
  let edge ← callEdge call
  some { p with edgesByCallSite := setEdge (callSiteKey call) edge p.edgesByCallSite }

end Pruning

end Quadrants.CallPruning

/-!
`propagate_fixpoint`: the used names and the chain paths of the callees go to the callers, edge by
edge, as long as a worklist of callees has entries.
-/

namespace Quadrants.CallPruning

open Library.PrefixRewriting

def chainPrefix (calleeParamName : Name) : Name :=
  delimiter ++ calleeParamName ++ delimiter

def rerooted (callerFlat : Name) : Name :=
  if delimiter.isPrefixOf callerFlat then callerFlat ++ delimiter
  else delimiter ++ callerFlat ++ delimiter

def propagateChainPaths (calleeChainPaths : Finset Name) (calleeParamName callerFlat : Name)
    (chainPathsToPropagate : Finset Name) : Finset Name :=
  chainPathsToPropagate ∪
    (calleeChainPaths.filter fun sub => (chainPrefix calleeParamName).isPrefixOf sub).image
      fun sub => rerooted callerFlat ++ sub.drop (chainPrefix calleeParamName).length

structure State where
  usedVars : FuncId → Finset Name
  chainPaths : FuncId → Finset Name
  worklist : List FuncId
  queued : Finset FuncId

def forwardPair (edge : CallEdge) (acc : (FuncId → Finset Name) × Bool)
    (pair : Name × Option Name) : (FuncId → Finset Name) × Bool :=
  if (∃ calleeParam ∈ acc.1 edge.calleeFuncId, pair.2 = some calleeParam) ∧
      pair.1 ∉ acc.1 edge.callerFuncId then
    (Function.update acc.1 edge.callerFuncId (insert pair.1 (acc.1 edge.callerFuncId)), true)
  else acc

def forwardUsed (edge : CallEdge) (usedVars : FuncId → Finset Name) :
    (FuncId → Finset Name) × Bool :=
  edge.pairs.foldl (forwardPair edge) (usedVars, false)

def propagated (edge : CallEdge) (chainPaths : FuncId → Finset Name) : Finset Name :=
  edge.chainPairs.foldl (fun acc pair =>
    propagateChainPaths (chainPaths edge.calleeFuncId) pair.1 pair.2 acc) ∅

def forwardChains (edge : CallEdge) (chainPaths : FuncId → Finset Name) :
    (FuncId → Finset Name) × Bool :=
  if propagated edge chainPaths ⊆ chainPaths edge.callerFuncId then (chainPaths, false)
  else
    (Function.update chainPaths edge.callerFuncId
      (chainPaths edge.callerFuncId ∪ propagated edge chainPaths), true)

def enqueue (funcId : FuncId) (s : State) : State :=
  if funcId ∈ s.queued then s
  else { s with worklist := s.worklist ++ [funcId], queued := insert funcId s.queued }

def visitEdge (s : State) (edge : CallEdge) : State :=
  let used := forwardUsed edge s.usedVars
  let chains := forwardChains edge s.chainPaths
  let s := { s with usedVars := used.1, chainPaths := chains.1 }
  if used.2 || chains.2 then enqueue edge.callerFuncId s else s

def edgesByCallee (edges : List CallEdge) (calleeFuncId : FuncId) : List CallEdge :=
  edges.filter fun edge => edge.calleeFuncId = calleeFuncId

def visitCallee (edges : List CallEdge) (s : State) : Option State :=
  match s.worklist with
  | [] => none
  | calleeFuncId :: worklist =>
    some ((edgesByCallee edges calleeFuncId).foldl visitEdge
      { s with worklist := worklist, queued := s.queued.erase calleeFuncId })

def run (edges : List CallEdge) : ℕ → State → Option State
  | 0, _ => none
  | fuel + 1, s =>
    match visitCallee edges s with
    | none => some s
    | some s => run edges fuel s

def Pruning.start (p : Pruning) (order : List FuncId) : State :=
  ⟨p.usedVars, p.chainPaths, order, order.toFinset⟩

def Pruning.propagateFixpoint (p : Pruning) (order : List FuncId) (fuel : ℕ) : Option State :=
  run p.edges fuel (p.start order)

structure Saturated (edge : CallEdge) (usedVars chainPaths : FuncId → Set Name) : Prop where
  used : ∀ callerArg calleeParam, (callerArg, some calleeParam) ∈ edge.pairs →
    calleeParam ∈ usedVars edge.calleeFuncId → callerArg ∈ usedVars edge.callerFuncId
  chains : ∀ calleeParam callerFlat, (calleeParam, callerFlat) ∈ edge.chainPairs →
    ∀ rest, chainPrefix calleeParam ++ rest ∈ chainPaths edge.calleeFuncId →
      rerooted callerFlat ++ rest ∈ chainPaths edge.callerFuncId

structure Pruning.Closed (p : Pruning) (usedVars chainPaths : FuncId → Set Name) : Prop where
  used : ∀ f, ∀ name ∈ p.usedVars f, name ∈ usedVars f
  chains : ∀ f, ∀ path ∈ p.chainPaths f, path ∈ chainPaths f
  saturated : ∀ edge ∈ p.edges, Saturated edge usedVars chainPaths

structure Pruning.LeastClosed (p : Pruning) (usedVars chainPaths : FuncId → Set Name) : Prop where
  closed : p.Closed usedVars chainPaths
  least : ∀ usedVars' chainPaths', p.Closed usedVars' chainPaths' →
    ∀ f, usedVars f ⊆ usedVars' f ∧ chainPaths f ⊆ chainPaths' f

def chainRules (edges : List CallEdge) : List (Rule FuncId Char) :=
  edges.flatMap fun edge => edge.chainPairs.map fun pair =>
    ⟨edge.calleeFuncId, chainPrefix pair.1, edge.callerFuncId, rerooted pair.2⟩

noncomputable def Pruning.recordedPaths (p : Pruning) : List (FuncId × Name) :=
  p.funcIds.flatMap fun f => (p.chainPaths f).toList.map (Prod.mk f)

/-- Along the edges a recorded path comes to a function and a beginning that come back to
themselves with something left behind. -/
def Pruning.LengtheningCycle (p : Pruning) : Prop :=
  Lengthens (chainRules p.edges) p.recordedPaths

end Quadrants.CallPruning

/-!
When the worklist is empty, the sets are the least ones that satisfy every edge.
-/

namespace Quadrants.CallPruning

open Library.PrefixRewriting

inductive UsedBy (p : Pruning) : FuncId → Name → Prop
  | recorded {f : FuncId} {name : Name} (h : name ∈ p.usedVars f) : UsedBy p f name
  | forwarded {edge : CallEdge} {callerArg calleeParam : Name} (hedge : edge ∈ p.edges)
      (hpair : (callerArg, some calleeParam) ∈ edge.pairs)
      (h : UsedBy p edge.calleeFuncId calleeParam) : UsedBy p edge.callerFuncId callerArg

def ChainOf (p : Pruning) (f : FuncId) (path : Name) : Prop :=
  (f, path) ∈ reachable (chainRules p.edges) p.recordedPaths

section Closure

variable {p : Pruning}

variable {f : FuncId} {path : Name}

theorem mem_recordedPaths : (f, path) ∈ p.recordedPaths ↔ path ∈ p.chainPaths f := by
  simp only [Pruning.recordedPaths, List.mem_flatMap, List.mem_map, Finset.mem_toList,
    Prod.mk.injEq]
  constructor
  · rintro ⟨_, -, _, h, rfl, rfl⟩
    exact h
  · intro h
    refine ⟨f, ?_, path, h, rfl, rfl⟩
    by_contra hf
    rw [p.chain_empty f hf] at h
    exact absurd h (Finset.notMem_empty _)

variable {calleeParam callerFlat : Name} {chainPaths usedVars : FuncId → Set Name}
variable {edge : CallEdge}

theorem mem_chainRules {edges : List CallEdge} (hedge : edge ∈ edges)
    (hpair : (calleeParam, callerFlat) ∈ edge.chainPairs) :
    (⟨edge.calleeFuncId, chainPrefix calleeParam, edge.callerFuncId, rerooted callerFlat⟩ :
      Rule FuncId Char) ∈ chainRules edges :=
  List.mem_flatMap.2 ⟨edge, hedge, List.mem_map.2 ⟨_, hpair, rfl⟩⟩

theorem chainOf_recorded (h : path ∈ p.chainPaths f) : ChainOf p f path :=
  ⟨(f, path), mem_recordedPaths.2 h, .refl⟩

theorem chainOf_forwarded (hedge : edge ∈ p.edges)
    (hpair : (calleeParam, callerFlat) ∈ edge.chainPairs) {rest : Name}
    (h : ChainOf p edge.calleeFuncId (chainPrefix calleeParam ++ rest)) :
    ChainOf p edge.callerFuncId (rerooted callerFlat ++ rest) := by
  obtain ⟨start, hstart, hreach⟩ := h
  exact ⟨start, hstart, hreach.tail (.mk _ rest (mem_chainRules hedge hpair))⟩

theorem Pruning.Closed.usedBy
    (h : p.Closed usedVars chainPaths) {name : Name} (hused : UsedBy p f name) :
    name ∈ usedVars f := by
  induction hused with
  | recorded hname => exact h.used _ _ hname
  | forwarded hedge hpair _ ih => exact (h.saturated _ hedge).used _ _ hpair ih

theorem Pruning.Closed.chainOf
    (h : p.Closed usedVars chainPaths) (hchain : ChainOf p f path) : path ∈ chainPaths f := by
  obtain ⟨start, hstart, hreach⟩ := hchain
  have hstep : ∀ d : FuncId × Name, Reach (chainRules p.edges) start d → d.2 ∈ chainPaths d.1 := by
    intro d hd
    induction hd with
    | refl => exact h.chains _ _ (mem_recordedPaths.1 hstart)
    | tail _ hstep ih =>
      cases hstep with
      | mk rule rest hrule =>
        obtain ⟨edge, hedge, hmap⟩ := List.mem_flatMap.1 hrule
        obtain ⟨⟨calleeParam, callerFlat⟩, hpair, rfl⟩ := List.mem_map.1 hmap
        exact (h.saturated edge hedge).chains _ _ hpair rest ih
  exact hstep _ hreach

end Closure

section Growth

structure Grown (caller : FuncId) (before after : FuncId → Finset Name) (grew : Bool) : Prop where
  mono : ∀ f, before f ⊆ after f
  others : ∀ f, f ≠ caller → after f = before f
  same : grew = false → after = before
  new : grew = true → ∃ name ∈ after caller, name ∉ before caller

theorem Grown.refl (caller : FuncId) (sets : FuncId → Finset Name) :
    Grown caller sets sets false where
  mono _ := Finset.Subset.refl _
  others _ _ := rfl
  same _ := rfl
  new h := by cases h

variable {caller : FuncId} {more : Finset Name} {name : Name} {sets : FuncId → Finset Name}

theorem Grown.trans {first second third : FuncId → Finset Name}
    {grew grew' : Bool} (h : Grown caller first second grew) (h' : Grown caller second third grew') :
    Grown caller first third (grew || grew') where
  mono f := (h.mono f).trans (h'.mono f)
  others f hf := (h'.others f hf).trans (h.others f hf)
  same hsame := by
    rw [Bool.or_eq_false_iff] at hsame
    rw [h'.same hsame.2, h.same hsame.1]
  new hnew := by
    rcases Bool.or_eq_true_iff.1 hnew with hgrew | hgrew
    · obtain ⟨name, hname, hfresh⟩ := h.new hgrew
      exact ⟨name, h'.mono caller hname, hfresh⟩
    · obtain ⟨name, hname, hfresh⟩ := h'.new hgrew
      exact ⟨name, hname, fun hbefore => hfresh (h.mono caller hbefore)⟩

theorem grown_update (hsubset : sets caller ⊆ more) (hname : name ∈ more)
    (hfresh : name ∉ sets caller) : Grown caller sets (Function.update sets caller more) true where
  mono f := by
    by_cases hf : f = caller
    · rw [hf, Function.update_self]
      exact hsubset
    · rw [Function.update_of_ne hf]
  others f hf := Function.update_of_ne hf _ _
  same h := by cases h
  new _ := ⟨name, by rwa [Function.update_self], hfresh⟩

theorem mem_update_self (h : name ∈ more) : name ∈ Function.update sets caller more caller := by
  rwa [Function.update_self]

theorem mem_of_mem_update {f : FuncId} (h : name ∈ Function.update sets caller more f) :
    name ∈ sets f ∨ f = caller ∧ name ∈ more := by
  by_cases hf : f = caller
  · subst hf
    rw [Function.update_self] at h
    exact .inr ⟨rfl, h⟩
  · rw [Function.update_of_ne hf] at h
    exact .inl h

end Growth

section Edge

variable {p : Pruning} {edge : CallEdge}

theorem forwardPairs_grown (edge : CallEdge) (pairs : List (Name × Option Name)) :
    ∀ (usedVars : FuncId → Finset Name) (grew : Bool),
      ∃ more, Grown edge.callerFuncId usedVars
          (pairs.foldl (forwardPair edge) (usedVars, grew)).1 more ∧
        (pairs.foldl (forwardPair edge) (usedVars, grew)).2 = (grew || more) ∧
        (more = false → ∀ callerArg calleeParam, (callerArg, some calleeParam) ∈ pairs →
          calleeParam ∈ usedVars edge.calleeFuncId → callerArg ∈ usedVars edge.callerFuncId) := by
  induction pairs with
  | nil =>
    intro usedVars grew
    exact ⟨false, .refl _ _, (Bool.or_false grew).symm, fun _ _ _ h => (nomatch h)⟩
  | cons pair pairs ih =>
    intro usedVars grew
    rw [List.foldl_cons, forwardPair]
    split
    · next h =>
        obtain ⟨more, hgrown, hgrew, -⟩ := ih (Function.update usedVars edge.callerFuncId
          (insert pair.1 (usedVars edge.callerFuncId))) true
        refine ⟨true, ?_, ?_, fun hfalse => by cases hfalse⟩
        · have hfirst := grown_update (Finset.subset_insert pair.1 _)
            (Finset.mem_insert_self pair.1 _) h.2
          have hboth := hfirst.trans hgrown
          rwa [Bool.true_or] at hboth
        · rw [hgrew, Bool.true_or, Bool.or_true]
    · next h =>
        obtain ⟨more, hgrown, hgrew, hpairs⟩ := ih usedVars grew
        refine ⟨more, hgrown, hgrew, fun hmore callerArg calleeParam hmem hparam => ?_⟩
        rcases List.mem_cons.1 hmem with rfl | hmem
        · by_contra hfresh
          exact h ⟨⟨calleeParam, hparam, rfl⟩, hfresh⟩
        · exact hpairs hmore callerArg calleeParam hmem hparam

theorem forwardPairs_needed (hedge : edge ∈ p.edges) (pairs : List (Name × Option Name)) :
    pairs ⊆ edge.pairs → ∀ (usedVars : FuncId → Finset Name) (grew : Bool),
      (∀ f, ∀ name ∈ usedVars f, UsedBy p f name) →
      ∀ f, ∀ name ∈ (pairs.foldl (forwardPair edge) (usedVars, grew)).1 f, UsedBy p f name := by
  induction pairs with
  | nil => exact fun _ usedVars grew h => h
  | cons pair pairs ih =>
    intro hsubset usedVars grew h
    have hpair := hsubset List.mem_cons_self
    have hpairs : pairs ⊆ edge.pairs := fun x hx => hsubset (List.mem_cons_of_mem _ hx)
    rw [List.foldl_cons, forwardPair]
    split
    · next hcond =>
        obtain ⟨⟨calleeParam, hparam, hsome⟩, -⟩ := hcond
        apply ih hpairs
        intro f name hname
        rcases mem_of_mem_update hname with hbefore | ⟨rfl, hmore⟩
        · exact h f name hbefore
        · rcases Finset.mem_insert.1 hmore with rfl | hbefore
          · exact .forwarded hedge (hsome ▸ hpair) (h _ _ hparam)
          · exact h _ name hbefore
    · exact ih hpairs usedVars grew h

variable {calleeParam path : Name}

theorem mem_propagateChainPaths {paths acc : Finset Name} {callerFlat : Name} :
    path ∈ propagateChainPaths paths calleeParam callerFlat acc ↔
      path ∈ acc ∨ ∃ rest, chainPrefix calleeParam ++ rest ∈ paths ∧
        path = rerooted callerFlat ++ rest := by
  simp only [propagateChainPaths, Finset.mem_union, Finset.mem_image, Finset.mem_filter,
    List.isPrefixOf_iff_prefix]
  refine or_congr Iff.rfl ?_
  constructor
  · rintro ⟨sub, ⟨hsub, rest, rfl⟩, rfl⟩
    rw [List.drop_left]
    exact ⟨rest, hsub, rfl⟩
  · rintro ⟨rest, hsub, rfl⟩
    refine ⟨_, ⟨hsub, List.prefix_append _ _⟩, ?_⟩
    rw [List.drop_left]

variable {chainPaths : FuncId → Finset Name}

theorem mem_propagated : path ∈ propagated edge chainPaths ↔
      ∃ calleeParam callerFlat rest, (calleeParam, callerFlat) ∈ edge.chainPairs ∧
        chainPrefix calleeParam ++ rest ∈ chainPaths edge.calleeFuncId ∧
        path = rerooted callerFlat ++ rest := by
  have hfold : ∀ (pairs : List (Name × Name)) (acc : Finset Name),
      path ∈ pairs.foldl (fun acc pair =>
          propagateChainPaths (chainPaths edge.calleeFuncId) pair.1 pair.2 acc) acc ↔
        path ∈ acc ∨ ∃ calleeParam callerFlat rest, (calleeParam, callerFlat) ∈ pairs ∧
          chainPrefix calleeParam ++ rest ∈ chainPaths edge.calleeFuncId ∧
          path = rerooted callerFlat ++ rest := by
    intro pairs
    induction pairs with
    | nil => intro acc; simp
    | cons pair pairs ih =>
      intro acc
      rw [List.foldl_cons, ih, mem_propagateChainPaths]
      constructor
      · rintro ((hacc | ⟨rest, hmem, heq⟩) | ⟨calleeParam, callerFlat, rest, hpair, hrest⟩)
        · exact .inl hacc
        · exact .inr ⟨pair.1, pair.2, rest, List.mem_cons_self, hmem, heq⟩
        · exact .inr ⟨calleeParam, callerFlat, rest, List.mem_cons_of_mem _ hpair, hrest⟩
      · rintro (hacc | ⟨calleeParam, callerFlat, rest, hpair, hrest⟩)
        · exact .inl (.inl hacc)
        · rcases List.mem_cons.1 hpair with rfl | hpair
          · exact .inl (.inr ⟨rest, hrest⟩)
          · exact .inr ⟨calleeParam, callerFlat, rest, hpair, hrest⟩
  rw [propagated, hfold]
  exact or_iff_right (Finset.notMem_empty _)

theorem forwardChains_grown (edge : CallEdge) (chainPaths : FuncId → Finset Name) :
    Grown edge.callerFuncId chainPaths (forwardChains edge chainPaths).1
      (forwardChains edge chainPaths).2 := by
  unfold forwardChains
  split
  · exact .refl _ _
  · next h =>
      obtain ⟨path, hpath, hfresh⟩ := Finset.not_subset.1 h
      exact grown_update Finset.subset_union_left (Finset.mem_union_right _ hpath) hfresh

theorem forwardChains_needed (hedge : edge ∈ p.edges)
    (h : ∀ f, ∀ path ∈ chainPaths f, ChainOf p f path) :
    ∀ f, ∀ path ∈ (forwardChains edge chainPaths).1 f, ChainOf p f path := by
  intro f path hpath
  unfold forwardChains at hpath
  split at hpath
  · exact h f path hpath
  · rcases mem_of_mem_update hpath with hbefore | ⟨rfl, hmore⟩
    · exact h f path hbefore
    · rcases Finset.mem_union.1 hmore with hbefore | hnew
      · exact h _ path hbefore
      · obtain ⟨calleeParam, callerFlat, rest, hpair, hrest, rfl⟩ := mem_propagated.1 hnew
        exact chainOf_forwarded hedge hpair (h _ _ hrest)

theorem saturated_of_not_grown {usedVars : FuncId → Finset Name}
    (hused : (forwardUsed edge usedVars).2 = false)
    (hchains : (forwardChains edge chainPaths).2 = false) :
    Saturated edge (fun f => (usedVars f : Set Name)) (fun f => (chainPaths f : Set Name)) where
  used callerArg calleeParam hpair hparam := by
    obtain ⟨more, -, hgrew, hpairs⟩ := forwardPairs_grown edge edge.pairs usedVars false
    rw [forwardUsed, hgrew] at hused
    exact hpairs hused callerArg calleeParam hpair hparam
  chains calleeParam callerFlat hpair rest hrest := by
    unfold forwardChains at hchains
    split at hchains
    · next h => exact h (mem_propagated.2 ⟨calleeParam, callerFlat, rest, hpair, hrest, rfl⟩)
    · cases hchains

theorem forwardPair_satisfied (acc : (FuncId → Finset Name) × Bool) {callerArg : Name}
    (hparam : calleeParam ∈ acc.1 edge.calleeFuncId) :
    callerArg ∈ (forwardPair edge acc (callerArg, some calleeParam)).1 edge.callerFuncId := by
  unfold forwardPair
  split
  · exact mem_update_self (Finset.mem_insert_self _ _)
  · next h =>
      by_contra hfresh
      exact h ⟨⟨calleeParam, hparam, rfl⟩, hfresh⟩

theorem forwardPairs_satisfied (pairs : List (Name × Option Name)) :
    ∀ (usedVars : FuncId → Finset Name) (grew : Bool) (callerArg calleeParam : Name),
      (callerArg, some calleeParam) ∈ pairs → calleeParam ∈ usedVars edge.calleeFuncId →
      callerArg ∈ (pairs.foldl (forwardPair edge) (usedVars, grew)).1 edge.callerFuncId := by
  induction pairs with
  | nil => exact fun _ _ _ _ h => (nomatch h)
  | cons pair pairs ih =>
    intro usedVars grew callerArg calleeParam hmem hparam
    obtain ⟨more, hgrown, -, -⟩ := forwardPairs_grown edge pairs
      (forwardPair edge (usedVars, grew) pair).1 (forwardPair edge (usedVars, grew) pair).2
    obtain ⟨more', hfirst, -, -⟩ := forwardPairs_grown edge [pair] usedVars grew
    rcases List.mem_cons.1 hmem with rfl | hmem
    · exact hgrown.mono _ (forwardPair_satisfied _ hparam)
    · exact ih _ _ callerArg calleeParam hmem (hfirst.mono _ hparam)

theorem saturated_after (hother : edge.calleeFuncId ≠ edge.callerFuncId)
    (usedVars chainPaths : FuncId → Finset Name) :
    Saturated edge (fun f => ((forwardUsed edge usedVars).1 f : Set Name))
      (fun f => ((forwardChains edge chainPaths).1 f : Set Name)) where
  used callerArg calleeParam hpair hparam := by
    obtain ⟨more, hgrown, -, -⟩ := forwardPairs_grown edge edge.pairs usedVars false
    have hsame := hgrown.others _ hother
    have hbefore : calleeParam ∈ usedVars edge.calleeFuncId := by
      rw [← hsame]
      exact hparam
    exact forwardPairs_satisfied edge.pairs usedVars false callerArg calleeParam hpair hbefore
  chains calleeParam callerFlat hpair rest hrest := by
    have hsame := (forwardChains_grown edge chainPaths).others _ hother
    have hbefore : chainPrefix calleeParam ++ rest ∈ chainPaths edge.calleeFuncId := by
      rw [← hsame]
      exact hrest
    have hmem := mem_propagated.2 ⟨calleeParam, callerFlat, rest, hpair, hbefore, rfl⟩
    unfold forwardChains
    split
    · next h => exact h hmem
    · exact mem_update_self (Finset.mem_union_right _ hmem)

end Edge

end Quadrants.CallPruning
