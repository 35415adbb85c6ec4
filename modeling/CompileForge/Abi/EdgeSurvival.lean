/-
  What the graph that the runtime loads binds the edges of an execution plan to.
-/

import CompileForge.Compiler.SfaAbi
import CompileForge.Runtime.Model.ComputeGraph
import CompileForge.Lib.Outcome
import CompileForge.Lib.Renumber

namespace CompileForge.Abi

open Lib Compiler CompileForge.Runtime List

/-- The function the runtime builds from a compiled one. -/
def builtFunc (m : FuncMeta) (fi : Nat) : FuncDef :=
  let sm : SfaFuncMeta :=
    ⟨m.symbol, m.inputFields.length, m.outputRank, m.inputFields.map serializeField, m.outputs,
      m.consumedSubOutputFlags⟩
  { index := fi
    symbol := m.symbol
    numInputs := m.inputFields.length
    numOutputs := (outputDefs sm).length
    inputs := m.inputFields.map fun field =>
      (fieldBinding (serializeField field), fieldDef (serializeField field))
    outputs := outputDefs sm
    consumedSubOutputFlags := m.consumedSubOutputFlags }

theorem buildFunc_serialize (m : FuncMeta) (fi : Nat) :
    buildFunc ⟨m.symbol, m.inputFields.length, m.outputRank, m.inputFields.map serializeField,
      m.outputs, m.consumedSubOutputFlags⟩ fi = .ok (builtFunc m fi) := by
  unfold buildFunc
  simp only [length_map, if_true, map_map]
  rfl

theorem buildComputeGraph_serialize (metas : List FuncMeta) :
    ∃ graph, buildComputeGraph (serializeAbi metas) = .ok graph ∧
      graph.functions = metas.zipIdx.map fun e => builtFunc e.1 e.2 := by
  have hbuild : (serializeAbi metas).funcs.zipIdx.mapM (fun e => buildFunc e.1 e.2) =
      .ok (metas.zipIdx.map fun e => builtFunc e.1 e.2) := by
    rw [← mapM_ok, serializeAbi, zipIdx_map, mapM_map]
    refine congrArg (fun f => mapM f metas.zipIdx) (funext fun e => ?_)
    exact buildFunc_serialize e.1 e.2
  unfold buildComputeGraph
  rw [hbuild]
  exact ⟨_, rfl, rfl⟩

/-! ## The functions of the graph -/

variable (tables : LoweredTables) (functions : List PreLoweringFunc) (plan : ExecutionPlan)

/-- The function has a signature. -/
def kept (func : PreLoweringFunc) : Bool :=
  (tables.signatures.lookup (cifaceSymbol func.name)).isSome

/-- A function without a signature is skipped, so an index into the function list is an index into
    the header only up to the first skipped function. -/
def keptFuncs : List (PreLoweringFunc × Nat) := functions.zipIdx.filter fun e => kept tables e.1

theorem keptFuncs_fst :
    (keptFuncs tables functions).map Prod.fst = functions.filter (kept tables) := by
  have hmap := filter_map (f := Prod.fst) (p := kept tables) (l := functions.zipIdx)
  rw [zipIdx_map_fst] at hmap
  exact hmap.symm

theorem filterMap_eq_map_filter {α β γ : Type} (s : α → Option β) (g : α → β → γ) (d : β)
    (l : List α) :
    l.filterMap (fun a => (s a).map (g a)) =
      (l.filter fun a => (s a).isSome).map fun a => g a ((s a).getD d) := by
  induction l with
  | nil => rfl
  | cons a l ih =>
    cases hs : s a with
    | none => simp [hs, ih]
    | some => simp [hs, ih]

theorem mergeWithSemantics_eq :
    mergeWithSemantics tables functions plan = (keptFuncs tables functions).map fun e =>
      funcMeta tables plan e.2 e.1
        ((tables.signatures.lookup (cifaceSymbol e.1.name)).getD (0, 0)) :=
  filterMap_eq_map_filter _ _ _ _

def Holds (graph : ComputeGraph) (p : Nat) (func : PreLoweringFunc) : Prop :=
  graph.functions[p]?.map (·.symbol) = some (cifaceSymbol func.name)

def Loads (graph : ComputeGraph) : Prop :=
  buildComputeGraph (serializeAbi (mergeWithSemantics tables functions plan)) = .ok graph

variable {tables functions plan} {graph : ComputeGraph}

theorem Loads.functions_eq (h : Loads tables functions plan graph) (p : Nat) :
    graph.functions[p]? = ((keptFuncs tables functions)[p]?).map fun e =>
      builtFunc (funcMeta tables plan e.2 e.1
        ((tables.signatures.lookup (cifaceSymbol e.1.name)).getD (0, 0))) p := by
  obtain ⟨loaded, hloaded, hfunctions⟩ :=
    buildComputeGraph_serialize (mergeWithSemantics tables functions plan)
  have hsame : loaded = graph := by
    have := hloaded.symm.trans h
    cases this
    rfl
  rw [← hsame, hfunctions, mergeWithSemantics_eq, getElem?_map, getElem?_zipIdx,
    getElem?_map, Option.map_map, Option.map_map, zero_add]
  rfl

theorem cifaceSymbol_inj {s s' : String} (h : cifaceSymbol s = cifaceSymbol s') : s = s' := by
  have hlist := congrArg String.toList h
  simp only [cifaceSymbol, String.toList_append] at hlist
  exact String.toList_inj.1 (append_cancel_left hlist)

variable {func : PreLoweringFunc} {step : ExecutionStep} {bi : Nat} {edge : EdgeInput}

section Holds

variable (h : Loads tables functions plan graph) (hnames : (functions.map (·.name)).Nodup)
  (hfunc : func ∈ functions)
include h hnames hfunc

theorem Loads.holds_iff (p : Nat) :
    Holds graph p func ↔ ∃ e, (keptFuncs tables functions)[p]? = some e ∧ e.1 = func := by
  rw [Holds, h.functions_eq]
  constructor
  · intro hp
    cases he : (keptFuncs tables functions)[p]? with
    | none =>
      rw [he] at hp
      cases hp
    | some e =>
      rw [he] at hp
      have hsymbol : cifaceSymbol e.1.name = cifaceSymbol func.name := Option.some.inj hp
      have hmem := mem_of_mem_filter (mem_of_getElem? he)
      exact ⟨e, rfl, List.inj_on_of_nodup_map hnames (fst_mem_of_mem_zipIdx hmem) hfunc
        (cifaceSymbol_inj hsymbol)⟩
  · rintro ⟨e, he, rfl⟩
    rw [he]
    rfl

theorem Loads.holds_iff_filter (p : Nat) :
    Holds graph p func ↔ (functions.filter (kept tables))[p]? = some func := by
  rw [h.holds_iff hnames hfunc, ← keptFuncs_fst, getElem?_map, Option.map_eq_some_iff]

end Holds

/-! ## The inputs of a function -/

theorem populateTypes_kind (types : List LoweredType) (fields : List Compiler.InputField)
    (i : Nat) :
    (populateTypes types fields)[i]?.map (·.kind) = fields[i]?.map (·.kind) := by
  rw [populateTypes, getElem?_map, getElem?_zipIdx, Option.map_map, Option.map_map, zero_add]
  refine congrArg (fun f => Option.map f fields[i]?) (funext fun field => ?_)
  simp only [Function.comp_apply]
  cases types[i]? with
  | none => rfl
  | some => rfl

theorem inputFields_kind (fi : Nat) (func : PreLoweringFunc)
    (hstep : plan.steps.find? (fun s => s.funcName = func.name) = some step)
    (hedge : step.inputs[bi]? = some edge) :
    (inputFields tables plan fi func)[bi]?.map (·.kind) = some (edgeField edge).kind := by
  have hlen : bi < (step.inputs.map edgeField).length := by
    rw [length_map]
    exact (List.getElem?_eq_some_iff.1 hedge).1
  have hfields : ∀ weights : List Compiler.InputField,
      (step.inputs.map edgeField ++ weights)[bi]? = some (edgeField edge) := by
    intro weights
    rw [getElem?_append_left hlen, getElem?_map, hedge]
    rfl
  unfold inputFields
  rw [hstep]
  cases tables.argTypes.lookup func.name with
  | none => simp only [hfields, Option.map_some]
  | some => simp only [populateTypes_kind, hfields, Option.map_some]

/-- A global edge keeps nothing of its source: the position in the input list decides which ids it
    is filled with. -/
def edgeBinding (edge : EdgeInput) : InputBinding :=
  match edge.source with
  | .globalInput => .globalInput
  | .stepOutput => .ssa edge.sourceIndex edge.producerStep

theorem fieldBinding_serialize {field : Compiler.InputField}
    (h : field.kind = (edgeField edge).kind) :
    fieldBinding (serializeField field) = edgeBinding edge := by
  unfold fieldBinding serializeField edgeBinding
  unfold edgeField at h
  cases hsource : edge.source with
  | globalInput =>
    rw [hsource] at h
    simp only [h]
  | stepOutput =>
    rw [hsource] at h
    simp only [h]

theorem find_step (hone : plan.steps.countP (fun s => s.funcName = func.name) = 1)
    (hstep : step ∈ plan.steps) (hname : step.funcName = func.name) :
    plan.steps.find? (fun s => s.funcName = func.name) = some step := by
  obtain ⟨only, honly⟩ : ∃ only, plan.steps.filter (fun s => s.funcName = func.name) = [only] := by
    rw [countP_eq_length_filter] at hone
    exact length_eq_one_iff.1 hone
  have hmem : step ∈ plan.steps.filter (fun s => s.funcName = func.name) :=
    mem_filter.2 ⟨hstep, decide_eq_true hname⟩
  rw [honly, mem_singleton] at hmem
  rw [← head?_filter, honly, hmem]
  rfl

theorem Loads.input_binding (h : Loads tables functions plan graph)
    (hnames : (functions.map (·.name)).Nodup) (hfunc : func ∈ functions)
    (hone : plan.steps.countP (fun s => s.funcName = func.name) = 1) {p : Nat}
    (hp : Holds graph p func) (hstep : step ∈ plan.steps) (hname : step.funcName = func.name)
    (hedge : step.inputs[bi]? = some edge) :
    ∃ fd input, graph.functions[p]? = some fd ∧ fd.inputs[bi]? = some input ∧
      input.1 = edgeBinding edge := by
  obtain ⟨e, he, rfl⟩ := (h.holds_iff hnames hfunc p).1 hp
  have hkind : (inputFields tables plan e.2 e.1)[bi]?.map (·.kind) = some (edgeField edge).kind :=
    inputFields_kind e.2 e.1 (find_step hone hstep hname) hedge
  obtain ⟨field, hfield, hfieldKind⟩ := Option.map_eq_some_iff.1 hkind
  have hat := h.functions_eq p
  rw [he, Option.map_some] at hat
  refine ⟨_, (fieldBinding (serializeField field), fieldDef (serializeField field)), hat, ?_,
    fieldBinding_serialize hfieldKind⟩
  simp only [builtFunc, funcMeta, getElem?_map, hfield, Option.map_some]

/-! ## What the edges are bound to -/

/-- Input `bi` of a function is given what the edge names. -/
def Delivers (functions : List PreLoweringFunc) (graph : ComputeGraph) (bi : Nat)
    (edge : EdgeInput) (binding : InputBinding) : Prop :=
  match edge.source with
  | .stepOutput => ∃ q func, functions[edge.sourceIndex]? = some func ∧ Holds graph q func ∧
      binding = .ssa q edge.producerStep
  | .globalInput => binding = .globalInput ∧ ∀ inputIds positions : List UInt32,
      [inputIds, positions][edge.sourceIndex]? = some (dataSource inputIds positions bi)

/-- Every edge of the plan is the binding of its input. -/
def EdgesBound (functions : List PreLoweringFunc) (plan : ExecutionPlan) (graph : ComputeGraph) :
    Prop :=
  ∀ func ∈ functions, ∀ p, Holds graph p func → ∀ step ∈ plan.steps, step.funcName = func.name →
    ∀ bi edge, step.inputs[bi]? = some edge →
      ∃ fd input, graph.functions[p]? = some fd ∧ fd.inputs[bi]? = some input ∧
        Delivers functions graph bi edge input.1

/-- An edge needs the functions up to its own; a global edge stands where its ids are read. -/
def EdgeRoutable (tables : LoweredTables) (functions : List PreLoweringFunc) (bi : Nat)
    (edge : EdgeInput) : Prop :=
  match edge.source with
  | .stepOutput => KeptUpTo (kept tables) functions edge.sourceIndex
  | .globalInput => edge.sourceIndex = if bi = 1 then 1 else 0

/-- Every edge of every compiled function can be routed. -/
def Routable (tables : LoweredTables) (functions : List PreLoweringFunc) (plan : ExecutionPlan) :
    Prop :=
  ∀ func ∈ functions, kept tables func → ∀ step ∈ plan.steps, step.funcName = func.name →
    ∀ bi edge, step.inputs[bi]? = some edge → EdgeRoutable tables functions bi edge

theorem global_source_iff (g bi : Nat) :
    (∀ inputIds positions : List UInt32,
      [inputIds, positions][g]? = some (dataSource inputIds positions bi)) ↔
        g = if bi = 1 then 1 else 0 := by
  unfold dataSource
  constructor
  · intro h
    have hids := h [0] []
    match g, hids with
    | 0, hids =>
      by_cases hbi : bi = 1
      · rw [if_pos hbi] at hids
        cases hids
      · rw [if_neg hbi]
    | 1, hids =>
      by_cases hbi : bi = 1
      · rw [if_pos hbi]
      · rw [if_neg hbi] at hids
        cases hids
    | g + 2, hids => cases hids
  · rintro rfl inputIds positions
    by_cases hbi : bi = 1
    · rw [if_pos hbi, if_pos hbi]
      rfl
    · rw [if_neg hbi, if_neg hbi]
      rfl

theorem Loads.delivers_iff (h : Loads tables functions plan graph)
    (hnames : (functions.map (·.name)).Nodup) (bi : Nat) (edge : EdgeInput) :
    Delivers functions graph bi edge (edgeBinding edge) ↔
      EdgeRoutable tables functions bi edge := by
  unfold Delivers EdgeRoutable edgeBinding
  cases edge.source with
  | globalInput =>
    simp only [true_and]
    exact global_source_iff _ _
  | stepOutput =>
    simp only
    rw [← getElem?_filter_same_iff (List.Nodup.of_map _ hnames)]
    constructor
    · rintro ⟨q, func, hfunc, hq, hbinding⟩
      have hsame : edge.sourceIndex = q := by
        cases hbinding
        rfl
      rw [h.holds_iff_filter hnames (mem_of_getElem? hfunc), ← hsame] at hq
      exact ⟨func, hfunc, hq⟩
    · rintro ⟨func, hfunc, hq⟩
      exact ⟨_, func, hfunc, (h.holds_iff_filter hnames (mem_of_getElem? hfunc) _).2 hq, rfl⟩

/-- The graph delivers every edge of the plan exactly when every compiled edge can be routed. -/
theorem edgesBound_iff (tables : LoweredTables) (functions : List PreLoweringFunc)
    (plan : ExecutionPlan) (hnames : (functions.map (·.name)).Nodup)
    (hsteps : ∀ func ∈ functions, plan.steps.countP (fun s => s.funcName = func.name) = 1) :
    (∀ graph, buildComputeGraph (serializeAbi (mergeWithSemantics tables functions plan)) =
        .ok graph → EdgesBound functions plan graph) ↔ Routable tables functions plan := by
  constructor
  · intro hbound func hfunc hkept step hstep hname bi edge hedge
    obtain ⟨graph, hload, _⟩ :=
      buildComputeGraph_serialize (mergeWithSemantics tables functions plan)
    have hloads : Loads tables functions plan graph := hload
    -- the function is held somewhere, since it is compiled
    obtain ⟨p, hp⟩ := mem_iff_getElem?.mp (mem_filter.2 ⟨hfunc, hkept⟩)
    have hholds := (hloads.holds_iff_filter hnames hfunc p).2 hp
    obtain ⟨fd, input, hfd, hinput, hdelivers⟩ :=
      hbound graph hload func hfunc p hholds step hstep hname bi edge hedge
    obtain ⟨fd', input', hfd', hinput', hbinding⟩ :=
      hloads.input_binding hnames hfunc (hsteps func hfunc) hholds hstep hname hedge
    have hsame : input = input' := by
      rw [hfd] at hfd'
      cases hfd'
      rw [hinput] at hinput'
      exact Option.some.inj hinput'
    rw [hsame, hbinding] at hdelivers
    exact (hloads.delivers_iff hnames bi edge).1 hdelivers
  · intro hroutable graph hload func hfunc p hholds step hstep hname bi edge hedge
    have hloads : Loads tables functions plan graph := hload
    obtain ⟨fd, input, hfd, hinput, hbinding⟩ :=
      hloads.input_binding hnames hfunc (hsteps func hfunc) hholds hstep hname hedge
    have hkept : kept tables func := by
      have hp := (hloads.holds_iff_filter hnames hfunc p).1 hholds
      exact (mem_filter.1 (mem_of_getElem? hp)).2
    refine ⟨fd, input, hfd, hinput, ?_⟩
    rw [hbinding]
    exact (hloads.delivers_iff hnames bi edge).2
      (hroutable func hfunc hkept step hstep hname bi edge hedge)

/-! ## A skipped function -/

/-- `main_1` has no signature; `main_2` reads output 0 of `main_0`. -/
def skippedTables : LoweredTables where
  signatures := AList.insert (cifaceSymbol "main_0") (2, 3) <|
    AList.insert (cifaceSymbol "main_2") (1, 3) ∅
  argTypes := ∅
  outputTypes := ∅
  weightNames := ∅

def skippedFunctions : List PreLoweringFunc := [⟨"main_0", []⟩, ⟨"main_1", []⟩, ⟨"main_2", []⟩]

/-- `main_2` reads output 0 of function `f`. -/
def skippedPlan (f : Nat) : ExecutionPlan where
  globalInputs := ["input_ids", "position_ids"]
  steps :=
    [⟨"main_0", [⟨.globalInput, 0, 0⟩, ⟨.globalInput, 1, 0⟩]⟩, ⟨"main_1", []⟩,
      ⟨"main_2", [⟨.stepOutput, f, 0⟩]⟩]

/-- The ids in their places and an edge to the first function are delivered. -/
theorem edgesBound_iff_witness :
    (∀ graph, buildComputeGraph (serializeAbi
        (mergeWithSemantics skippedTables skippedFunctions (skippedPlan 0))) = .ok graph →
      EdgesBound skippedFunctions (skippedPlan 0) graph) ↔
        Routable skippedTables skippedFunctions (skippedPlan 0) :=
  edgesBound_iff skippedTables skippedFunctions (skippedPlan 0) (by decide) (by decide)

/-- An edge to the skipped function is bound to `main_2`, which stands where `main_1` stood. -/
theorem edgesBound_fails :
    (skippedFunctions.map (·.name)).Nodup ∧
    (∀ func ∈ skippedFunctions,
      (skippedPlan 1).steps.countP (fun s => s.funcName = func.name) = 1) ∧
    ∃ graph, buildComputeGraph (serializeAbi
        (mergeWithSemantics skippedTables skippedFunctions (skippedPlan 1))) = .ok graph ∧
      ¬ EdgesBound skippedFunctions (skippedPlan 1) graph := by
  refine ⟨by decide, by decide, _, rfl, fun hbound => ?_⟩
  obtain ⟨fd, input, hfd, hinput, q, func, hfunc, hq, hbinding⟩ :=
    hbound ⟨"main_2", []⟩ (by decide) 1 rfl ⟨"main_2", [⟨.stepOutput, 1, 0⟩]⟩ (by decide) rfl 0
      ⟨.stepOutput, 1, 0⟩ rfl
  cases hfd
  cases hinput
  cases hbinding
  cases hfunc
  -- position 1 holds `main_2`
  have hsymbol : cifaceSymbol "main_2" = cifaceSymbol "main_1" := Option.some.inj hq
  exact absurd hsymbol (by decide)

end CompileForge.Abi
