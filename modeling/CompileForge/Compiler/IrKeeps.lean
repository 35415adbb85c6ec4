/-
  When the module built is the program.  `ssa_map` holds exactly the spellings of the values
  defined so far.  An output whose name is in no spelling is left out of the return, and a return
  without outputs gets the last result.
-/

import CompileForge.Compiler.IrBuilder
import CompileForge.Compiler.SplitWiring
import CompileForge.Lib.Outcome
import CompileForge.Lib.Run

namespace CompileForge.Compiler

open Lib List

/-! ## Names of a function -/

/-- The name a value is defined under: of an input, a result or a weight. -/
inductive MlirFunction.Defines (func : MlirFunction) : String → IrRef → Prop
  | input {i : Nat} {name typeStr : String} :
      func.inputs[i]? = some (name, typeStr) → Defines func name (.arg i)
  | result {k i : Nat} {op : MlirOp} {name : String} :
      func.ops[k]? = some op → op.results[i]? = some name → Defines func name (.result k i)
  | weight {k : Nat} {op : MlirOp} :
      func.ops[k]? = some op → op.isWeightOp → op.weightName ≠ "" →
        Defines func op.weightName (.result k 0)

/-- Names that agree up to their `%` are of one value: every name is defined once. -/
def MlirFunction.SsaForm (func : MlirFunction) : Prop :=
  ∀ name ref name' ref', func.Defines name ref → func.Defines name' ref' →
    ssaKey name = ssaKey name' → ref = ref'

/-- The names of inputs, results and weights, with the values they stand for. -/
def MlirFunction.definitions (func : MlirFunction) : List (String × IrRef) :=
  func.inputs.zipIdx.map (fun e => (e.1.1, .arg e.2)) ++ func.ops.zipIdx.flatMap fun e =>
      e.1.results.zipIdx.map (fun r => (r.1, .result e.2 r.2)) ++
        if e.1.isWeightOp ∧ e.1.weightName ≠ "" then [(e.1.weightName, .result e.2 0)] else []

variable {name : String} {v : IrValue} {ssaMap : SsaMap}

theorem MlirFunction.mem_definitions {func : MlirFunction} {ref : IrRef} :
    (name, ref) ∈ func.definitions ↔ func.Defines name ref := by
  simp only [definitions, mem_append, mem_map, mem_flatMap, Prod.exists,
    mem_zipIdx_iff_getElem?, Prod.mk.injEq]
  constructor
  · rintro (⟨n, typeStr, i, hin, rfl, rfl⟩ | ⟨op, k, hop, ⟨n, i, hname, rfl, rfl⟩ | hw⟩)
    · exact .input hin
    · exact .result hop hname
    · split at hw
      · rename_i hweight
        cases mem_singleton.1 hw
        exact .weight hop hweight.1 hweight.2
      · cases hw
  · rintro (hin | ⟨hop, hname⟩ | ⟨hop, hw, hne⟩)
    · exact .inl ⟨_, _, _, hin, rfl, rfl⟩
    · exact .inr ⟨_, _, hop, .inl ⟨_, _, hname, rfl, rfl⟩⟩
    · refine .inr ⟨_, _, hop, .inr ?_⟩
      rw [if_pos ⟨hw, hne⟩]
      exact mem_singleton.2 rfl

instance (func : MlirFunction) : Decidable func.SsaForm :=
  decidable_of_iff (∀ d ∈ func.definitions, ∀ d' ∈ func.definitions,
      ssaKey d.1 = ssaKey d'.1 → d.2 = d'.2)
    ⟨fun h n r n' r' hd hd' => h (n, r) (MlirFunction.mem_definitions.2 hd) (n', r')
        (MlirFunction.mem_definitions.2 hd'),
      fun h _ hd _ hd' => h _ _ _ _ (MlirFunction.mem_definitions.1 hd)
        (MlirFunction.mem_definitions.1 hd')⟩

section Spells

variable (tensors : String → ConstTensor) (weights : List String)

def MlirOp.numResults (op : MlirOp) : Nat :=
  if op.isWeightOp ∧ (foldedTensor tensors weights op).isSome then 1
  else max 1 op.outputTypes.length

/-- The spellings of values: an input or a result with and without `%`, a weight as it is named. -/
inductive Spells (inputs : List (String × String)) (ops : List MlirOp) : String → IrRef → Prop
  | input {i : Nat} {name typeStr s : String} :
      inputs[i]? = some (name, typeStr) → s = name ∨ s = ssaKey name → Spells inputs ops s (.arg i)
  | result {k i : Nat} {op : MlirOp} {name s : String} :
      ops[k]? = some op → op.results[i]? = some name → i < op.numResults tensors weights →
        s = name ∨ s = ssaKey name → Spells inputs ops s (.result k i)
  | weight {k : Nat} {op : MlirOp} :
      ops[k]? = some op → op.isWeightOp → op.weightName ≠ "" →
        Spells inputs ops op.weightName (.result k 0)

end Spells

variable (tensors : String → ConstTensor)

/-- The value an operand or output denotes behind `k` operations, with or without its `%`. -/
def MlirFunction.Denotes (func : MlirFunction) (k : Nat) (name : String) (ref : IrRef) : Prop :=
  Spells tensors func.weights func.inputs (func.ops.take k) name ref ∨
    Spells tensors func.weights func.inputs (func.ops.take k) (ssaKey name) ref

/-- `ref` is the value that `name` denotes. -/
def MlirFunction.Means (func : MlirFunction) (k : Nat) (name : String) (ref : IrRef) : Prop :=
  ∀ ref', func.Denotes tensors k name ref' ↔ ref' = ref

/-- The inputs, operations, operands, constants and outputs are those of the program. -/
structure KeepsProgram (func : MlirFunction) (ir : IrFunction) : Prop where
  inputs : func.inputs.mapM (fun input => typeStrToIrType input.2) = some ir.argTypes
  length_ops : ir.ops.length = func.ops.length
  operands : ∀ (k : Nat) op irOp, func.ops[k]? = some op → ir.ops[k]? = some irOp →
    ¬ op.isWeightOp →
    Forall₂ (func.Means tensors k) op.operands irOp.operands
  returns : Forall₂ (fun out => func.Means tensors func.ops.length out.name) func.outputs
    ir.returns
  constants : ∀ (k : Nat) op irOp t, func.ops[k]? = some op → ir.ops[k]? = some irOp →
    op.isWeightOp →
    foldedTensor tensors func.weights op = some t →
      ∃ elt, t.dtype = some elt ∧ irOp.splat = some (elt, t.item)

/-- What the build does not check: known outputs, something to return, constants as declared. -/
structure MlirFunction.Declared (func : MlirFunction) : Prop where
  outputs_known : ∀ out ∈ func.outputs, ∃ ref, func.Denotes tensors func.ops.length out.name ref
  no_fallback : func.outputs = [] → ∀ op ∈ func.ops.getLast?, ∀ name ∈ op.results.getLast?,
    ¬ ∃ ref, Spells tensors func.weights func.inputs func.ops name ref
  constants_typed : ∀ op ∈ func.ops, op.isWeightOp → ∀ t,
    foldedTensor tensors func.weights op = some t → ∀ typeStr ∈ op.outputTypes.head?,
      ∀ type, typeStrToIrType typeStr = some type → t.dtype = some type.elementType

/-! ## The map -/

theorem mem_mapResults {names : List String} {values : List IrValue} {s : String} :
    (s, v) ∈ mapResults names values ↔ ∃ (i : Nat) (name : String),
      names[i]? = some name ∧ values[i]? = some v ∧ (s = name ∨ s = ssaKey name) := by
  rw [mapResults, mem_flatMap]
  constructor
  · rintro ⟨⟨name, w⟩, hmem, hs⟩
    obtain ⟨i, hi⟩ := mem_iff_getElem?.mp hmem
    obtain ⟨hname, hw⟩ := getElem?_zip_eq_some.1 hi
    simp only [mem_cons, Prod.mk.injEq, not_mem_nil, or_false, ← or_and_right] at hs
    obtain ⟨hs, rfl⟩ := hs
    exact ⟨i, name, hname, hw, hs⟩
  · rintro ⟨i, name, hname, hv, hs⟩
    refine ⟨(name, v), mem_iff_getElem?.mpr ⟨i, getElem?_zip_eq_some.2 ⟨hname, hv⟩⟩, ?_⟩
    rcases hs with rfl | rfl
    · exact mem_cons_self
    · exact mem_cons_of_mem _ mem_cons_self

theorem getElem?_resultValues {k i : Nat} {types : List IrType} :
    (resultValues k types)[i]? = some v ↔ ∃ t, types[i]? = some t ∧ v = ⟨.result k i, t⟩ := by
  rw [resultValues, getElem?_map, getElem?_zipIdx, Option.map_map, Option.map_eq_some_iff]
  simp only [Function.comp_apply, zero_add, eq_comm]

theorem lookupName_some (h : lookupName ssaMap name = some v) :
    (name, v) ∈ ssaMap ∨ (ssaKey name, v) ∈ ssaMap := by
  rw [lookupName] at h
  cases hd : dictGet ssaMap name with
  | none =>
    rw [hd] at h
    exact .inr (mem_of_dictGet h)
  | some =>
    rw [hd] at h
    cases h
    exact .inl (mem_of_dictGet hd)

theorem lookupName_isSome (h : (name, v) ∈ ssaMap ∨ (ssaKey name, v) ∈ ssaMap) :
    ∃ v', lookupName ssaMap name = some v' := by
  rw [lookupName]
  rcases h with h | h
  · obtain ⟨v', hv'⟩ := dictGet_of_mem h
    exact ⟨v', by rw [hv']; rfl⟩
  · obtain ⟨v', hv'⟩ := dictGet_of_mem h
    cases hd : dictGet ssaMap name with
    | none => exact ⟨v', hv'⟩
    | some w => exact ⟨w, rfl⟩

/-! ## One operation -/

section Build

variable {tensors : String → ConstTensor} {weights : List String}
  {store : EltType → ScalarItem → Option ScalarItem}

/-- A spelling of a result of the operation, or of its weight. -/
def NewSpelling (tensors : String → ConstTensor) (weights : List String) (k : Nat) (op : MlirOp)
    (s : String) (ref : IrRef) : Prop :=
  (∃ i name, op.results[i]? = some name ∧ i < op.numResults tensors weights ∧
    (s = name ∨ s = ssaKey name) ∧ ref = .result k i) ∨
  (op.isWeightOp ∧ op.weightName ≠ "" ∧ s = op.weightName ∧ ref = .result k 0)

variable {inputs : List (String × String)} {ops : List MlirOp} {op : MlirOp} {k : Nat} {irOp : IrOp}
  {entries ssaMap : SsaMap} {st : List IrOp × SsaMap}

theorem spells_append
    {s : String} {ref : IrRef} : Spells tensors weights inputs (ops ++ [op]) s ref ↔
      Spells tensors weights inputs ops s ref ∨
        NewSpelling tensors weights ops.length op s ref := by
  have hat : ∀ {k : Nat} {o : MlirOp}, (ops ++ [op])[k]? = some o ↔
      ops[k]? = some o ∨ k = ops.length ∧ o = op := by
    intro k o
    rw [getElem?_append]
    by_cases hk : k < ops.length
    · rw [if_pos hk]
      exact ⟨.inl, fun h => h.resolve_right fun hlast => by omega⟩
    · rw [if_neg hk, getElem?_eq_none (Nat.le_of_not_lt hk), getElem?_singleton]
      constructor
      · intro h
        split at h
        · exact .inr ⟨by omega, (Option.some.inj h).symm⟩
        · cases h
      · rintro (h | ⟨rfl, rfl⟩)
        · cases h
        · rw [Nat.sub_self, if_pos rfl]
  constructor
  · rintro (⟨hin, hs⟩ | ⟨hop, hname, hi, hs⟩ | ⟨hop, hw, hne⟩)
    · exact .inl (.input hin hs)
    · rcases hat.1 hop with hold | ⟨rfl, rfl⟩
      · exact .inl (.result hold hname hi hs)
      · exact .inr (.inl ⟨_, _, hname, hi, hs, rfl⟩)
    · rcases hat.1 hop with hold | ⟨rfl, rfl⟩
      · exact .inl (.weight hold hw hne)
      · exact .inr (.inr ⟨hw, hne, rfl, rfl⟩)
  · rintro ((⟨hin, hs⟩ | ⟨hop, hname, hi, hs⟩ | ⟨hop, hw, hne⟩) |
      (⟨i, name, hname, hi, hs, rfl⟩ | ⟨hw, hne, rfl, rfl⟩))
    · exact .input hin hs
    · exact .result (hat.2 (.inl hop)) hname hi hs
    · exact .weight (hat.2 (.inl hop)) hw hne
    · exact .result (hat.2 (.inr ⟨rfl, rfl⟩)) hname hi hs
    · exact .weight (hat.2 (.inr ⟨rfl, rfl⟩)) hw hne

theorem mapResults_spelling {types : List IrType}
    (hlen : types.length = op.numResults tensors weights) (s : String) (ref : IrRef) :
    (∃ v, (s, v) ∈ mapResults op.results (resultValues k types) ∧ v.ref = ref) ↔
      ∃ i name, op.results[i]? = some name ∧ i < op.numResults tensors weights ∧
        (s = name ∨ s = ssaKey name) ∧ ref = .result k i := by
  constructor
  · rintro ⟨v, hv, rfl⟩
    obtain ⟨i, name, hname, hval, hs⟩ := mem_mapResults.1 hv
    obtain ⟨t, ht, rfl⟩ := getElem?_resultValues.1 hval
    have hi := (List.getElem?_eq_some_iff.1 ht).1
    exact ⟨i, name, hname, hlen ▸ hi, hs, rfl⟩
  · rintro ⟨i, name, hname, hi, hs, rfl⟩
    rw [← hlen] at hi
    refine ⟨⟨.result k i, types[i]⟩, mem_mapResults.2 ⟨i, name, hname, ?_, hs⟩, rfl⟩
    exact getElem?_resultValues.2 ⟨_, getElem?_eq_getElem hi, rfl⟩

theorem emitWeightOp_spec
    (hw : op.isWeightOp) (h : emitWeightOp store tensors weights k op = some (irOp, entries)) :
    (∀ s ref, (∃ v, (s, v) ∈ entries ∧ v.ref = ref) ↔ NewSpelling tensors weights k op s ref) ∧
    ∀ t, foldedTensor tensors weights op = some t → ∃ typeStr ∈ op.outputTypes.head?, ∃ type value,
      typeStrToIrType typeStr = some type ∧ store type.elementType t.item = some value ∧
        irOp.splat = some (type.elementType, value) := by
  rw [emitWeightOp] at h
  split at h
  · cases h
  · obtain ⟨built, hbuilt, hpair⟩ := Option.map_eq_some_iff.1 h
    cases hpair
    -- the types are as many as the results
    have hspec : irOp.resultTypes.length = op.numResults tensors weights ∧
        ∀ t, foldedTensor tensors weights op = some t → ∃ typeStr ∈ op.outputTypes.head?,
          ∃ type value, typeStrToIrType typeStr = some type ∧
            store type.elementType t.item = some value ∧
              irOp.splat = some (type.elementType, value) := by
      rw [MlirOp.numResults]
      cases hfold : foldedTensor tensors weights op with
      | none =>
        rw [hfold] at hbuilt
        obtain ⟨attrs, -, hbuilt⟩ := Option.bind_eq_some_iff.1 hbuilt
        obtain ⟨types, htypes, hbuilt⟩ := Option.bind_eq_some_iff.1 hbuilt
        cases hbuilt
        refine ⟨?_, fun t ht => by cases ht⟩
        rw [if_neg fun hand => Bool.noConfusion hand.2]
        unfold weightTypes at htypes
        split at htypes
        · rename_i hne
          have hmap := mapM_eq_some_forall₂.1 htypes
          have hpos := length_pos_iff.2 hne
          show types.length = _
          rw [← hmap.length_eq]
          omega
        · rename_i hempty
          cases htypes
          rw [not_not.1 hempty]
          rfl
      | some =>
        rw [hfold] at hbuilt
        obtain ⟨type, htype, hbuilt⟩ := Option.bind_eq_some_iff.1 hbuilt
        obtain ⟨value, hvalue, hbuilt⟩ := Option.bind_eq_some_iff.1 hbuilt
        obtain ⟨typeStr, hhead, hparse⟩ := Option.bind_eq_some_iff.1 htype
        split at hbuilt
        · cases hbuilt
          refine ⟨(if_pos ⟨hw, rfl⟩).symm, fun t ht => ?_⟩
          cases ht
          exact ⟨typeStr, hhead, type, value, hparse, hvalue, rfl⟩
        · cases hbuilt
    refine ⟨fun s ref => ?_, hspec.2⟩
    have hresults := mapResults_spelling (k := k) hspec.1 s ref
    have hpos : 0 < irOp.resultTypes.length := by
      rw [hspec.1, MlirOp.numResults]
      split
      · exact one_pos
      · omega
    obtain ⟨first, rest, htypes⟩ := exists_cons_of_length_pos hpos
    have hhead : (resultValues k irOp.resultTypes).head? = some ⟨.result k 0, first⟩ := by
      rw [htypes]
      rfl
    rw [NewSpelling, ← hresults, hhead]
    simp only [mem_append, or_and_right, exists_or]
    refine or_congr Iff.rfl ?_
    by_cases hne : op.weightName ≠ ""
    · rw [if_pos hne]
      constructor
      · rintro ⟨v, hv, rfl⟩
        cases mem_singleton.1 hv
        exact ⟨hw, hne, rfl, rfl⟩
      · rintro ⟨-, -, rfl, rfl⟩
        exact ⟨_, mem_singleton.2 rfl, rfl⟩
    · rw [if_neg hne]
      exact ⟨fun ⟨v, hv, _⟩ => absurd hv not_mem_nil, fun hand => absurd hand.2.1 hne⟩

theorem emitComputeOp_spec (tensors : String → ConstTensor) (weights : List String)
    (hw : ¬ op.isWeightOp) (h : emitComputeOp k op ssaMap = some (irOp, entries)) :
    (∀ s ref, (∃ v, (s, v) ∈ entries ∧ v.ref = ref) ↔ NewSpelling tensors weights k op s ref) ∧
    Forall₂ (fun name ref => ∃ v, lookupName ssaMap name = some v ∧ v.ref = ref) op.operands
      irOp.operands := by
  rw [emitComputeOp] at h
  obtain ⟨operands, hoperands, h⟩ := Option.bind_eq_some_iff.1 h
  obtain ⟨attrs, -, h⟩ := Option.bind_eq_some_iff.1 h
  obtain ⟨types, htypes, h⟩ := Option.bind_eq_some_iff.1 h
  cases h
  have hlen : types.length = op.numResults tensors weights := by
    rw [MlirOp.numResults, if_neg fun hand => hw hand.1]
    unfold inferResultTypes at htypes
    split at htypes
    · rename_i hne
      have hmap := mapM_eq_some_forall₂.1 htypes
      have hpos := length_pos_iff.2 hne
      rw [← hmap.length_eq]
      omega
    · rename_i hempty
      rw [not_not.1 hempty]
      split at htypes
      · cases htypes
        rfl
      · split at htypes
        · split at htypes
          · cases htypes
            rfl
          · cases htypes
            rfl
        · cases htypes
          rfl
  refine ⟨fun s ref => ?_, ?_⟩
  · rw [mapResults_spelling hlen, NewSpelling]
    exact (or_iff_left fun hand => hw hand.1).symm
  · have hmap := mapM_eq_some_forall₂.1 hoperands
    rw [forall₂_map_right_iff]
    exact hmap.imp fun name v hv => ⟨v, hv, rfl⟩

/-! ## The loop over the operations -/

/-- The map holds the spellings of `ops`, and their values. -/
def Mapped (tensors : String → ConstTensor) (weights : List String)
    (inputs : List (String × String)) (ops : List MlirOp) (ssaMap : SsaMap) : Prop :=
  ∀ s ref, (∃ v, (s, v) ∈ ssaMap ∧ v.ref = ref) ↔ Spells tensors weights inputs ops s ref

/-- How the operation at place `k` of `ops` was built. -/
structure BuiltFrom (store : EltType → ScalarItem → Option ScalarItem)
    (tensors : String → ConstTensor) (weights : List String) (inputs : List (String × String))
    (ops : List MlirOp) (k : Nat) (op : MlirOp) (irOp : IrOp) : Prop where
  operands : ¬ op.isWeightOp → Forall₂ (fun name ref =>
    Spells tensors weights inputs (ops.take k) name ref ∨
      Spells tensors weights inputs (ops.take k) (ssaKey name) ref) op.operands irOp.operands
  constants : op.isWeightOp → ∀ t, foldedTensor tensors weights op = some t →
    ∃ typeStr ∈ op.outputTypes.head?, ∃ type value, typeStrToIrType typeStr = some type ∧
      store type.elementType t.item = some value ∧ irOp.splat = some (type.elementType, value)

theorem Mapped.lookup (h : Mapped tensors weights inputs ops ssaMap) {name : String} {v : IrValue}
    (hv : lookupName ssaMap name = some v) :
    Spells tensors weights inputs ops name v.ref ∨
      Spells tensors weights inputs ops (ssaKey name) v.ref :=
  (lookupName_some hv).imp (fun hmem => (h _ _).1 ⟨v, hmem, rfl⟩)
    fun hmem => (h _ _).1 ⟨v, hmem, rfl⟩

theorem buildOp_spec {st' : List IrOp × SsaMap} (hlen : st.1.length = ops.length)
    (hm : Mapped tensors weights inputs ops st.2)
    (h : buildOp store tensors weights st op = some st') :
    ∃ irOp, st'.1 = st.1 ++ [irOp] ∧ Mapped tensors weights inputs (ops ++ [op]) st'.2 ∧
      BuiltFrom store tensors weights inputs (ops ++ [op]) ops.length op irOp := by
  rw [buildOp] at h
  obtain ⟨⟨irOp, entries⟩, hbuilt, rfl⟩ := Option.map_eq_some_iff.1 h
  rw [hlen] at hbuilt
  have htake : (ops ++ [op]).take ops.length = ops := take_left
  -- what a turn sets is what the operation spells
  have hmapped : (∀ s ref, (∃ v, (s, v) ∈ entries ∧ v.ref = ref) ↔
      NewSpelling tensors weights ops.length op s ref) →
        Mapped tensors weights inputs (ops ++ [op]) (st.2 ++ entries) := by
    intro hnew s ref
    rw [spells_append, ← hm s ref, ← hnew s ref]
    simp only [mem_append, or_and_right, exists_or]
  by_cases hw : op.isWeightOp
  · rw [if_pos hw] at hbuilt
    obtain ⟨hnew, hconst⟩ := emitWeightOp_spec hw hbuilt
    exact ⟨irOp, rfl, hmapped hnew, fun hand => absurd hw hand, fun _ => hconst⟩
  · rw [if_neg hw] at hbuilt
    obtain ⟨hnew, hoperands⟩ := emitComputeOp_spec tensors weights hw hbuilt
    refine ⟨irOp, rfl, hmapped hnew, fun _ => ?_, fun hand => absurd hand hw⟩
    rw [htake]
    exact hoperands.imp fun name ref ⟨v, hv, href⟩ => href ▸ hm.lookup hv

theorem buildOps_spec {start : SsaMap} (hstart : Mapped tensors weights inputs [] start)
    (hrun : Run (fun m op m' => buildOp store tensors weights m op = some m') ([], start) ops st) :
    st.1.length = ops.length ∧ Mapped tensors weights inputs ops st.2 ∧
      ∀ (k : Nat) op irOp, ops[k]? = some op → st.1[k]? = some irOp →
        BuiltFrom store tensors weights inputs ops k op irOp := by
  induction hrun with
  | nil => exact ⟨rfl, hstart, fun k op irOp hop => by simp at hop⟩
  | @snoc ops m op st _ hlast ih =>
    obtain ⟨hlen, hm, hbuilt⟩ := ih
    obtain ⟨irOp, hops, hm', hnew⟩ := buildOp_spec hlen hm hlast
    have hlen' : st.1.length = (ops ++ [op]).length := by
      rw [hops, length_append, length_append, hlen]
      rfl
    refine ⟨hlen', hm', fun k o irO ho hirO => ?_⟩
    rw [hops] at hirO
    by_cases hk : k < ops.length
    · rw [getElem?_append_left hk] at ho
      rw [getElem?_append_left (hlen ▸ hk)] at hirO
      obtain ⟨hoperands, hconst⟩ := hbuilt k o irO ho hirO
      have htake : (ops ++ [op]).take k = ops.take k := take_append_of_le_length (by omega)
      exact ⟨htake ▸ hoperands, hconst⟩
    · have hlt := (List.getElem?_eq_some_iff.1 ho).1
      rw [length_append, length_singleton] at hlt
      obtain rfl : k = ops.length := by omega
      rw [getElem?_concat_length] at ho
      rw [← hlen, getElem?_concat_length] at hirO
      cases ho
      cases hirO
      exact hnew

theorem mapped_inputs {argTypes : List IrType}
    (h : inputs.mapM (fun input => typeStrToIrType input.2) = some argTypes) :
    Mapped tensors weights inputs [] (mapResults (inputs.map Prod.fst)
      (argTypes.zipIdx.map fun e => (⟨.arg e.2, e.1⟩ : IrValue))) := by
  have hlen := (mapM_eq_some_forall₂.1 h).length_eq
  have hargs : ∀ {i : Nat} {v : IrValue},
      (argTypes.zipIdx.map fun e => (⟨.arg e.2, e.1⟩ : IrValue))[i]? = some v ↔
        ∃ t, argTypes[i]? = some t ∧ v = ⟨.arg i, t⟩ := by
    intro i v
    rw [getElem?_map, getElem?_zipIdx, Option.map_map, Option.map_eq_some_iff]
    simp only [Function.comp_apply, zero_add, eq_comm]
  intro s ref
  constructor
  · rintro ⟨v, hv, rfl⟩
    obtain ⟨i, name, hname, hval, hs⟩ := mem_mapResults.1 hv
    obtain ⟨t, -, rfl⟩ := hargs.1 hval
    rw [getElem?_map, Option.map_eq_some_iff] at hname
    obtain ⟨⟨name', typeStr⟩, hin, rfl⟩ := hname
    exact .input hin hs
  · rintro (⟨hin, hs⟩ | ⟨hop, -, -, -⟩ | ⟨hop, -, -⟩)
    · rename_i i name typeStr
      have hi : i < argTypes.length := hlen ▸ (List.getElem?_eq_some_iff.1 hin).1
      refine ⟨⟨.arg i, argTypes[i]⟩, mem_mapResults.2 ⟨i, name, ?_, ?_, hs⟩, rfl⟩
      · rw [getElem?_map, hin]
        rfl
      · exact hargs.2 ⟨_, getElem?_eq_getElem hi, rfl⟩
    · simp at hop
    · simp at hop

end Build

section Functions

variable {tensors : String → ConstTensor} {func : MlirFunction} {ir : IrFunction}
  {store : EltType → ScalarItem → Option ScalarItem}

variable {k : Nat} {ref : IrRef} {ssaMap : SsaMap}

theorem Spells.defines {s : String}
    (h : Spells tensors func.weights func.inputs (func.ops.take k) s ref) :
    ∃ name, func.Defines name ref ∧ ssaKey name = ssaKey s := by
  have hkey : ∀ {name s : String}, s = name ∨ s = ssaKey name → ssaKey name = ssaKey s := by
    rintro name s (rfl | rfl)
    · rfl
    · exact (ssaKey_ssaKey _).symm
  have hops : ∀ {j : Nat} {op : MlirOp}, (func.ops.take k)[j]? = some op →
      func.ops[j]? = some op := by
    intro j op h
    rw [getElem?_take] at h
    split at h
    · exact h
    · cases h
  rcases h with ⟨hin, hs⟩ | ⟨hop, hname, -, hs⟩ | ⟨hop, hw, hne⟩
  · exact ⟨_, .input hin, hkey hs⟩
  · exact ⟨_, .result (hops hop) hname, hkey hs⟩
  · exact ⟨_, .weight (hops hop) hw hne, rfl⟩

theorem MlirFunction.SsaForm.means (hssa : func.SsaForm) {name : String}
    (h : func.Denotes tensors k name ref) : func.Means tensors k name ref := by
  have hdefines : ∀ {ref}, func.Denotes tensors k name ref →
      ∃ n, func.Defines n ref ∧ ssaKey n = ssaKey name := by
    rintro ref (h | h)
    · exact h.defines
    · obtain ⟨n, hn, hkey⟩ := h.defines
      exact ⟨n, hn, hkey.trans (ssaKey_ssaKey name)⟩
  intro ref'
  constructor
  · intro h'
    obtain ⟨n, hn, hkey⟩ := hdefines h
    obtain ⟨n', hn', hkey'⟩ := hdefines h'
    exact hssa _ _ _ _ hn' hn (hkey'.trans hkey.symm)
  · rintro rfl
    exact h

theorem buildIrFunction_spec (h : buildIrFunction store tensors func = some ir) :
    func.inputs.mapM (fun input => typeStrToIrType input.2) = some ir.argTypes ∧
    ∃ ssaMap, Mapped tensors func.weights func.inputs func.ops ssaMap ∧
      ir.returns = (resolveOutputValues func ssaMap).map IrValue.ref ∧
      ir.ops.length = func.ops.length ∧
      ∀ (k : Nat) op irOp, func.ops[k]? = some op → ir.ops[k]? = some irOp →
        BuiltFrom store tensors func.weights func.inputs func.ops k op irOp := by
  rw [buildIrFunction] at h
  obtain ⟨argTypes, hargs, h⟩ := Option.bind_eq_some_iff.1 h
  obtain ⟨built, hbuilt, h⟩ := Option.bind_eq_some_iff.1 h
  cases h
  have hrun : Run (fun m op m' => buildOp store tensors func.weights m op = some m') _ func.ops
      built := Run.of_foldlM (fun _ _ _ hstep => hstep) hbuilt
  obtain ⟨hlen, hm, hops⟩ := buildOps_spec (mapped_inputs hargs) hrun
  exact ⟨hargs, built.2, hm, rfl, hlen, hops⟩

theorem Mapped.lookup_none
    (hm : Mapped tensors func.weights func.inputs func.ops ssaMap) (name : String) :
    lookupName ssaMap name = none ↔ ¬ ∃ ref, func.Denotes tensors func.ops.length name ref := by
  have htake : func.ops.take func.ops.length = func.ops := take_length
  constructor
  · rintro hnone ⟨ref, hd⟩
    rw [MlirFunction.Denotes, htake] at hd
    have hmem : ∃ v, (name, v) ∈ ssaMap ∨ (ssaKey name, v) ∈ ssaMap := by
      rcases hd with hd | hd
      · obtain ⟨v, hv, -⟩ := (hm _ _).2 hd
        exact ⟨v, .inl hv⟩
      · obtain ⟨v, hv, -⟩ := (hm _ _).2 hd
        exact ⟨v, .inr hv⟩
    obtain ⟨v, hv⟩ := hmem
    obtain ⟨v', hv'⟩ := lookupName_isSome hv
    rw [hnone] at hv'
    cases hv'
  · intro h
    cases hv : lookupName ssaMap name with
    | none => rfl
    | some v =>
      refine absurd ⟨v.ref, ?_⟩ h
      rw [MlirFunction.Denotes, htake]
      exact hm.lookup hv

theorem returns_iff (hssa : func.SsaForm)
    (hm : Mapped tensors func.weights func.inputs func.ops ssaMap) :
    Forall₂ (fun out => func.Means tensors func.ops.length out.name) func.outputs
        ((resolveOutputValues func ssaMap).map IrValue.ref) ↔
      (∀ out ∈ func.outputs, ∃ ref, func.Denotes tensors func.ops.length out.name ref) ∧
        (func.outputs = [] → ∀ op ∈ func.ops.getLast?, ∀ name ∈ op.results.getLast?,
          ¬ ∃ ref, Spells tensors func.weights func.inputs func.ops name ref) := by
  constructor
  · intro h
    refine ⟨fun out hout => ?_, fun hnil op hop name hname => ?_⟩
    · obtain ⟨i, hi⟩ := mem_iff_getElem?.mp hout
      have hlt := (List.getElem?_eq_some_iff.1 hi).1
      have hmeans := h.get hlt (h.length_eq ▸ hlt)
      obtain ⟨-, rfl⟩ := List.getElem?_eq_some_iff.1 hi
      exact ⟨_, (hmeans _).2 rfl⟩
    · -- the last result would be a value without an output
      rw [hnil, forall₂_nil_left_iff, map_eq_nil_iff, resolveOutputValues, hnil] at h
      have hnone : dictGet ssaMap name = none := by
        rw [Option.mem_def.1 hop] at h
        rw [filterMap_nil, if_pos rfl, Option.bind_some, Option.mem_def.1 hname,
          Option.bind_some] at h
        cases hget : dictGet ssaMap name with
        | none => rfl
        | some =>
          rw [hget] at h
          cases h
      rintro ⟨ref, hs⟩
      obtain ⟨v, hv, -⟩ := (hm _ _).2 hs
      obtain ⟨v', hv'⟩ := dictGet_of_mem hv
      rw [hnone] at hv'
      cases hv'
  · rintro ⟨hknown, hfallback⟩
    have hlookup : ∀ out ∈ func.outputs, ∃ v, lookupName ssaMap out.name = some v := by
      intro out hout
      refine Option.ne_none_iff_exists'.1 fun hnone => ?_
      exact (hm.lookup_none out.name).1 hnone (hknown out hout)
    have hall : Forall₂ (fun out v => lookupName ssaMap out.name = some v) func.outputs
        (func.outputs.filterMap fun out => lookupName ssaMap out.name) := by
      clear hknown hfallback
      generalize func.outputs = outputs at hlookup ⊢
      induction outputs with
      | nil => exact .nil
      | cons out outputs ih =>
        obtain ⟨v, hv⟩ := hlookup out mem_cons_self
        rw [filterMap_cons, hv]
        exact .cons hv (ih fun o ho => hlookup o (mem_cons_of_mem out ho))
    have hvalues : resolveOutputValues func ssaMap =
        func.outputs.filterMap fun out => lookupName ssaMap out.name := by
      rw [resolveOutputValues]
      by_cases hempty : func.outputs.filterMap (fun out => lookupName ssaMap out.name) = []
      · have hnil : func.outputs = [] := by
          rw [hempty] at hall
          exact forall₂_nil_right_iff.1 hall
        rw [if_pos hempty, hempty]
        cases hop : func.ops.getLast? with
        | none => rfl
        | some op =>
          cases hname : op.results.getLast? with
          | none =>
            rw [Option.bind_some, hname]
            rfl
          | some name =>
            rw [Option.bind_some, hname, Option.bind_some]
            cases hget : dictGet ssaMap name with
            | none => rfl
            | some v =>
              refine absurd ⟨v.ref, ?_⟩ (hfallback hnil op hop name hname)
              exact (hm _ _).1 ⟨v, mem_of_dictGet hget, rfl⟩
      · rw [if_neg hempty]
    rw [hvalues, forall₂_map_right_iff]
    refine hall.imp fun out v hv => hssa.means ?_
    rw [MlirFunction.Denotes, take_length]
    exact hm.lookup hv

/-- The builder keeps every folded value. -/
def StoresItems (store : EltType → ScalarItem → Option ScalarItem) (tensors : String → ConstTensor)
    (weights : List String) : Prop :=
  ∀ name ∈ weights, ∀ elt, (tensors name).dtype = some elt →
    store elt (tensors name).item = some (tensors name).item

theorem foldedTensor_eq_some {weights : List String} {op : MlirOp} {t : ConstTensor}
    (h : foldedTensor tensors weights op = some t) :
    op.weightName ∈ weights ∧ t = tensors op.weightName := by
  rw [foldedTensor] at h
  split at h
  · rename_i hfold
    cases h
    exact ⟨hfold.2.1, rfl⟩
  · cases h

theorem buildIrFunction_keeps_iff (hstore : StoresItems store tensors func.weights)
    (hssa : func.SsaForm) (h : buildIrFunction store tensors func = some ir) :
    KeepsProgram tensors func ir ↔ func.Declared tensors := by
  obtain ⟨hinputs, ssaMap, hm, hreturns, hlen, hbuilt⟩ := buildIrFunction_spec h
  have hreturns_iff := returns_iff hssa hm
  rw [← hreturns] at hreturns_iff
  have hat : ∀ {k : Nat} {op : MlirOp}, func.ops[k]? = some op →
      ∃ irOp, ir.ops[k]? = some irOp := by
    intro k op hop
    have hk := (List.getElem?_eq_some_iff.1 hop).1
    exact ⟨_, getElem?_eq_getElem (hlen ▸ hk)⟩
  constructor
  · intro hkeeps
    obtain ⟨hknown, hfallback⟩ := hreturns_iff.1 hkeeps.returns
    refine ⟨hknown, hfallback, fun op hmem hw t ht typeStr hhead type htype => ?_⟩
    obtain ⟨k, hop⟩ := mem_iff_getElem?.mp hmem
    obtain ⟨irOp, hirOp⟩ := hat hop
    obtain ⟨elt, hdtype, hsplat⟩ := hkeeps.constants k op irOp t hop hirOp hw ht
    obtain ⟨typeStr', hhead', type', value, htype', -, hsplat'⟩ :=
      (hbuilt k op irOp hop hirOp).constants hw t ht
    obtain rfl : typeStr = typeStr' := Option.some.inj (hhead.symm.trans hhead')
    obtain rfl : type = type' := Option.some.inj (htype.symm.trans htype')
    obtain ⟨rfl, -⟩ := Prod.mk.inj (Option.some.inj (hsplat.symm.trans hsplat'))
    exact hdtype
  · intro hdeclared
    refine ⟨hinputs, hlen, fun k op irOp hop hirOp hw => ?_,
      hreturns_iff.2 ⟨hdeclared.outputs_known, hdeclared.no_fallback⟩,
      fun k op irOp t hop hirOp hw ht => ?_⟩
    · exact ((hbuilt k op irOp hop hirOp).operands hw).imp fun name ref hd => hssa.means hd
    · obtain ⟨typeStr, hhead, type, value, htype, hvalue, hsplat⟩ :=
        (hbuilt k op irOp hop hirOp).constants hw t ht
      have hdtype := hdeclared.constants_typed op (mem_of_getElem? hop) hw t ht typeStr hhead
        type htype
      obtain ⟨hmem, rfl⟩ := foldedTensor_eq_some ht
      rw [hstore _ hmem _ hdtype] at hvalue
      cases hvalue
      exact ⟨_, hdtype, hsplat⟩

end Functions

theorem functions_keep_iff {store : EltType → ScalarItem → Option ScalarItem}
    {tensors : MlirFunction → String → ConstTensor} {funcs : List MlirFunction}
    {irs : List IrFunction}
    (hbuilt : Forall₂ (fun func ir => buildIrFunction store (tensors func) func = some ir)
      funcs irs) (hstore : ∀ func ∈ funcs, StoresItems store (tensors func) func.weights)
    (hssa : ∀ func ∈ funcs, func.SsaForm) :
    Forall₂ (fun func => KeepsProgram (tensors func) func) funcs irs ↔
      ∀ func ∈ funcs, func.Declared (tensors func) := by
  induction hbuilt with
  | nil => exact ⟨nofun, fun _ => .nil⟩
  | @cons func ir funcs irs hfunc _ ih =>
    have hkeeps := buildIrFunction_keeps_iff (hstore func mem_cons_self)
      (hssa func mem_cons_self) hfunc
    have hrest := ih (fun g hg => hstore g (mem_cons_of_mem func hg))
      fun g hg => hssa g (mem_cons_of_mem func hg)
    rw [forall₂_cons, forall_mem_cons, hkeeps]
    exact and_congr_right fun _ => hrest

/-- The module built is the program exactly if every function of it is declared. -/
theorem mlirModuleToIrModule_keeps_iff {store : EltType → ScalarItem → Option ScalarItem}
    {tensors : MlirFunction → String → ConstTensor} {module : MlirModule} {ir : IrModule}
    (hstore : ∀ func ∈ module.functions, StoresItems store (tensors func) func.weights)
    (hssa : ∀ func ∈ module.functions, func.SsaForm)
    (h : mlirModuleToIrModule store tensors module = some ir) :
    Forall₂ (fun func => KeepsProgram (tensors func) func) module.functions ir.functions ↔
      ∀ func ∈ module.functions, func.Declared (tensors func) := by
  rw [mlirModuleToIrModule] at h
  obtain ⟨functions, hfunctions, h⟩ := Option.bind_eq_some_iff.1 h
  split at h
  · cases h
    exact functions_keep_iff (mapM_eq_some_forall₂.1 hfunctions) hstore hssa
  · cases h

/-! ## A module that is kept, and one that is not -/

def oneTensor : ConstTensor := ⟨1, some .f32, .float 0x3FF0000000000000⟩

/-- An input plus a constant. -/
def addOne : MlirFunction where
  name := "main"
  inputs := [("%x", "tensor<1xf32>")]
  outputs := [⟨"add", "tensor<1xf32>", false⟩]
  ops := [⟨"sf.weight", "sf", "weight", [], ["%_const_0"],
      [("name", .scalar (.str "_const_0"))], [], ["tensor<1xf32>"]⟩,
    ⟨"sf.add", "sf", "add", ["%x", "_const_0"], ["%add"], [], [], ["tensor<1xf32>"]⟩]
  weights := ["_const_0"]
  paramWeightNames := []
  constWeightNames := ["_const_0"]
  weightNames := ["_const_0"]

theorem mlirModuleToIrModule_keeps_addOne :
    ∃ ir, mlirModuleToIrModule (fun _ item => some item) (fun _ _ => oneTensor)
        ⟨[addOne], ["main"], [], []⟩ = some ir ∧
      Forall₂ (fun func => KeepsProgram (fun _ => oneTensor) func) [addOne] ir.functions := by
  obtain ⟨ir, hir⟩ : ∃ ir, mlirModuleToIrModule (fun _ item => some item) (fun _ _ => oneTensor)
      ⟨[addOne], ["main"], [], []⟩ = some ir := ⟨_, rfl⟩
  have hssa : ∀ func ∈ [addOne], func.SsaForm := by decide +kernel
  refine ⟨ir, hir, (mlirModuleToIrModule_keeps_iff (fun _ _ _ _ _ _ => rfl) hssa hir).2 ?_⟩
  intro func hfunc
  cases mem_singleton.1 hfunc
  refine ⟨fun out hout => ?_, fun hnil => absurd hnil (cons_ne_nil _ _),
    fun op hop hw t ht typeStr hhead type htype => ?_⟩
  · cases mem_singleton.1 hout
    have hadd : addOne.ops[1]? = some ⟨"sf.add", "sf", "add", ["%x", "_const_0"], ["%add"], [], [],
      ["tensor<1xf32>"]⟩ := rfl
    exact ⟨.result 1 0, .inl (.result hadd rfl (by decide) (.inr rfl))⟩
  · -- the only constant is of the type it is declared with
    have hf32 : ∀ op ∈ addOne.ops, ∀ typeStr ∈ op.outputTypes.head?,
        (typeStrToIrType typeStr).map IrType.elementType = some .f32 := by decide +kernel
    have helt := hf32 op hop typeStr hhead
    rw [htype] at helt
    obtain ⟨-, rfl⟩ := foldedTensor_eq_some ht
    rw [Option.some.inj helt]
    rfl

/-- Two outputs, of which nothing defines the first. -/
def missingOutput : MlirFunction where
  name := "main"
  inputs := [("%x", "tensor<1xf32>")]
  outputs := [⟨"%a", "tensor<1xf32>", false⟩, ⟨"%r", "tensor<1xf32>", false⟩]
  ops := [⟨"sf.relu", "sf", "relu", ["%x"], ["%r"], [], [], ["tensor<1xf32>"]⟩]
  weights := []
  paramWeightNames := []
  constWeightNames := []
  weightNames := []

/-- The unknown output is left out without an error, and the second takes its place. -/
theorem mlirModuleToIrModule_drops_output :
    ∃ ir, mlirModuleToIrModule (fun _ item => some item) (fun _ _ => oneTensor)
        ⟨[missingOutput], ["main"], [], []⟩ = some ir ∧
      missingOutput.SsaForm ∧ ir.functions.map IrFunction.returns = [[.result 0 0]] ∧
      ¬ Forall₂ (fun func => KeepsProgram (fun _ => oneTensor) func) [missingOutput]
        ir.functions := by
  refine ⟨_, rfl, by decide +kernel, rfl, fun h => ?_⟩
  cases h with
  | cons hkeeps => exact absurd hkeeps.returns.length_eq (by decide)

end CompileForge.Compiler
