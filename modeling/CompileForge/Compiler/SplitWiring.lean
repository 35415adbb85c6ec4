/-
  What `_make_multi_functions` collects for each function, and where its edges point.
-/

import CompileForge.Compiler.SplitMeaning

namespace CompileForge.Compiler

open Abi Lib.StraightLine List

theorem toList_ssaKey (name : String) :
    (ssaKey name).toList = name.toList.dropWhile (· = '%') := String.toList_ofList

theorem ssaKey_percent {v : String} (h : ssaKey v = v) : ssaKey ("%" ++ v) = v := by
  have hlist : ("%" ++ v).toList = '%' :: v.toList := by
    rw [String.toList_append]
    rfl
  rw [ssaKey, hlist, dropWhile_cons_of_pos (by decide)]
  exact h

variable {α β : Type} {entries : List (String × β)} {key : String} {op : MlirOp}
  {m : String → Option Nat} {funcs : List MlirFunction} {first : MlirFunction} {i : Nat}
  {input : String × String} {mlirOps : List MlirOp}

theorem dropWhile_dropWhile (p : α → Bool) (l : List α) :
    (l.dropWhile p).dropWhile p = l.dropWhile p := by
  induction l with
  | nil => rfl
  | cons a l ih =>
    by_cases h : p a = true
    · rw [dropWhile_cons_of_pos h, ih]
    · rw [dropWhile_cons_of_neg h, dropWhile_cons_of_neg h]

theorem ssaKey_ssaKey (name : String) : ssaKey (ssaKey name) = ssaKey name := by
  rw [ssaKey, toList_ssaKey, dropWhile_dropWhile]
  rfl

theorem lookup_eq_some {v : β} (hnodup : (entries.map Prod.fst).Nodup) :
    entries.lookup key = some v ↔ (key, v) ∈ entries := by
  induction entries with
  | nil => simp
  | cons e entries ih =>
    obtain ⟨k, w⟩ := e
    obtain ⟨hfresh, hnodup⟩ := nodup_cons.1 hnodup
    by_cases hk : key = k
    · subst hk
      have hnot : (key, v) ∉ entries := fun hmem => hfresh (mem_map.2 ⟨_, hmem, rfl⟩)
      rw [lookup_cons_self, mem_cons, or_iff_left hnot, Option.some_inj, Prod.mk.injEq,
        and_iff_right rfl, eq_comm]
    · have hne : ¬ ((key, v) = (k, w)) := fun h => hk (congrArg Prod.fst h)
      have hbeq : (key == k) = false := beq_eq_false_iff_ne.2 hk
      rw [lookup_cons, hbeq, mem_cons, or_iff_right hne]
      exact ih hnodup

theorem dictGet_eq_some {v : β} (hnodup : (entries.map Prod.fst).Nodup) :
    dictGet entries key = some v ↔ (key, v) ∈ entries := by
  have hreverse : (entries.reverse.map Prod.fst).Nodup := by
    rw [map_reverse, nodup_reverse]
    exact hnodup
  rw [dictGet, lookup_eq_some hreverse, mem_reverse]

theorem dictGet_map (f : String → β) (l : List String) (key : String) :
    dictGet (l.map fun k => (k, f k)) key = if key ∈ l then some (f key) else none := by
  rw [dictGet, ← map_reverse]
  have hmem : key ∈ l ↔ key ∈ l.reverse := mem_reverse.symm
  rw [if_congr hmem rfl rfl]
  induction l.reverse with
  | nil => rfl
  | cons k l ih =>
    rw [map_cons, lookup_cons, ih]
    by_cases hk : key = k
    · subst hk
      rw [beq_self_eq_true, if_pos mem_cons_self]
    · rw [beq_eq_false_iff_ne.2 hk]
      have hiff : key ∈ k :: l ↔ key ∈ l := by rw [mem_cons, or_iff_right hk]
      rw [if_congr hiff rfl rfl]

theorem SetOrder.mem_order (sets : SetOrder) {l : List String} {v : String} :
    v ∈ sets.order l ↔ v ∈ l := (sets.perm l).mem_iff.trans List.mem_dedup

/-! ## Blocks -/

theorem defined_program (ops : List MlirOp) : defined (program ops) = blockResults ops :=
  flatMap_map ..

theorem blockResults_flatten (blocks : List (List MlirOp)) :
    blockResults blocks.flatten = blocks.flatMap blockResults := by
  rw [blockResults, flatMap_def, map_flatten, flatten_flatten, map_map, flatMap_def]
  rfl

theorem mem_blockResults {block : List MlirOp} {n : String} :
    n ∈ blockResults block ↔ ∃ op ∈ block, n ∈ op.instr.results := mem_flatMap

theorem mem_blockOperands {block : List MlirOp} {n : String} :
    n ∈ blockOperands block ↔ ∃ op ∈ block, n ∈ op.operands.map ssaKey := mem_flatMap

theorem ssaKey_of_mem_blockResults {block : List MlirOp} {n : String}
    (h : n ∈ blockResults block) : ssaKey n = n := by
  obtain ⟨op, _, hn⟩ := mem_flatMap.1 h
  obtain ⟨r, _, rfl⟩ := mem_map.1 hn
  exact ssaKey_ssaKey r

variable {sets : SetOrder} {args : SplitArgs} {blocks : List (List MlirOp)} {f p : Nat}
  {block other : List MlirOp} {n v : String}

section Unique

variable (hnodup : (blockResults blocks.flatten).Nodup)
include hnodup

theorem producer_eq_some :
    producer blocks n = some p ↔ ∃ block, blocks[p]? = some block ∧ n ∈ blockResults block := by
  have hkeys : ((blocks.zipIdx.flatMap fun e => (blockResults e.1).map fun r => (r, e.2)).map
      Prod.fst) = blockResults blocks.flatten := by
    rw [blockResults_flatten, map_flatMap]
    have hfst : (fun e : List MlirOp × Nat =>
        ((blockResults e.1).map fun r => (r, e.2)).map Prod.fst) = fun e => blockResults e.1 := by
      funext e
      rw [map_map]
      exact map_id _
    rw [hfst, ← flatMap_map, zipIdx_map_fst]
  rw [producer, dictGet_eq_some (by rw [hkeys]; exact hnodup)]
  constructor
  · intro h
    obtain ⟨⟨block, i⟩, hblock, hn⟩ := mem_flatMap.1 h
    obtain ⟨r, hr, heq⟩ := mem_map.1 hn
    cases heq
    exact ⟨block, mem_zipIdx_iff_getElem?.mp hblock, hr⟩
  · rintro ⟨block, hblock, hn⟩
    exact mem_flatMap.2 ⟨(block, p), mem_zipIdx_iff_getElem?.mpr hblock, mem_map_of_mem hn⟩

theorem block_unique (hblock : blocks[f]? = some block) (hn : n ∈ blockResults block)
    (hother : blocks[p]? = some other) (hn' : n ∈ blockResults other) : p = f := by
  have hf := (producer_eq_some hnodup).2 ⟨block, hblock, hn⟩
  have hp := (producer_eq_some hnodup).2 ⟨other, hother, hn'⟩
  exact Option.some.inj (hp.symm.trans hf)

/-! ## Inputs -/

theorem mem_needed :
    v ∈ needed sets blocks f block ↔ v ∈ blockOperands block ∧
      ∃ p other, blocks[p]? = some other ∧ p ≠ f ∧ v ∈ blockResults other := by
  rw [needed, sets.mem_order, mem_filter]
  refine and_congr_right fun _ => ?_
  constructor
  · intro h
    cases hp : producer blocks v with
    | none => simp [hp] at h
    | some p =>
      obtain ⟨other, hother, hv⟩ := (producer_eq_some hnodup).1 hp
      simp only [hp, decide_eq_true_eq] at h
      exact ⟨p, other, hother, h, hv⟩
  · rintro ⟨p, other, hother, hne, hv⟩
    simp only [(producer_eq_some hnodup).2 ⟨other, hother, hv⟩, decide_eq_true_eq]
    exact hne

end Unique

theorem mem_arranged (l x w : List String) (s : String → Bool) :
    v ∈ l.take 1 ++ x ++ (l.drop 1).filter (fun v => !s v) ++ w ++ (l.drop 1).filter s ↔
      v ∈ l ∨ v ∈ x ∨ v ∈ w := by
  have hsplit : v ∈ l ↔ v ∈ l.take 1 ∨ v ∈ l.drop 1 := by
    rw [← mem_append, take_append_drop]
  rw [hsplit]
  simp only [mem_append, mem_filter]
  cases s v with
  | true =>
    simp only [Bool.not_true, Bool.false_eq_true, and_false, and_true, or_false]
    tauto
  | false =>
    simp only [Bool.not_false, Bool.false_eq_true, and_false, and_true, or_false]
    tauto

theorem mem_laterInputs :
    v ∈ laterInputs sets args blocks f block ↔ v ∈ needed sets blocks f block := by
  rw [laterInputs, mem_arranged, neededWeights]
  simp only [mem_mergeSort, mem_filter, decide_eq_true_eq]
  tauto

/-! ## Outputs -/

theorem mem_exported :
    v ∈ exported args blocks f block ↔ v ∈ blockResults block ∧
      (v ∈ (blocks.drop (f + 1)).flatMap blockOperands ∨
        ∃ g ∈ args.globalOutputs, ssaKey g.name = v) := by
  rw [exported, mem_mergeSort, mem_filter, mem_dedup, decide_eq_true_eq, mem_map]

theorem exported_sorted : (exported args blocks f block).Pairwise (· ≤ ·) := by
  have htrans : ∀ a b c : String, decide (a ≤ b) = true → decide (b ≤ c) = true →
      decide (a ≤ c) = true := fun a b c hab hbc =>
    decide_eq_true (le_trans (of_decide_eq_true hab) (of_decide_eq_true hbc))
  have htotal : ∀ a b : String, (decide (a ≤ b) || decide (b ≤ a)) = true := by
    intro a b
    rcases le_total a b with h | h
    · rw [decide_eq_true h, Bool.true_or]
    · rw [decide_eq_true h, Bool.or_true]
  exact (pairwise_mergeSort htrans htotal _).imp of_decide_eq_true

theorem mem_orderedOutputs :
    v ∈ orderedOutputs args blocks f block ↔ v ∈ exported args blocks f block := by
  rw [orderedOutputs]
  by_cases ha : isABlock blocks f = true
  · simp only [ha, if_true]
    generalize hordered : (List.filter _ [_, _, _]) = ordered
    have hsub : v ∈ ordered → v ∈ exported args blocks f block := by
      intro hv
      rw [← hordered, mem_filter, decide_eq_true_eq] at hv
      exact hv.2.2
    rw [mem_append, mem_filter, decide_eq_true_eq]
    tauto
  · rw [if_neg ha]

variable {outputs : List FuncOutput}

def outputKeys (outputs : List FuncOutput) : List String := outputs.map fun o => ssaKey o.name

theorem ssaKey_of_mem_exported (h : v ∈ exported args blocks f block) : ssaKey v = v :=
  ssaKey_of_mem_blockResults (mem_exported.1 h).1

theorem outputKeys_cases (h : funcOutputs sets args blocks f block = some outputs) :
    outputKeys outputs = orderedOutputs args blocks f block ∧
        orderedOutputs args blocks f block ≠ [] ∨
      exported args blocks f block = [] ∧ ∃ v ∈ blockResults block, outputKeys outputs = [v] := by
  rw [funcOutputs] at h
  by_cases hne : orderedOutputs args blocks f block = []
  · rw [if_neg (by simpa using hne)] at h
    obtain ⟨v, hv, hout⟩ := Option.map_eq_some_iff.1 h
    have hmem : v ∈ blockResults block := sets.mem_order.1 (mem_of_head? hv)
    refine .inr ⟨eq_nil_iff_forall_not_mem.2 fun w hw => ?_, v, hmem, ?_⟩
    · have hord := mem_orderedOutputs.2 hw
      rw [hne] at hord
      cases hord
    · rw [← hout, outputKeys, map_cons, map_nil, ssaKey_percent (ssaKey_of_mem_blockResults hmem)]
  · rw [if_pos hne] at h
    refine .inl ⟨?_, hne⟩
    cases h
    rw [outputKeys, map_map]
    refine (map_congr_left fun v hv => ?_).trans (map_id _)
    exact ssaKey_percent (ssaKey_of_mem_exported (mem_orderedOutputs.1 hv))

theorem mem_outputKeys_of_exported (h : funcOutputs sets args blocks f block = some outputs)
    (hv : v ∈ exported args blocks f block) : v ∈ outputKeys outputs := by
  rcases outputKeys_cases h with ⟨hkeys, _⟩ | ⟨hnil, _⟩
  · rw [hkeys]
    exact mem_orderedOutputs.2 hv
  · rw [hnil] at hv
    cases hv

theorem outputKeys_subset (h : funcOutputs sets args blocks f block = some outputs)
    (hv : v ∈ outputKeys outputs) : v ∈ blockResults block := by
  rcases outputKeys_cases h with ⟨hkeys, _⟩ | ⟨_, w, hw, hkeys⟩
  · rw [hkeys] at hv
    exact (mem_exported.1 (mem_orderedOutputs.1 hv)).1
  · rw [hkeys] at hv
    rw [mem_singleton.1 hv]
    exact hw

theorem funcOutputs_isSome (sets : SetOrder) (args : SplitArgs) (blocks : List (List MlirOp))
    (f : Nat) (block : List MlirOp) :
    (funcOutputs sets args blocks f block).isSome = true ↔ blockResults block ≠ [] := by
  rw [funcOutputs]
  by_cases hne : orderedOutputs args blocks f block = []
  · rw [if_neg (by simpa using hne), Option.isSome_map]
    cases hres : blockResults block with
    | nil =>
      have hnil : sets.order [] = [] := perm_nil.1 (sets.perm [])
      rw [hnil]
      simp
    | cons r rs =>
      have hmem : r ∈ sets.order (r :: rs) := sets.mem_order.2 mem_cons_self
      cases horder : sets.order (r :: rs) with
      | nil =>
        rw [horder] at hmem
        cases hmem
      | cons => simp
  · rw [if_pos hne]
    obtain ⟨v, hv⟩ := exists_mem_of_ne_nil _ hne
    have hres := (mem_exported.1 (mem_orderedOutputs.1 hv)).1
    simp [ne_nil_of_mem hres]

theorem outputIndex_spec {func : MlirFunction} (h : key ∈ outputKeys func.outputs) :
    ∃ o out, outputIndex func key = some o ∧ func.outputs[o]? = some out ∧
      ssaKey out.name = key := by
  obtain ⟨out, hout, hkey⟩ := mem_map.1 h
  have hsome : (outputIndex func key).isSome = true := by
    rw [outputIndex, findIdx?_isSome, any_eq_true]
    exact ⟨out, hout, by rw [hkey]; exact decide_eq_true rfl⟩
  obtain ⟨o, ho⟩ := Option.isSome_iff_exists.1 hsome
  obtain ⟨hlt, hat, _⟩ := findIdx?_eq_some_iff_getElem.1 ho
  exact ⟨o, func.outputs[o], ho, getElem?_eq_getElem hlt, of_decide_eq_true hat⟩

/-! ## Functions -/

variable {func : MlirFunction}

theorem buildFunction_spec (h : buildFunction sets args blocks f block = some func) :
    func.inputs = funcInputs sets args blocks f block ∧
      funcOutputs sets args blocks f block = some func.outputs ∧
      func.ops = block.map fun op =>
        adjustOpAttributes op (inputRankMap (funcInputs sets args blocks f block)) := by
  obtain ⟨outputs, houtputs, h⟩ := Option.bind_eq_some_iff.1 h
  cases h
  exact ⟨rfl, houtputs, rfl⟩

theorem inputKeys_later (hnodup : (blockResults blocks.flatten).Nodup) (hf : f ≠ 0) :
    inputKeys (funcInputs sets args blocks f block) = laterInputs sets args blocks f block := by
  rw [funcInputs, if_neg hf, inputKeys, map_map]
  refine (map_congr_left fun v hv => ?_).trans (map_id _)
  obtain ⟨_, p, other, _, _, hmade⟩ := (mem_needed hnodup).1 (mem_laterInputs.1 hv)
  exact ssaKey_percent (ssaKey_of_mem_blockResults hmade)

theorem inputRankMap_eq (hnodup : (blockResults blocks.flatten).Nodup)
    (hn : n ∈ blockOperands block) :
    inputRankMap (funcInputs sets args blocks f block) n = outerRank blocks args f n := by
  by_cases hf : f = 0
  · rw [funcInputs, outerRank, if_pos hf, if_pos hf]
  · have hentries : ((laterInputs sets args blocks f block).map
        fun v => ("%" ++ v, typeOf blocks v)).map (fun e => (ssaKey e.1, typeRank e.2)) =
        (laterInputs sets args blocks f block).map fun v => (v, typeRank (typeOf blocks v)) := by
      rw [map_map]
      refine map_congr_left fun v hv => ?_
      obtain ⟨_, p, other, _, _, hmade⟩ := (mem_needed hnodup).1 (mem_laterInputs.1 hv)
      show (ssaKey ("%" ++ v), _) = _
      rw [ssaKey_percent (ssaKey_of_mem_blockResults hmade)]
    rw [funcInputs, if_neg hf, inputRankMap, hentries, dictGet_map, outerRank, if_neg hf]
    have hiff : n ∈ laterInputs sets args blocks f block ↔ n ∈ blockOperands block ∧
        ∃ p other, blocks[p]? = some other ∧ p ≠ f ∧ n ∈ blockResults other :=
      mem_laterInputs.trans (mem_needed hnodup)
    cases hp : producer blocks n with
    | none =>
      refine if_neg fun h => ?_
      obtain ⟨_, p, other, hother, _, hmade⟩ := hiff.1 h
      rw [(producer_eq_some hnodup).2 ⟨other, hother, hmade⟩] at hp
      cases hp
    | some p =>
      obtain ⟨other, hother, hmade⟩ := (producer_eq_some hnodup).1 hp
      by_cases hpf : p = f
      · refine (if_neg fun h => ?_).trans (if_pos hpf).symm
        obtain ⟨_, q, other', hother', hne, hmade'⟩ := hiff.1 h
        exact hne ((block_unique hnodup hother hmade hother' hmade').trans hpf)
      · rw [if_pos (hiff.2 ⟨hn, p, other, hother, hpf, hmade⟩)]
        exact (if_neg hpf).symm

theorem adjust_congr {m' : String → Option Nat} (h : ∀ n ∈ op.operands.map ssaKey, m n = m' n) :
    adjustOpAttributes op m = adjustOpAttributes op m' := by
  rw [adjustOpAttributes, adjustOpAttributes]
  by_cases hskip : op.opName ∈ ["weight", "constant", "_func_boundary"]
  · rw [if_pos hskip, if_pos hskip]
  · rw [if_neg hskip, if_neg hskip]
    refine congrArg (fun attrs => { op with attributes := attrs }) (foldl_ext _ _ _ ?_)
    intro attrs a ha
    rw [h _ (mem_map_of_mem ha)]

theorem instr_adjust (op : MlirOp) (m : String → Option Nat) :
    (adjustOpAttributes op m).instr.args = op.instr.args ∧
      (adjustOpAttributes op m).instr.results = op.instr.results ∧
      (adjustOpAttributes op m).opName = op.opName := by
  rw [adjustOpAttributes]
  by_cases hskip : op.opName ∈ ["weight", "constant", "_func_boundary"]
  · rw [if_pos hskip]
    exact ⟨rfl, rfl, rfl⟩
  · rw [if_neg hskip]
    exact ⟨rfl, rfl, rfl⟩

theorem adjust_eq_self
    (h : (adjustOpAttributes op m).attributes = op.attributes) : adjustOpAttributes op m = op := by
  rw [adjustOpAttributes] at h ⊢
  by_cases hskip : op.opName ∈ ["weight", "constant", "_func_boundary"]
  · rw [if_pos hskip]
  · rw [if_neg hskip] at h ⊢
    exact congrArg (fun attrs => { op with attributes := attrs }) h

/-! ## Scopes -/

/-- A program in single assignment form with its weights in the first block. -/
structure SsaBlocks (blocks : List (List MlirOp)) (args : SplitArgs) : Prop where
  distinct : (inputKeys args.globalInputs ++ defined (program blocks.flatten)).Nodup
  inScope : Scoped (· ∈ inputKeys args.globalInputs) (program blocks.flatten)
  weightsFirst : ∀ f block, blocks[f]? = some block → ∀ op ∈ block, op.opName = "weight" → f = 0
  weights : ∀ w ∈ args.weights, ∃ op ∈ blocks.flatten, op.opName = "weight" ∧
    w ∈ op.results.map ssaKey
  weightNames : ∀ op ∈ blocks.flatten, op.opName = "weight" →
    op.weightName ∉ inputKeys args.globalInputs

theorem SsaProgram.ssaBlocks (hp : SsaProgram blocks args) : SsaBlocks blocks args :=
  ⟨hp.distinct, hp.inScope, hp.weightsFirst, hp.weights, hp.weightNames⟩

theorem SsaBlocks.nodup (hp : SsaBlocks blocks args) : (blockResults blocks.flatten).Nodup := by
  rw [← defined_program]
  exact (nodup_append.1 hp.distinct).2.1

theorem SsaBlocks.result_ne_global (hp : SsaBlocks blocks args)
    (hblock : blocks[f]? = some block) (hn : n ∈ blockResults block) :
    n ∉ inputKeys args.globalInputs := by
  intro hglobal
  refine (nodup_append.1 hp.distinct).2.2 n hglobal n ?_ rfl
  rw [defined_program, blockResults_flatten]
  exact mem_flatMap.2 ⟨block, mem_of_getElem? hblock, hn⟩

theorem mem_blockResults_take :
    n ∈ blockResults (blocks.take f).flatten ↔
      ∃ p other, p < f ∧ blocks[p]? = some other ∧ n ∈ blockResults other := by
  rw [blockResults_flatten, mem_flatMap]
  constructor
  · rintro ⟨other, hmem, hn⟩
    obtain ⟨p, hp⟩ := mem_iff_getElem?.mp hmem
    rw [getElem?_take] at hp
    by_cases hlt : p < f
    · rw [if_pos hlt] at hp
      exact ⟨p, other, hlt, hp, hn⟩
    · rw [if_neg hlt] at hp
      cases hp
  · rintro ⟨p, other, hlt, hp, hn⟩
    refine ⟨other, mem_of_getElem? (i := p) ?_, hn⟩
    rw [getElem?_take, if_pos hlt, hp]

theorem SsaBlocks.block_scoped (hp : SsaBlocks blocks args) (hblock : blocks[f]? = some block) :
    Scoped (fun n => n ∈ inputKeys args.globalInputs ∨
      n ∈ blockResults (blocks.take f).flatten) (program block) := by
  obtain ⟨hlt, hget⟩ := List.getElem?_eq_some_iff.1 hblock
  have hsplit : blocks = blocks.take f ++ block :: blocks.drop (f + 1) := by
    rw [← hget, ← drop_eq_getElem_cons hlt, take_append_drop]
  have hscope := hp.inScope
  rw [hsplit, flatten_append, flatten_cons, program, map_append, map_append,
    scoped_append, scoped_append] at hscope
  have hblock := hscope.2.1
  change Scoped (fun n => n ∈ inputKeys args.globalInputs ∨
    n ∈ defined (program (blocks.take f).flatten)) (program block) at hblock
  rw [defined_program] at hblock
  exact hblock

theorem SsaBlocks.args_later (hp : SsaBlocks blocks args) (hblock : blocks[f]? = some block)
    (hf : f ≠ 0) (hop : op ∈ block) : op.instr.args = op.operands.map ssaKey := by
  have hweight : op.opName ≠ "weight" := fun h => hf (hp.weightsFirst f block hblock op hop h)
  rw [MlirOp.instr, if_neg hweight]

theorem SsaBlocks.operand_later (hp : SsaBlocks blocks args) (hblock : blocks[f]? = some block)
    (hf : f ≠ 0) (hn : n ∈ blockOperands block) :
    n ∈ inputKeys args.globalInputs ∨ n ∈ blockResults block ∨
      ∃ p other, p < f ∧ blocks[p]? = some other ∧ n ∈ blockResults other := by
  obtain ⟨op, hop, hn⟩ := mem_blockOperands.1 hn
  rw [← hp.args_later hblock hf hop] at hn
  rcases (hp.block_scoped hblock).args (mem_map_of_mem hop) hn with (hglobal | hearlier) | hown
  · exact .inl hglobal
  · exact .inr (.inr (mem_blockResults_take.1 hearlier))
  · rw [defined_program] at hown
    exact .inr (.inl hown)

/-! ## Edges -/

/-- The inputs of a later function are the values of other blocks that it reads, and its outputs
    the values it exports, in some order.  An edge is found by name, so the orders do not matter.
    -/
structure Built (sets : SetOrder) (args : SplitArgs) (blocks : List (List MlirOp))
    (funcs : List MlirFunction) : Prop where
  length : funcs.length = blocks.length
  func : ∀ f block, blocks[f]? = some block →
    ∃ func, funcs[f]? = some func ∧ buildFunction sets args blocks f block = some func

theorem Built.block_of (hb : Built sets args blocks funcs) (h : funcs[f]? = some func) :
    ∃ block, blocks[f]? = some block ∧ buildFunction sets args blocks f block = some func := by
  have hlt : f < blocks.length := by
    rw [← hb.length]
    exact (List.getElem?_eq_some_iff.1 h).1
  have hblock := getElem?_eq_getElem hlt
  obtain ⟨func', hfunc', hbuild⟩ := hb.func f _ hblock
  rw [h] at hfunc'
  cases hfunc'
  exact ⟨_, hblock, hbuild⟩

theorem Built.mem_output (hb : Built sets args blocks funcs)
    (hother : blocks[p]? = some other) (hlt : p < f) (hblock : blocks[f]? = some block)
    (hmade : n ∈ blockResults other) (hread : n ∈ blockOperands block) :
    ∃ func, funcs[p]? = some func ∧ n ∈ outputKeys func.outputs := by
  obtain ⟨func, hfunc, hbuild⟩ := hb.func p other hother
  refine ⟨func, hfunc, mem_outputKeys_of_exported (buildFunction_spec hbuild).2.1 ?_⟩
  refine mem_exported.2 ⟨hmade, .inl (mem_flatMap.2 ⟨block, ?_, hread⟩)⟩
  refine mem_of_getElem? (i := f - (p + 1)) ?_
  rw [getElem?_drop, show p + 1 + (f - (p + 1)) = f by omega, hblock]

theorem inputEdge_later (names : List String)
    (hp : SsaBlocks blocks args) (hb : Built sets args blocks funcs)
    (hblock : blocks[f]? = some block) (hf : f ≠ 0) (hv : v ∈ needed sets blocks f block)
    {name : String} (hname : ssaKey name = v) :
    ∃ p other func o out, p < f ∧ blocks[p]? = some other ∧ v ∈ blockResults other ∧
      funcs[p]? = some func ∧ func.outputs[o]? = some out ∧ ssaKey out.name = v ∧
      inputEdge args blocks funcs names f name = some ⟨.stepOutput, p, o⟩ := by
  obtain ⟨hread, p, other, hother, hne, hmade⟩ := (mem_needed hp.nodup).1 hv
  have hlt : p < f := by
    rcases hp.operand_later hblock hf hread with hglobal | hown | ⟨q, other', hlt, hother', hmade'⟩
    · exact absurd hglobal (hp.result_ne_global hother hmade)
    · exact absurd (block_unique hp.nodup hblock hown hother hmade) hne
    · rwa [← block_unique hp.nodup hother hmade hother' hmade']
  obtain ⟨func, hfunc, hkeys⟩ := hb.mem_output hother hlt hblock hmade hread
  obtain ⟨o, out, ho, hout, hkey⟩ := outputIndex_spec hkeys
  have hproducer : producer blocks v = some p :=
    (producer_eq_some hp.nodup).2 ⟨other, hother, hmade⟩
  refine ⟨p, other, func, o, out, hlt, hother, hmade, hfunc, hout, hkey, ?_⟩
  have hpos : 0 < funcs.length := by
    have := (List.getElem?_eq_some_iff.1 hfunc).1
    omega
  have hfirst := getElem?_eq_getElem hpos
  unfold inputEdge
  simp only [hname, hfirst, Option.bind_eq_bind, Option.bind_some, hf, if_false]
  by_cases hw : v ∈ args.weights
  · -- a weight is made in the first block
    have hp0 : p = 0 := by
      obtain ⟨op, hop, hweight, hres⟩ := hp.weights v hw
      obtain ⟨wblock, hwblock, hop⟩ := mem_flatten.1 hop
      obtain ⟨q, hq⟩ := mem_iff_getElem?.mp hwblock
      have hq0 := hp.weightsFirst q wblock hq op hop hweight
      have hmade' : v ∈ blockResults wblock := mem_blockResults.2 ⟨op, hop, hres⟩
      rw [← hq0]
      exact block_unique hp.nodup hq hmade' hother hmade
    subst hp0
    rw [hfirst] at hfunc
    cases hfunc
    rw [if_pos hw, ho]
  · rw [if_neg hw, hproducer]
    cases p with
    | zero =>
      rw [hfirst] at hfunc
      cases hfunc
      simp only [ho, Option.getD_some]
    | succ =>
      simp only [hfunc, ho, Option.getD_some, Option.bind_some]

theorem globalNames_eq (args : SplitArgs) (first : MlirFunction) :
    ∃ ws, globalNames args first = args.globalInputs.map Prod.fst ++ ws ∧
      ∀ w ∈ ws, ∃ op ∈ first.ops, op.opName = "weight" ∧ op.weightName = w := by
  have hfold : ∀ (ops : List MlirOp) (names : List String), ∃ ws, ops.foldl (fun names op =>
        if op.opName = "weight" ∧ op.weightName ≠ "" ∧ op.weightName ∉ names ∧
            !op.weightName.startsWith "_const_" then names ++ [op.weightName]
        else names) names = names ++ ws ∧
      ∀ w ∈ ws, ∃ op ∈ ops, op.opName = "weight" ∧ op.weightName = w := by
    intro ops
    induction ops with
    | nil => exact fun names => ⟨[], (append_nil _).symm, nofun⟩
    | cons op ops ih =>
      intro names
      rw [foldl_cons]
      by_cases hadd : op.opName = "weight" ∧ op.weightName ≠ "" ∧ op.weightName ∉ names ∧
          !op.weightName.startsWith "_const_"
      · rw [if_pos hadd]
        obtain ⟨ws, hws, hmem⟩ := ih (names ++ [op.weightName])
        refine ⟨op.weightName :: ws, by rw [hws, append_assoc]; rfl, fun w hw => ?_⟩
        rcases mem_cons.1 hw with rfl | hw
        · exact ⟨op, mem_cons_self, hadd.1, rfl⟩
        · obtain ⟨op', hop', hw⟩ := hmem w hw
          exact ⟨op', mem_cons_of_mem op hop', hw⟩
      · rw [if_neg hadd]
        obtain ⟨ws, hws, hmem⟩ := ih names
        refine ⟨ws, hws, fun w hw => ?_⟩
        obtain ⟨op', hop', hw⟩ := hmem w hw
        exact ⟨op', mem_cons_of_mem op hop', hw⟩
  exact hfold first.ops _

section First

variable (hp : SsaBlocks blocks args) (hb : Built sets args blocks funcs)
  (hfirst : funcs[0]? = some first)
include hp hb hfirst

theorem Built.weight_ne_global (hop : op ∈ first.ops)
    (hweight : op.opName = "weight") : op.weightName ∉ inputKeys args.globalInputs := by
  obtain ⟨block, hblock, hbuild⟩ := hb.block_of hfirst
  rw [(buildFunction_spec hbuild).2.2] at hop
  obtain ⟨op', hop', rfl⟩ := mem_map.1 hop
  rw [(instr_adjust op' _).2.2] at hweight
  have hsame : ∀ m, adjustOpAttributes op' m = op' := by
    intro m
    rw [adjustOpAttributes, if_pos (by rw [hweight]; decide)]
  rw [hsame]
  exact hp.weightNames op' (mem_flatten.2 ⟨block, mem_of_getElem? hblock, hop'⟩) hweight

/-- The edge of a global input of the first function points to that input. -/
theorem inputEdge_first (hinput : args.globalInputs[i]? = some input) :
    inputEdge args blocks funcs (globalNames args first) 0 input.1 = some ⟨.globalInput, i, 0⟩ := by
  have hkeys : (inputKeys args.globalInputs).Nodup := (nodup_append.1 hp.distinct).1
  obtain ⟨ws, hnames, hws⟩ := globalNames_eq args first
  obtain ⟨hi, hget⟩ := List.getElem?_eq_some_iff.1 hinput
  -- a name with the key of this input can only stand at its place
  have hplace : ∀ s ∈ globalNames args first, ssaKey s = ssaKey input.1 →
      ssaKey input.1 = s ∨ input.1 = s → (globalNames args first).idxOf s = i := by
    intro s hs hkey hcase
    have hglobal : s ∈ args.globalInputs.map Prod.fst := by
      rw [hnames, mem_append] at hs
      rcases hs with hs | hs
      · exact hs
      · rcases hcase with hcase | hcase
        · obtain ⟨op, hop, hweight, hname⟩ := hws s hs
          refine absurd ?_ (hb.weight_ne_global hp hfirst hop hweight)
          rw [hname, ← hcase]
          exact mem_map.2 ⟨input, mem_of_getElem? hinput, rfl⟩
        · rw [← hcase]
          exact mem_map_of_mem (mem_of_getElem? hinput)
    have hlt := idxOf_lt_length_of_mem hglobal
    rw [hnames, idxOf_append_of_mem hglobal]
    have hat : (inputKeys args.globalInputs)[(args.globalInputs.map Prod.fst).idxOf s]? =
        some (ssaKey input.1) := by
      have hs' := getElem_idxOf hlt
      rw [getElem_map] at hs'
      rw [length_map] at hlt
      rw [inputKeys, getElem?_map, getElem?_eq_getElem hlt, Option.map_some, hs', hkey]
    have hat' : (inputKeys args.globalInputs)[i]? = some (ssaKey input.1) := by
      rw [inputKeys, getElem?_map, hinput, Option.map_some]
    have hlt' : (args.globalInputs.map Prod.fst).idxOf s < (inputKeys args.globalInputs).length :=
      (List.getElem?_eq_some_iff.1 hat).1
    exact (getElem?_inj hlt' hkeys).1 (hat.trans hat'.symm)
  unfold inputEdge globalIndex
  simp only [hfirst, Option.bind_eq_bind, Option.bind_some, if_true]
  by_cases hkey : ssaKey input.1 ∈ globalNames args first
  · rw [if_pos hkey, hplace _ hkey (ssaKey_ssaKey _) (.inl rfl)]
    rfl
  · have hname : input.1 ∈ globalNames args first := by
      rw [hnames]
      exact mem_append_left _ (mem_map_of_mem (mem_of_getElem? hinput))
    rw [if_neg hkey, if_pos hname, hplace _ hname rfl (.inr rfl)]
    rfl

end First

/-! ## The result -/

theorem getElem?_of_map_eq {g : α → Option β} {l : List α} {l' : List β}
    (h : l.map g = l'.map some) {a : α} (ha : l[i]? = some a) :
    ∃ b, l'[i]? = some b ∧ g a = some b := by
  have hat : (l.map g)[i]? = (l'.map some)[i]? := by rw [h]
  rw [getElem?_map, ha, Option.map_some, getElem?_map] at hat
  obtain ⟨b, hb, hga⟩ := Option.map_eq_some_iff.1 hat.symm
  exact ⟨b, hb, hga.symm⟩

/-- What `_make_multi_functions` returns for at least two blocks. -/
structure Returned (sets : SetOrder) (args : SplitArgs) (blocks : List (List MlirOp))
    (r : SplitResult) : Prop where
  built : Built sets args blocks r.functions
  steps : r.plan.steps.length = r.functions.length
  edges : ∀ f (func : MlirFunction), r.functions[f]? = some func →
    ∃ (first : MlirFunction) (step : ExecutionStep), r.functions[0]? = some first ∧
      r.plan.steps[f]? = some step ∧
      (func.inputs.map fun i => inputEdge args blocks r.functions (globalNames args first) f i.1) =
        step.inputs.map some
  bindings : r.bindings = blocks.zipIdx.flatMap fun e => funcBindings args blocks e.2 e.1

theorem built_of_mapM
    (h : blocks.zipIdx.mapM (fun e => buildFunction sets args blocks e.2 e.1) = some funcs) :
    Built sets args blocks funcs := by
  have hmap := mapM_eq_some.1 h
  refine ⟨?_, fun f block hblock => ?_⟩
  · have hlen := congrArg length hmap
    rw [length_map, length_map, length_zipIdx] at hlen
    exact hlen.symm
  · exact getElem?_of_map_eq hmap (a := (block, f)) (by
      rw [getElem?_zipIdx, hblock, Option.map_some, zero_add])

theorem returned_of_makeMultiFunctions {r : SplitResult}
    (htwo : 2 ≤ (partitionBlocks [] mlirOps).length)
    (h : makeMultiFunctions sets mlirOps args = some r) :
    Returned sets args (partitionBlocks [] mlirOps) r := by
  unfold makeMultiFunctions at h
  simp only at h
  rw [if_neg (by omega)] at h
  obtain ⟨funcs, hfuncs, h⟩ := Option.bind_eq_some_iff.1 h
  obtain ⟨first, hfirst, h⟩ := Option.bind_eq_some_iff.1 h
  obtain ⟨steps, hsteps, h⟩ := Option.bind_eq_some_iff.1 h
  cases h
  have hmap := mapM_eq_some.1 hsteps
  refine ⟨built_of_mapM hfuncs, ?_, fun f func hfunc => ?_, rfl⟩
  · have hlen := congrArg length hmap
    rw [length_map, length_map, length_zipIdx] at hlen
    exact hlen.symm
  · obtain ⟨step, hstep, hat⟩ := getElem?_of_map_eq hmap (a := (func, f)) (by
      rw [getElem?_zipIdx, hfunc, Option.map_some, zero_add])
    obtain ⟨inputs, hinputs, hat⟩ := Option.bind_eq_some_iff.1 hat
    cases hat
    exact ⟨first, _, hfirst, hstep, mapM_eq_some.1 hinputs⟩

section Edges

variable (hp : SsaBlocks blocks args) (hb : Built sets args blocks funcs)
  (hfirst : funcs[0]? = some first) (hfunc : funcs[f]? = some func)
include hp hb hfirst hfunc

theorem inputEdge_isSome (hinput : input ∈ func.inputs) :
    (inputEdge args blocks funcs (globalNames args first) f input.1).isSome = true := by
  obtain ⟨block, hblock, hbuild⟩ := hb.block_of hfunc
  rw [(buildFunction_spec hbuild).1] at hinput
  by_cases hf : f = 0
  · subst hf
    rw [funcInputs, if_pos rfl] at hinput
    obtain ⟨i, hi⟩ := mem_iff_getElem?.mp hinput
    rw [inputEdge_first hp hb hfirst hi]
    rfl
  · have hkey : ssaKey input.1 ∈ inputKeys (funcInputs sets args blocks f block) :=
      mem_map_of_mem (f := fun i : String × String => ssaKey i.1) hinput
    rw [inputKeys_later hp.nodup hf] at hkey
    obtain ⟨_, _, _, _, _, _, _, _, _, _, _, hedge⟩ :=
      inputEdge_later (globalNames args first) hp hb hblock hf (mem_laterInputs.1 hkey) rfl
    rw [hedge]
    rfl

theorem planStep_isSome :
    (planStep args blocks funcs (globalNames args first) (func, f)).isSome = true := by
  obtain ⟨edges, hedges⟩ := exists_values fun i (hi : i ∈ func.inputs) =>
    inputEdge_isSome hp hb hfirst hfunc hi
  have hmap := mapM_eq_some.2 hedges
  unfold planStep
  simp only [hmap, Option.bind_eq_bind, Option.bind_some, Option.isSome_some]

end Edges

theorem buildFunction_isSome (sets : SetOrder) (args : SplitArgs) (blocks : List (List MlirOp))
    (f : Nat) (block : List MlirOp) :
    (buildFunction sets args blocks f block).isSome = true ↔ blockResults block ≠ [] := by
  rw [← funcOutputs_isSome sets args blocks f]
  unfold buildFunction
  cases funcOutputs sets args blocks f block with
  | none => exact Iff.rfl
  | some =>
    constructor
    · exact fun _ => rfl
    · exact fun _ => rfl

theorem makeMultiFunctions_isSome (sets : SetOrder)
    (hp : SsaProgram (partitionBlocks [] mlirOps) args)
    (htwo : 2 ≤ (partitionBlocks [] mlirOps).length) :
    (makeMultiFunctions sets mlirOps args).isSome = true ↔
      ∀ block ∈ partitionBlocks [] mlirOps, blockResults block ≠ [] := by
  constructor
  · intro h block hmem
    obtain ⟨r, hr⟩ := Option.isSome_iff_exists.1 h
    obtain ⟨f, hblock⟩ := mem_iff_getElem?.mp hmem
    obtain ⟨func, _, hbuild⟩ := (returned_of_makeMultiFunctions htwo hr).built.func f block hblock
    refine (buildFunction_isSome sets args (partitionBlocks [] mlirOps) f block).1 ?_
    rw [hbuild]
    rfl
  · intro h
    obtain ⟨funcs, hfuncs⟩ := exists_values fun e (he : e ∈ (partitionBlocks [] mlirOps).zipIdx) =>
      (buildFunction_isSome sets args (partitionBlocks [] mlirOps) e.2 e.1).2
        (h e.1 (mem_of_getElem? (mem_zipIdx_iff_getElem?.mp he)))
    have hmap := mapM_eq_some.2 hfuncs
    have hb := built_of_mapM hmap
    have hpos : 0 < funcs.length := by
      rw [hb.length]
      omega
    have hfirst := getElem?_eq_getElem hpos
    obtain ⟨steps, hsteps⟩ := exists_values fun e (he : e ∈ funcs.zipIdx) =>
      planStep_isSome hp.ssaBlocks hb hfirst (mem_zipIdx_iff_getElem?.mp he)
    have hplan := mapM_eq_some.2 hsteps
    unfold makeMultiFunctions
    simp only
    rw [if_neg (by omega), hmap]
    simp only [Option.bind_eq_bind, Option.bind_some, hfirst, hplan, Option.isSome_some]

end CompileForge.Compiler
