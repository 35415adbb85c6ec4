/-
  What one node does to the state of the converter, and what it does to the names of its operands.
  Results about whole conversions are proved from these two alone.
-/

import CompileForge.Compiler.Fx.Convert
import CompileForge.Lib.Outcome
import Mathlib.Data.List.Induction

namespace CompileForge.Compiler.Fx

open Lib List
open Shape (TensorTy)

variable {V : Type} {ctx : Context V} {st st' : State V} {node : Node} {halOp : String}

/-! ## The cases of a node -/

/-- The node is a call of this op. -/
def Calls (node : Node) (halOp : String) : Prop :=
  ∃ target, node.op = .callFunction target ∧ mapAtenOp target = some halOp

theorem Calls.unique {halOp' : String} (h : Calls node halOp) (h' : Calls node halOp') :
    halOp = halOp' := by
  obtain ⟨target, hop, hmap⟩ := h
  obtain ⟨target', hop', hmap'⟩ := h'
  obtain rfl := NodeOp.callFunction.inj (hop.symm.trans hop')
  exact Option.some.inj (hmap.symm.trans hmap')

def handledOps : List String := ["_skip_wrap", "getitem", "split", "chunk"]

def RecordsVal (node : Node) (shapeMap shapeMap' : List (String × TensorTy)) : Prop :=
  node.val = none ∧ shapeMap' = shapeMap ∨ ∃ ty symNames, node.val = some (.tensor ty symNames) ∧
      shapeMap' = setKey shapeMap node.name ty

def placeholderName (program : ExportedProgram V) (name : String) : String :=
  "%" ++ (weightNameMap program.inputSpecs name).getD name

/-- What a node does, one case for each kind. -/
inductive Converts (ctx : Context V) (st : State V) (node : Node) : State V → Prop
  | placeholder {shapeMap : List (String × TensorTy)} (hop : node.op = .placeholder)
      (hval : RecordsVal node st.shapeMap shapeMap) :
      Converts ctx st node
        { st with
          ssaMap := setKey st.ssaMap node.name (placeholderName ctx.program node.name), shapeMap }
  | getAttr {target : String} {shapeMap : List (String × TensorTy)}
      (hop : node.op = .getAttr target) (hval : RecordsVal node st.shapeMap shapeMap) :
      Converts ctx st node
        { st with ssaMap := setKey st.ssaMap node.name ("%" ++ cleanName target), shapeMap }
  | unmapped {target : String} {shapeMap : List (String × TensorTy)}
      (hop : node.op = .callFunction target) (hmap : mapAtenOp target = none)
      (hval : RecordsVal node st.shapeMap shapeMap) :
      Converts ctx st node { st with shapeMap }
  | skipWrap (hcall : Calls node "_skip_wrap") :
      Converts ctx st node
        { st with
          ssaMap := setKey st.ssaMap node.name
            ((ctx.program.userInputs.head?.map fun n => "%" ++ n).getD node.name) }
  /-- A getitem of a tuple that was emitted as slices. -/
  | element {source ssa : String} {rest : List Arg} {shapeMap : List (String × TensorTy)}
      (hcall : Calls node "getitem") (hargs : node.args = .item (.node source) :: rest)
      (hssa : tupleElement st source (getitemIdx rest) = some ssa)
      (hshape : shapeMap = match st.shapeMap.lookup ssa with
        | some ty => setKey st.shapeMap node.name ty
        | none => st.shapeMap) :
      Converts ctx st node { st with ssaMap := setKey st.ssaMap node.name ssa, shapeMap }
  /-- A getitem of anything else. -/
  | sized {source : String} {rest : List Arg} (hcall : Calls node "getitem")
      (hargs : node.args = .item (.node source) :: rest)
      (hssa : tupleElement st source (getitemIdx rest) = none) :
      Converts ctx st node
        { st with
          ssaMap := setKey st.ssaMap node.name (sizeName st node)
          mlirOps := st.mlirOps ++ [sizeOp st node source rest] }
  | sliced {sl : Slicing} {pieces : List Piece} {tensor : String} {rest : List Arg}
      (hcall : Calls node sl.kind) (hkind : sl.kind ∈ ["split", "chunk"]) (hnode : sl.node = node)
      (hargs : node.args = .item (.node tensor) :: rest)
      (htensor : sl.tensorSsa = ssaName st.ssaMap tensor)
      (htypes : sl.srcTypes = recordedTypes st.shapeMap tensor) :
      Converts ctx st node (st.emitPieces sl pieces)
  /-- A node that is passed over. -/
  | dropped (hcall : ∃ hal ∈ ["getitem", "split", "chunk"], Calls node hal) :
      Converts ctx st node st
  | op {halOp : String} {c : Collected V} {st' : State V} (hcall : Calls node halOp)
      (hgeneric : halOp ∉ handledOps) (hc : collectArgs ctx st node halOp = .ok c)
      (hemit : emitOp ctx st node halOp c = .ok st') : Converts ctx st node st'
  | returned {outs : List FuncOutput} (hop : node.op = .output) :
      Converts ctx st node { st with funcOutputs := st.funcOutputs ++ outs }

theorem recordsVal_of_ok (h : st.recordVal node = .ok st') :
    ∃ shapeMap, RecordsVal node st.shapeMap shapeMap ∧ st' = { st with shapeMap } := by
  rw [State.recordVal] at h
  cases hval : node.val with
  | none =>
    rw [hval] at h
    exact ⟨st.shapeMap, .inl ⟨hval, rfl⟩, (Except.ok.inj h).symm⟩
  | some val =>
    rw [hval] at h
    cases val with
    | other => cases h
    | tensor ty symNames => exact ⟨_, .inr ⟨ty, symNames, hval, rfl⟩, (Except.ok.inj h).symm⟩

theorem converts_getitem (hcall : Calls node "getitem") :
    Converts ctx st node (doGetitem st node) := by
  rw [doGetitem]
  split
  · rename_i source rest hargs
    split
    · exact .element hcall hargs ‹_› rfl
    · exact .sized hcall hargs ‹_›
  · exact .dropped ⟨"getitem", by decide, hcall⟩

theorem converts_split (hcall : Calls node "split") (h : doSplit st node = .ok st') :
    Converts ctx st node st' := by
  have hdropped : Converts ctx st node st := .dropped ⟨"split", by decide, hcall⟩
  rw [doSplit] at h
  split at h
  · split at h
    · exact Except.ok.inj h ▸ .sliced hcall mem_cons_self rfl ‹_› rfl rfl
    · exact Except.ok.inj h ▸ hdropped
  · split at h
    · exact Except.ok.inj h ▸ hdropped
    · exact Except.ok.inj h ▸ hdropped
    · split at h
      · exact Except.ok.inj h ▸ hdropped
      · cases h
  · exact Except.ok.inj h ▸ hdropped

theorem converts_chunk (hcall : Calls node "chunk") (h : doChunk ctx st node = .ok st') :
    Converts ctx st node st' := by
  have hdropped : Converts ctx st node st := .dropped ⟨"chunk", by decide, hcall⟩
  rw [doChunk] at h
  split at h
  · split at h
    · exact Except.ok.inj h ▸ hdropped
    · split at h
      · exact Except.ok.inj h ▸ hdropped
      · obtain ⟨fake, -, h⟩ := bind_eq_ok h
        obtain ⟨total, -, h⟩ := bind_eq_ok h
        cases total with
        | none => exact Except.ok.inj h ▸ hdropped
        | some total =>
          obtain ⟨chunks, -, h⟩ := bind_eq_ok h
          exact Except.ok.inj h ▸ .sliced hcall (mem_cons_of_mem _ mem_cons_self) rfl ‹_› rfl rfl
  · exact Except.ok.inj h ▸ hdropped

theorem converts_call (hcall : Calls node halOp) (h : convertCall ctx st node halOp = .ok st') :
    Converts ctx st node st' := by
  rw [convertCall] at h
  split at h
  · rename_i hhal
    subst hhal
    exact Except.ok.inj h ▸ .skipWrap hcall
  · split at h
    · rename_i hhal
      subst hhal
      exact Except.ok.inj h ▸ converts_getitem hcall
    · split at h
      · rename_i hhal
        subst hhal
        exact converts_split hcall h
      · split at h
        · rename_i hhal
          subst hhal
          exact converts_chunk hcall h
        · obtain ⟨c, hc, hemit⟩ := bind_eq_ok h
          refine .op hcall ?_ hc hemit
          simp only [handledOps, mem_cons, not_mem_nil, or_false, not_or]
          exact ⟨‹_›, ‹_›, ‹_›, ‹_›⟩

theorem returned_of_ok {items : List Item} (h : items.foldlM (convertOutput ctx) st = .ok st') :
    ∃ outs, st' = { st with funcOutputs := st.funcOutputs ++ outs } := by
  induction items generalizing st with
  | nil => exact ⟨[], by rw [← Except.ok.inj h, append_nil]⟩
  | cons a items ih =>
    rw [foldlM_cons] at h
    obtain ⟨s, hs, h⟩ := bind_eq_ok h
    obtain ⟨outs, rfl⟩ := ih h
    cases a with
    | node =>
      obtain ⟨tp, -, hs⟩ := bind_eq_ok hs
      rw [← Except.ok.inj hs]
      exact ⟨_ :: outs, by rw [append_assoc]; rfl⟩
    | _ => exact ⟨outs, by rw [Except.ok.inj hs]⟩

theorem converts_of_ok (h : convertNode ctx st node = .ok st') : Converts ctx st node st' := by
  rw [convertNode] at h
  split at h
  · obtain ⟨shapeMap, hval, rfl⟩ := recordsVal_of_ok h
    exact .placeholder ‹_› hval
  · obtain ⟨shapeMap, hval, rfl⟩ := recordsVal_of_ok h
    exact .getAttr ‹_› hval
  · split at h
    · obtain ⟨shapeMap, hval, rfl⟩ := recordsVal_of_ok h
      exact .unmapped ‹_› ‹_› hval
    · exact converts_call ⟨_, ‹_›, ‹_›⟩ h
  · split at h
    · have hnone : Converts ctx st node { st with funcOutputs := st.funcOutputs ++ [] } :=
        .returned ‹_›
      rw [append_nil] at hnone
      exact Except.ok.inj h ▸ hnone
    · obtain ⟨outs, rfl⟩ := returned_of_ok h
      exact .returned ‹_›
    · cases h

/-! ## The operands of a node -/

/-- An operand: a node of the graph, or a constant made for it. -/
inductive OperandOf where
  | ref (name : String)
  | const (k : Nat)

def OperandOf.render (ssaMap : List (String × String)) : OperandOf → String
  | ref name => ssaName ssaMap name
  | const k => constName k

def OperandOf.number : OperandOf → Option Nat
  | ref _ => none
  | const k => some k

def itemRefs : Item → List String
  | .node name => [name]
  | _ => []

def argRefs : Arg → List String
  | .item a => itemRefs a
  | .list items => items.flatMap itemRefs

/-- The nodes among the arguments. -/
def nodeRefs (args : List Arg) : List String := args.flatMap argRefs

/-- From `c` to `c'` operands are added: nodes of `refs`, and each new constant once, in order. -/
structure Collects (ssaMap : List (String × String)) (refs : List String) (c c' : Collected V) :
    Prop where
  counter : c.nameCounter ≤ c'.nameCounter
  operands : ∃ ops : List OperandOf,
    c'.inputNames = c.inputNames ++ ops.map (OperandOf.render ssaMap) ∧
      (∀ name, OperandOf.ref name ∈ ops → name ∈ refs) ∧
      ops.filterMap OperandOf.number = range' c.nameCounter (c'.nameCounter - c.nameCounter)
  frame : ∀ w, (∀ k, c.nameCounter ≤ k → k < c'.nameCounter → w ≠ constName k) →
    c'.weights.lookup w = c.weights.lookup w
  consts : ∀ k, c.nameCounter ≤ k → k < c'.nameCounter →
    ∃ t, c'.weights.lookup (constName k) = some t ∧ t.shape = []
  nodup : (c.weights.map Prod.fst).Nodup → (c'.weights.map Prod.fst).Nodup

theorem constName_injective {k k' : Nat} (h : constName k = constName k') : k = k' :=
  append_repr_injective "_const_" h

section Collects

variable {ssaMap : List (String × String)} {refs refs' : List String} {c c' c'' : Collected V}

theorem Collects.refl (c : Collected V) : Collects ssaMap refs c c where
  counter := le_refl _
  operands := ⟨[], by simp, by simp, by simp⟩
  frame := fun _ _ => rfl
  consts := fun k hk hk' => absurd hk (not_le.2 hk')
  nodup := id

theorem Collects.trans (h : Collects ssaMap refs c c') (h' : Collects ssaMap refs c' c'') :
    Collects ssaMap refs c c'' where
  counter := h.counter.trans h'.counter
  operands := by
    obtain ⟨ops, hnames, hrefs, hnumbers⟩ := h.operands
    obtain ⟨ops', hnames', hrefs', hnumbers'⟩ := h'.operands
    refine ⟨ops ++ ops', ?_, fun name hname => ?_, ?_⟩
    · rw [hnames', hnames, map_append, append_assoc]
    · exact (mem_append.1 hname).elim (hrefs name) (hrefs' name)
    · have hc := h.counter
      have hc' := h'.counter
      have hsum : c''.nameCounter - c.nameCounter =
          (c'.nameCounter - c.nameCounter) + (c''.nameCounter - c'.nameCounter) := by omega
      have hstart : c.nameCounter + (c'.nameCounter - c.nameCounter) = c'.nameCounter := by omega
      rw [filterMap_append, hnumbers, hnumbers', hsum, ← range'_append_1, hstart]
  frame := by
    intro w hw
    have hc := h.counter
    have hc' := h'.counter
    rw [h'.frame w fun k hk hk' => hw k (by omega) hk',
      h.frame w fun k hk hk' => hw k hk (by omega)]
  consts := by
    intro k hk hk'
    by_cases hfirst : k < c'.nameCounter
    · obtain ⟨t, ht, hshape⟩ := h.consts k hk hfirst
      refine ⟨t, ?_, hshape⟩
      rw [h'.frame (constName k) fun j hj _ hjk => ?_, ht]
      have := constName_injective hjk
      omega
    · exact h'.consts k (Nat.le_of_not_lt hfirst) hk'
  nodup := h'.nodup ∘ h.nodup

variable {w : String} {torch : Torch V} {start : Item} {args : List Arg}

theorem Collects.keys_mono (h : Collects ssaMap refs c c')
    (hw : w ∈ c.weights.map Prod.fst) : w ∈ c'.weights.map Prod.fst := by
  by_cases hconst : ∃ k, c.nameCounter ≤ k ∧ k < c'.nameCounter ∧ w = constName k
  · obtain ⟨k, hk, hk', rfl⟩ := hconst
    obtain ⟨t, ht, -⟩ := h.consts k hk hk'
    exact isSome_lookup.1 (Option.isSome_of_eq_some ht)
  · rw [← isSome_lookup, h.frame w fun k hk hk' hwk => hconst ⟨k, hk, hk', hwk⟩, isSome_lookup]
    exact hw

theorem Collects.keys_new (h : Collects ssaMap refs c c')
    (hw : w ∈ c'.weights.map Prod.fst) : w ∈ c.weights.map Prod.fst ∨
      ∃ k, c.nameCounter ≤ k ∧ k < c'.nameCounter ∧ w = constName k := by
  by_cases hconst : ∃ k, c.nameCounter ≤ k ∧ k < c'.nameCounter ∧ w = constName k
  · exact .inr hconst
  · rw [← isSome_lookup, h.frame w fun k hk hk' hwk => hconst ⟨k, hk, hk', hwk⟩,
      isSome_lookup] at hw
    exact .inl hw

theorem Collects.mono (h : Collects ssaMap refs c c') (hsub : ∀ n ∈ refs, n ∈ refs') :
    Collects ssaMap refs' c c' :=
  { h with
    operands := by
      obtain ⟨ops, hnames, hrefs, hnumbers⟩ := h.operands
      exact ⟨ops, hnames, fun name hname => hsub name (hrefs name hname), hnumbers⟩ }

theorem Collects.keywords (h : Collects ssaMap refs c c') (kw : List (String × Arg)) :
    Collects ssaMap refs c { c' with extraKwargs := kw } :=
  ⟨h.counter, h.operands, h.frame, h.consts, h.nodup⟩

theorem collects_push {name : String} (h : name ∈ refs) (c : Collected V) :
    Collects ssaMap refs c (c.push (ssaName ssaMap name)) where
  counter := le_refl _
  operands := by
    refine ⟨[.ref name], rfl, fun n hn => ?_, by simp [Collected.push, OperandOf.number]⟩
    obtain rfl := OperandOf.ref.inj (mem_singleton.1 hn)
    exact h
  frame := fun _ _ => rfl
  consts := fun k hk hk' => absurd hk (not_le.2 hk')
  nodup := id

theorem collects_pushConst {t : Tensor V} (ht : t.shape = []) (c : Collected V) :
    Collects ssaMap refs c (c.pushConst t) where
  counter := Nat.le_succ _
  operands := by
    refine ⟨[.const c.nameCounter], rfl, by simp, ?_⟩
    simp [Collected.pushConst, OperandOf.number]
  frame := fun w hw => lookup_setKey_ne (hw c.nameCounter (le_refl _) (Nat.lt_succ_self _))
  consts := by
    intro k hk hk'
    obtain rfl : k = c.nameCounter := le_antisymm (Nat.le_of_lt_succ hk') hk
    exact ⟨t, lookup_setKey_self, ht⟩
  nodup := nodup_keys_setKey

theorem collects_keyword (halOp : String) (i : Nat) (a : Arg) (c : Collected V) :
    Collects ssaMap refs c (c.keyword halOp i a) := by
  rw [Collected.keyword]
  split
  · exact (Collects.refl c).keywords _
  · exact .refl c

theorem collects_item (torch : Torch V) (halOp : String) (i : Nat) (c : Collected V) (a : Item) :
    Collects ssaMap (itemRefs a) c (collectItem torch ssaMap halOp i c a) := by
  cases a with
  | node => exact collects_push mem_cons_self c
  | bool =>
    rw [collectItem]
    split
    · exact collects_keyword halOp i _ c
    · exact .refl c
  | int =>
    rw [collectItem]
    split
    · exact collects_keyword halOp i _ c
    · exact collects_pushConst rfl c
  | float =>
    rw [collectItem]
    split
    · exact collects_keyword halOp i _ c
    · exact collects_pushConst rfl c
  | sym =>
    rw [collectItem]
    split
    · exact collects_keyword halOp i _ c
    · exact collects_pushConst rfl c
  | str =>
    rw [collectItem]
    split
    · exact (Collects.refl c).keywords _
    · exact collects_pushConst rfl c
  | dtype => exact collects_keyword halOp i _ c
  | none => exact .refl c

theorem collects_foldl {α σ : Type} (proj : σ → Collected V) (toRefs : α → List String)
    {f : σ → α → σ} (h : ∀ s a, Collects ssaMap (toRefs a) (proj s) (proj (f s a)))
    (items : List α) (s : σ) :
    Collects ssaMap (items.flatMap toRefs) (proj s) (proj (items.foldl f s)) := by
  induction items generalizing s with
  | nil => exact .refl _
  | cons a items ih =>
    rw [foldl_cons, flatMap_cons]
    exact ((h s a).mono fun _ => mem_append_left _).trans
      ((ih (f s a)).mono fun _ => mem_append_right _)

theorem collects_shared (ssaMap : List (String × String)) (s : Collected V × List Item) (a : Item) :
    Collects ssaMap (itemRefs a) s.1 (collectShared ssaMap s a).1 := by
  cases a with
  | node => exact collects_push mem_cons_self s.1
  | _ => exact .refl s.1

theorem collects_listed (torch : Torch V) (halOp : String) (s : Collected V × List Item × Nat)
    (a : Item) : Collects ssaMap (itemRefs a) s.1 (collectListed torch ssaMap halOp s a).1 := by
  obtain ⟨c, resolved, dynPos⟩ := s
  cases a with
  | node name =>
    have hpush : Collects ssaMap [name] c (c.push (ssaName ssaMap name)) :=
      collects_push mem_cons_self c
    simp only [collectListed]
    split
    · exact hpush
    · split
      · exact hpush
      · exact hpush
  | _ =>
    simp only [collectListed]
    split <;> exact .refl c

theorem collects_list (torch : Torch V) (halOp : String) (i : Nat) (c : Collected V)
    (items : List Item) :
    Collects ssaMap (items.flatMap itemRefs) c (collectList torch ssaMap halOp i c items) := by
  rw [collectList]
  split
  · exact .refl c
  · have hfold := collects_foldl Prod.fst itemRefs (collects_shared ssaMap) items (c, [])
    simp only
    split
    · exact hfold
    · exact hfold.keywords _
  · split
    · exact collects_keyword halOp i _ c
    · split
      · exact .refl c
      · exact (collects_foldl Prod.fst itemRefs (collects_listed torch halOp) items
          (c, [], 0)).keywords _

/-- An argument at its position. -/
def collectEntry (torch : Torch V) (ssaMap : List (String × String)) (halOp : String)
    (c : Collected V) (e : Arg × Nat) : Collected V :=
  match e.1 with
  | .item a => collectItem torch ssaMap halOp e.2 c a
  | .list items => collectList torch ssaMap halOp e.2 c items

theorem collects_entries (torch : Torch V) (halOp : String) (entries : List (Arg × Nat))
    (c : Collected V) :
    Collects ssaMap (entries.flatMap fun e => argRefs e.1) c
      (entries.foldl (collectEntry torch ssaMap halOp) c) := by
  refine collects_foldl id (fun e : Arg × Nat => argRefs e.1) ?_ entries c
  rintro c ⟨arg, i⟩
  cases arg with
  | item a => exact collects_item torch halOp i c a
  | list items => exact collects_list torch halOp i c items

theorem collects_inputArgs (torch : Torch V) (halOp : String) (args : List Arg) (c : Collected V) :
    Collects ssaMap (nodeRefs args) c (collectInputArgs torch ssaMap halOp args c) := by
  have hentries : Collects ssaMap _ c _ := collects_entries torch halOp args.zipIdx c
  rw [← flatMap_map Prod.fst argRefs, zipIdx_map_fst] at hentries
  exact hentries

theorem collects_arangeStart
    (h : arangeStart torch start c = .ok c') : Collects ssaMap [] c c' := by
  cases start with
  | node => cases h
  | str => cases h
  | dtype => cases h
  | float => exact Except.ok.inj h ▸ collects_pushConst rfl c
  | none => exact Except.ok.inj h ▸ collects_pushConst rfl c
  | sym => exact Except.ok.inj h ▸ collects_pushConst rfl c
  | int => exact Except.ok.inj h ▸ collects_pushConst rfl c
  | bool => exact Except.ok.inj h ▸ collects_pushConst rfl c

theorem collects_arangeStop {stop : Item} (h : arangeStop torch ssaMap start stop c = .ok c') :
    Collects ssaMap (itemRefs stop) c c' := by
  unfold arangeStop at h
  split at h
  · split at h
    · exact Except.ok.inj h ▸ collects_push mem_cons_self c
    · cases h
  · cases h
  · cases h
  · split at h
    · exact Except.ok.inj h ▸ collects_pushConst rfl c
    · cases h

theorem arangeBounds_mem (h : args ≠ []) : (arangeBounds args).2 ∈ args := by
  match args with
  | [stop] => exact mem_cons_self
  | start :: stop :: rest => exact mem_cons_of_mem _ mem_cons_self

theorem collects_arange (h : collectArangeArgs torch ssaMap args c = .ok c') :
    Collects ssaMap (nodeRefs args) c c' := by
  rw [collectArangeArgs] at h
  split at h
  · cases h
  · rename_i hargs
    have hmem := arangeBounds_mem hargs
    split at h
    · rename_i hstop
      split at h
      · obtain ⟨c₁, hstart, hrest⟩ := bind_eq_ok h
        rw [hstop] at hmem
        exact ((collects_arangeStart hstart).mono nofun).trans
          ((collects_arangeStop hrest).mono fun n hn => mem_flatMap.2 ⟨_, hmem, hn⟩)
      · cases h
    · cases h
    · cases h

theorem collectArgs_spec (h : collectArgs ctx st node halOp = .ok c) :
    Collects st.ssaMap (nodeRefs node.args) ⟨[], st.nameCounter, st.weights, []⟩ c := by
  rw [collectArgs] at h
  split at h
  · exact collects_arange h
  · exact Except.ok.inj h ▸ collects_inputArgs ctx.torch halOp node.args _

end Collects

/-! ## Whole conversions -/

/-- The guard holds at every node of the conversion. -/
def EveryStep (ctx : Context V) (P : State V → Node → Prop) : Prop :=
  ∀ k node st, ctx.program.nodes[k]? = some node →
    convertNodes ctx (initialState ctx.program) (ctx.program.nodes.take k) = .ok st → P st node

theorem convertNodes_concat {done : List Node} {st₀ : State V} :
    convertNodes ctx st₀ (done ++ [node]) = .ok st' ↔
      ∃ st, convertNodes ctx st₀ done = .ok st ∧ convertNode ctx st node = .ok st' := by
  rw [convertNodes, foldlM_append]
  constructor
  · intro h
    obtain ⟨st, hst, h⟩ := bind_eq_ok h
    obtain ⟨s, hs, h⟩ := bind_eq_ok h
    exact ⟨st, hst, hs.trans h⟩
  · rintro ⟨st, hst, hnode⟩
    show (convertNodes ctx st₀ done >>= fun s => convertNode ctx s node >>= pure) = _
    rw [hst]
    exact (bind_pure _).trans hnode

theorem convertNodes_invariant {P : State V → Node → Prop} {I : List Node → State V → Prop}
    (hevery : EveryStep ctx P) (h0 : I [] (initialState ctx.program))
    (hstep : ∀ done node rest st st', ctx.program.nodes = done ++ node :: rest → I done st →
      P st node → Converts ctx st node st' → I (done ++ [node]) st')
    {done rest : List Node} (hsplit : ctx.program.nodes = done ++ rest)
    (h : convertNodes ctx (initialState ctx.program) done = .ok st) : I done st := by
  induction done using reverseRecOn generalizing rest st with
  | nil => exact Except.ok.inj h ▸ h0
  | append_singleton done node ih =>
    obtain ⟨s, hs, hnode⟩ := convertNodes_concat.1 h
    rw [append_assoc] at hsplit
    have hk : ctx.program.nodes[done.length]? = some node := by
      rw [hsplit, getElem?_append_right (le_refl _), Nat.sub_self]
      rfl
    have htake : ctx.program.nodes.take done.length = done := by
      rw [hsplit, take_left]
    exact hstep done node rest s st hsplit (ih hsplit hs)
      (hevery done.length node s hk (htake.symm ▸ hs)) (converts_of_ok hnode)

end CompileForge.Compiler.Fx
