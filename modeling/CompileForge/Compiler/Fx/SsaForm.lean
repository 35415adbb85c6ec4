/-
  The op list of the converter in single assignment form.  The converter makes up names for
  results and does not check that they are new: every `le` is `%causal_mask`, a dim of a value
  is named after the value and the dim, and nothing keeps these apart from the names a program
  brings along.
-/

import CompileForge.Compiler.Fx.Naming

namespace CompileForge.Compiler.Fx

open Lib Lib.StraightLine List

variable {V : Type} {ctx : Context V} {st st' : State V} {node : Node} {done : List Node}

/-- Every name is defined once, and every operand is an input, a weight or an earlier result. -/
structure InSsaForm (inputs : List (String × String)) (ops : List MlirOp) : Prop where
  distinct : (inputKeys inputs ++ defined (program ops)).Nodup
  inScope : Scoped (· ∈ inputKeys inputs) (program ops)

section Producers

variable {inputs : List (String × String)} {ops : List MlirOp}

theorem InSsaForm.nodup (h : InSsaForm inputs ops) : (blockResults ops).Nodup := by
  rw [← defined_program]
  exact (nodup_append.1 h.distinct).2.1

theorem InSsaForm.producerIndices (h : InSsaForm inputs ops) {name : String} {idx : Nat} :
    producerIndices ops name = some idx ↔
      ∃ op, ops[idx]? = some op ∧ name ∈ op.results.map ssaKey := by
  have hkeys : ((ops.zipIdx.flatMap fun e => e.1.results.map fun r => (ssaKey r, e.2)).map
      Prod.fst) = blockResults ops := by
    rw [map_flatMap]
    have hfst : (fun e : MlirOp × Nat => (e.1.results.map fun r => (ssaKey r, e.2)).map Prod.fst) =
        fun e => e.1.results.map ssaKey := by
      funext e
      rw [map_map]
      rfl
    rw [hfst, ← flatMap_map Prod.fst fun op : MlirOp => op.results.map ssaKey, zipIdx_map_fst]
    rfl
  rw [Compiler.producerIndices, dictGet_eq_some (by rw [hkeys]; exact h.nodup)]
  constructor
  · intro hmem
    obtain ⟨⟨op, i⟩, hop, hmem⟩ := mem_flatMap.1 hmem
    obtain ⟨r, hr, heq⟩ := mem_map.1 hmem
    cases heq
    exact ⟨op, mem_zipIdx_iff_getElem?.mp hop, mem_map_of_mem hr⟩
  · rintro ⟨op, hop, hname⟩
    obtain ⟨r, hr, rfl⟩ := mem_map.1 hname
    exact mem_flatMap.2 ⟨(op, idx), mem_zipIdx_iff_getElem?.mpr hop, mem_map_of_mem hr⟩

end Producers

/-! ## The condition -/

/-- The names a graph comes with: distinct identifiers, as PyTorch gives them. -/
structure Identified (program : ExportedProgram V) : Prop where
  nodes : (program.nodes.map Node.name).Nodup
  nonempty : ∀ node ∈ program.nodes, node.name ≠ ""
  keys : ∀ node ∈ program.nodes, ssaKey node.name = node.name
  outside : ∀ name ∈ outsideNames program, ssaKey name = name

variable (st ctx node)

def Mapped (name : String) : Prop :=
  ∃ key, st.ssaMap.lookup name = some ("%" ++ key)

/-- What a node must respect for its names to be new and its operands to be there. -/
structure NameGuard : Prop where
  /-- The nodes among the arguments have SSA names. -/
  args : ∀ halOp, Calls node halOp → ∀ name ∈ nodeRefs node.args, Mapped st name
  /-- A placeholder is an input, or stands for a tensor of the program. -/
  placeholder : node.op = .placeholder →
    (weightNameMap ctx.program.inputSpecs node.name).getD node.name ∈
      ctx.program.userInputs ++ (initialWeights ctx.program).map Prod.fst
  getAttr : ∀ target, node.op = .getAttr target →
    cleanName target ∈ (initialWeights ctx.program).map Prod.fst
  /-- A comparison `le` is the first. -/
  le : Calls node "le" → ∀ op ∈ st.mlirOps, op.opName ≠ "le"
  /-- A dim is taken of a value once. -/
  size : Calls node "sym_size" → ∃ source dim,
    node.args = [.item (.node source), .item (.int dim)] ∧
      ∀ op ∈ st.mlirOps, op.opName = "sym_size" →
        op.operands.head? = some (ssaName st.ssaMap source) →
        op.attributes.lookup "dim" ≠ some (.scalar (.int dim))
  /-- The end of an `arange` is not named like a dim or a piece. -/
  arange : Calls node "arange" → ∀ key, firstArgKey st.ssaMap node.args = some key →
    MadeUp.endKind ("arange_" ++ arangeText key).toList = none
  /-- No name that is made up is brought along by the program. -/
  apart : ∀ t, Makes st node t → t.render ∉ outsideNames ctx.program

/-! ## The invariant -/

/-- A made-up name that may be in use. -/
def Seen (done : List Node) (st : State V) : MadeUp → Prop
  | .causalMask => ∃ op ∈ st.mlirOps, op.opName = "le"
  | .size key dim => ∃ op ∈ st.mlirOps, op.opName = "sym_size" ∧
      op.operands.head? = some ("%" ++ key) ∧
      op.attributes.lookup "dim" = some (.scalar (.int dim))
  | .counted _ k => k < st.nameCounter
  | .arange _ k => k < st.nameCounter
  | .piece name _ _ => name ∈ done.map Node.name

/-- Where the names of the op list come from. -/
def Accounted (done : List Node) (st : State V) : NameTag → Prop
  | .own name => name ∈ (done.filter namesItself).map Node.name
  | .made t => t.Admissible ∧ t.HasKeys ∧ t.render ∉ outsideNames ctx.program ∧
      (∀ k, t ≠ .counted "_const" k) ∧ Seen done st t

/-- An input, a weight or a result. -/
def Known (key : String) : Prop :=
  (key ∈ ctx.program.userInputs ∨ key ∈ st.weights.map Prod.fst) ∨ key ∈ blockResults st.mlirOps

/-- The weights are those of the program and numbered constants. -/
structure WeightKeys : Prop where
  nodup : (st.weights.map Prod.fst).Nodup
  keys : ∀ w ∈ st.weights.map Prod.fst, w ∈ (initialWeights ctx.program).map Prod.fst ∨
    ∃ k < st.nameCounter, w = constName k ∧ w ∉ outsideNames ctx.program
  initial : ∀ w ∈ (initialWeights ctx.program).map Prod.fst, w ∈ st.weights.map Prod.fst

def NamesKnown (name : String) : Prop :=
  ∀ key, name = "%" ++ key → ssaKey key = key ∧ Known ctx st key

/-- What holds of the converter behind each node, as long as the nodes respect `NameGuard`. -/
structure SsaInv (done : List Node) (st : State V) : Prop where
  names : ∃ tags : List NameTag, blockResults st.mlirOps = tags.map NameTag.render ∧
    tags.Nodup ∧ ∀ t ∈ tags, Accounted ctx done st t
  weights : WeightKeys ctx st
  mapped : ∀ n v, st.ssaMap.lookup n = some v → NamesKnown ctx st v
  tuples : ∀ n outs, st.tupleOutputs.lookup n = some outs → ∀ o ∈ outs, NamesKnown ctx st o
  inScope : Scoped (fun n => n ∈ ctx.program.userInputs ∨ n ∈ st.weights.map Prod.fst)
    (program st.mlirOps)

variable {st ctx node} {key name source w : String} {rest : List Node} {sl : Slicing}

theorem Known.mono (h : Known ctx st key)
    (hweights : ∀ w ∈ st.weights.map Prod.fst, w ∈ st'.weights.map Prod.fst)
    (hops : ∃ new, st'.mlirOps = st.mlirOps ++ new) : Known ctx st' key := by
  obtain ⟨new, hops⟩ := hops
  rcases h with (h | h) | h
  · exact .inl (.inl h)
  · exact .inl (.inr (hweights key h))
  · rw [Known, hops, blockResults, flatMap_append]
    exact .inr (mem_append_left _ h)

theorem Accounted.mono {tag : NameTag} (h : Accounted ctx done st tag) (node : Node)
    (hcounter : st.nameCounter ≤ st'.nameCounter)
    (hops : ∃ new, st'.mlirOps = st.mlirOps ++ new) : Accounted ctx (done ++ [node]) st' tag := by
  obtain ⟨new, hops⟩ := hops
  cases tag with
  | own =>
    rw [Accounted, filter_append, map_append]
    exact mem_append_left _ h
  | made t =>
    obtain ⟨hadm, hkeys, hout, hconst, hseen⟩ := h
    refine ⟨hadm, hkeys, hout, hconst, ?_⟩
    cases t with
    | causalMask =>
      obtain ⟨op, hop, hname⟩ := hseen
      exact ⟨op, hops ▸ mem_append_left _ hop, hname⟩
    | size =>
      obtain ⟨op, hop, hname⟩ := hseen
      exact ⟨op, hops ▸ mem_append_left _ hop, hname⟩
    | counted => exact lt_of_lt_of_le hseen hcounter
    | arange => exact lt_of_lt_of_le hseen hcounter
    | piece =>
      rw [Seen, map_append]
      exact mem_append_left _ hseen

/-- What a node adds: ops whose results have new names, and no more. -/
structure Extends (ctx : Context V) (done : List Node) (node : Node) (st st' : State V) : Prop where
  ops : ∃ (new : List MlirOp) (tags : List NameTag), st'.mlirOps = st.mlirOps ++ new ∧
    blockResults new = tags.map NameTag.render ∧ tags.Nodup ∧
    (∀ t ∈ tags, ¬ Accounted ctx done st t ∧ Accounted ctx (done ++ [node]) st' t) ∧
    Scoped (fun n => (n ∈ ctx.program.userInputs ∨ n ∈ st'.weights.map Prod.fst) ∨
      n ∈ blockResults st.mlirOps) (program new)
  counter : st.nameCounter ≤ st'.nameCounter
  weights : WeightKeys ctx st'
  grows : ∀ w ∈ st.weights.map Prod.fst, w ∈ st'.weights.map Prod.fst
  mapped : ∀ n v, st'.ssaMap.lookup n = some v → st.ssaMap.lookup n = some v ∨ NamesKnown ctx st' v
  tuples : ∀ n outs, st'.tupleOutputs.lookup n = some outs →
    st.tupleOutputs.lookup n = some outs ∨ ∀ o ∈ outs, NamesKnown ctx st' o

theorem SsaInv.extend (h : SsaInv ctx done st) (e : Extends ctx done node st st') :
    SsaInv ctx (done ++ [node]) st' := by
  obtain ⟨new, tags, hops, hresults, hnodup, htags, hscope⟩ := e.ops
  have hknown : ∀ {v}, NamesKnown ctx st v → NamesKnown ctx st' v := fun hv key hkey =>
    ⟨(hv key hkey).1, (hv key hkey).2.mono e.grows ⟨new, hops⟩⟩
  refine ⟨?_, e.weights, fun n v hv => ?_, fun n outs houts o ho => ?_, ?_⟩
  · obtain ⟨old, hold, holdNodup, hacc⟩ := h.names
    refine ⟨old ++ tags, ?_, ?_, fun t ht => ?_⟩
    · rw [hops, blockResults, flatMap_append, map_append, ← hold, ← hresults]
      rfl
    · refine nodup_append.2 ⟨holdNodup, hnodup, fun a ha b hb hab => ?_⟩
      exact (htags b hb).1 (hab ▸ hacc a ha)
    · rcases mem_append.1 ht with ht | ht
      · exact (hacc t ht).mono node e.counter ⟨new, hops⟩
      · exact (htags t ht).2
  · exact (e.mapped n v hv).elim (fun hv => hknown (h.mapped n v hv)) id
  · exact (e.tuples n outs houts).elim (fun houts => hknown (h.tuples n outs houts o ho))
      fun hall => hall o ho
  · rw [hops, program, map_append]
    refine scoped_append.2 ⟨?_, ?_⟩
    · exact h.inScope.mono fun _ _ a _ ha => ha.imp id (e.grows a)
    · have hdefined : defined (st.mlirOps.map MlirOp.instr) = blockResults st.mlirOps :=
        defined_program st.mlirOps
      rw [hdefined]
      exact hscope

theorem extends_quiet (h : SsaInv ctx done st) (hops : st'.mlirOps = st.mlirOps)
    (hcounter : st'.nameCounter = st.nameCounter) (hweights : st'.weights = st.weights)
    (htuples : st'.tupleOutputs = st.tupleOutputs) (hmapped : ∀ n v, st'.ssaMap.lookup n = some v →
      st.ssaMap.lookup n = some v ∨ NamesKnown ctx st v) : Extends ctx done node st st' where
  ops := ⟨[], [], by rw [hops, List.append_nil], rfl, nodup_nil,
    nofun, trivial⟩
  counter := hcounter.ge
  weights := by
    obtain ⟨hnodup, hkeys, hinitial⟩ := h.weights
    exact ⟨hweights ▸ hnodup, hweights ▸ hcounter ▸ hkeys, hweights ▸ hinitial⟩
  grows := fun w hw => hweights ▸ hw
  mapped := by
    intro n v hv
    refine (hmapped n v hv).imp id fun hknown key hkey => ⟨(hknown key hkey).1, ?_⟩
    exact (hknown key hkey).2.mono (fun w hw => hweights ▸ hw) ⟨[], by rw [hops, append_nil]⟩
  tuples := fun n outs houts => .inl (htuples ▸ houts)

/-! ## The nodes -/

theorem ne_percent (h : ssaKey name = name) : name ≠ "%" ++ key := by
  rintro rfl
  rw [ssaKey_eq_self_iff, String.toList_append] at h
  exact h rfl

theorem namesKnown_percent (hkey : ssaKey key = key) (hknown : Known ctx st key) :
    NamesKnown ctx st ("%" ++ key) := by
  intro k hk
  obtain rfl := MadeUp.append_left_injective hk
  exact ⟨hkey, hknown⟩

theorem namesKnown_bare (h : ssaKey name = name) : NamesKnown ctx st name :=
  fun _ hkey => absurd hkey (ne_percent h)

theorem mapped_setKey {v' : String} (h : NamesKnown ctx st' v') (n v : String)
    (hv : (setKey st.ssaMap name v').lookup n = some v) :
    st.ssaMap.lookup n = some v ∨ NamesKnown ctx st' v := by
  rcases lookup_setKey_cases hv with hv | ⟨-, rfl⟩
  · exact .inl hv
  · exact .inr h

theorem SsaInv.namesKnown_outside (h : SsaInv ctx done st) (hid : Identified ctx.program)
    (hname : name ∈ ctx.program.userInputs ++ (initialWeights ctx.program).map Prod.fst) :
    NamesKnown ctx st ("%" ++ name) := by
  have hout : name ∈ outsideNames ctx.program := mem_append_left _ hname
  refine namesKnown_percent (hid.outside name hout) ?_
  exact .inl ((mem_append.1 hname).imp id (h.weights.initial name))

theorem tupleElement_mem {ssa : String} {idx : Arg} (h : tupleElement st source idx = some ssa) :
    ∃ outs, st.tupleOutputs.lookup source = some outs ∧ ssa ∈ outs := by
  unfold tupleElement at h
  split at h
  · rename_i outs i houts
    split at h
    · exact ⟨outs, houts, mem_of_getElem? h⟩
    · cases h
  · rename_i outs b houts
    exact ⟨outs, houts, mem_of_getElem? h⟩
  · cases h

structure At (ctx : Context V) (done : List Node) (node : Node) : Prop where
  new : node.name ∉ done.map Node.name
  nonempty : node.name ≠ ""
  key : ssaKey node.name = node.name
  outside : namesItself node = true → node.name ∈ outsideNames ctx.program

theorem at_of_split (hid : Identified ctx.program)
    (hsplit : ctx.program.nodes = done ++ node :: rest) : At ctx done node := by
  have hmem : node ∈ ctx.program.nodes := hsplit ▸ mem_append_right _ mem_cons_self
  refine ⟨fun hdone => ?_, hid.nonempty node hmem, hid.keys node hmem, fun hself => ?_⟩
  · have hnodup := hid.nodes
    rw [hsplit, map_append, nodup_append] at hnodup
    exact hnodup.2.2 _ hdone _ mem_cons_self rfl
  · exact mem_append_right _ (mem_map_of_mem (mem_filter.2 ⟨hmem, hself⟩))

theorem At.not_accounted_own (hat : At ctx done node) :
    ¬ Accounted ctx done st (.own node.name) := by
  intro h
  obtain ⟨n, hn, hname⟩ := mem_map.1 h
  exact hat.new (hname ▸ mem_map_of_mem (mem_of_mem_filter hn))

theorem accounted_own (hself : namesItself node = true) :
    Accounted ctx (done ++ [node]) st (.own node.name) := by
  rw [Accounted, filter_append, map_append]
  refine mem_append_right _ (mem_map_of_mem ?_)
  exact mem_filter.2 ⟨mem_singleton.2 rfl, hself⟩

theorem SsaInv.known_ref (h : SsaInv ctx done st) (hmapped : Mapped st name) :
    Known ctx st (ssaKey (ssaName st.ssaMap name)) := by
  obtain ⟨key, hkey⟩ := hmapped
  obtain ⟨hself, hknown⟩ := h.mapped name _ hkey key rfl
  rw [ssaName, hkey, Option.getD_some, ssaKey_percent hself]
  exact hknown

theorem SsaInv.sized (h : SsaInv ctx done st) (hat : At ctx done node)
    (hguard : NameGuard ctx st node) {rest : List Arg}
    (hcall : Calls node "getitem") (hargs : node.args = .item (.node source) :: rest) :
    Extends ctx done node st { st with
        ssaMap := setKey st.ssaMap node.name (sizeName st node)
        mlirOps := st.mlirOps ++ [sizeOp st node source rest] } := by
  have hname : sizeName st node = "%" ++ node.name := if_pos hat.nonempty
  have hresult : blockResults [sizeOp st node source rest] = [node.name] := by
    have hkey : ssaKey (sizeName st node) = node.name := by rw [hname, ssaKey_percent hat.key]
    rw [← hkey]
    rfl
  have hsource : Mapped st source := by
    refine hguard.args "getitem" hcall source ?_
    rw [hargs]
    exact mem_append_left _ (mem_singleton.2 rfl)
  refine ⟨⟨_, [.own node.name], rfl, hresult, nodup_singleton _, ?_, ?_⟩, le_refl _,
    ⟨h.weights.nodup, h.weights.keys, h.weights.initial⟩, fun _ hw => hw, ?_, fun _ _ ho => .inl ho⟩
  · intro t ht
    rw [mem_singleton.1 ht]
    exact ⟨hat.not_accounted_own,
      accounted_own (namesItself_of_calls hcall (by decide) (by decide))⟩
  · refine ⟨fun a ha => ?_, trivial⟩
    rw [mem_singleton.1 ha]
    exact h.known_ref hsource
  · refine mapped_setKey (hname ▸ namesKnown_percent hat.key (.inr ?_))
    rw [blockResults, flatMap_append]
    refine mem_append_right _ ?_
    show node.name ∈ blockResults [sizeOp st node source rest]
    rw [hresult]
    exact mem_cons_self

theorem pieceName_eq (sl : Slicing) (i : Nat) :
    sl.pieceName i = "%" ++ (MadeUp.piece sl.node.name sl.kind i).render := by
  rw [Slicing.pieceName, MadeUp.render]
  simp only [String.append_assoc]

def pieceTags (node : Node) (kind : String) (n : Nat) : List NameTag :=
  (range' 0 n).map fun i => .made (.piece node.name kind i)

theorem blockResults_pieces (hkind : sl.kind ∈ ["split", "chunk"])
    (hkey : ssaKey sl.node.name = sl.node.name) (pieces : List Piece) :
    blockResults (pieces.zipIdx.map fun e => sl.pieceOp e.2 e.1) =
      (pieceTags sl.node sl.kind pieces.length).map NameTag.render := by
  have hop : ∀ e : Piece × Nat, (sl.pieceOp e.2 e.1).results.map ssaKey =
      [(MadeUp.piece sl.node.name sl.kind e.2).render] := by
    intro e
    have hself : ssaKey (MadeUp.piece sl.node.name sl.kind e.2).render = _ :=
      MadeUp.ssaKey_render hkind hkey
    rw [← ssaKey_percent hself, ← pieceName_eq]
    rfl
  rw [blockResults, flatMap_map, pieceTags, map_map, ← zipIdx_map_snd 0 pieces,
    map_map, map_eq_flatMap]
  exact flatMap_congr fun e _ => hop e

theorem SsaInv.sliced (h : SsaInv ctx done st) (hat : At ctx done node)
    (hguard : NameGuard ctx st node) {pieces : List Piece} {tensor : String}
    {rest : List Arg} (hcall : Calls node sl.kind) (hkind : sl.kind ∈ ["split", "chunk"])
    (hnode : sl.node = node) (hargs : node.args = .item (.node tensor) :: rest)
    (htensor : sl.tensorSsa = ssaName st.ssaMap tensor) :
    Extends ctx done node st (st.emitPieces sl pieces) := by
  subst hnode
  have hmapped : Mapped st tensor := by
    refine hguard.args sl.kind hcall tensor ?_
    rw [hargs]
    exact mem_append_left _ (mem_singleton.2 rfl)
  have hresults := blockResults_pieces hkind hat.key pieces
  have hpiece : ∀ i < pieces.length, NamesKnown ctx (st.emitPieces sl pieces) (sl.pieceName i) := by
    intro i hi
    rw [pieceName_eq]
    refine namesKnown_percent (MadeUp.ssaKey_render hkind hat.key) (.inr ?_)
    rw [State.emitPieces, blockResults, flatMap_append]
    refine mem_append_right _ ?_
    show _ ∈ blockResults _
    rw [hresults, pieceTags, map_map]
    exact mem_map_of_mem (mem_range'_1.2 ⟨Nat.zero_le i, by omega⟩)
  have houtputs : ∀ o ∈ pieces.zipIdx.map fun (e : Piece × Nat) => sl.pieceName e.2,
      NamesKnown ctx (st.emitPieces sl pieces) o := by
    intro o ho
    obtain ⟨⟨p, i⟩, he, rfl⟩ := mem_map.1 ho
    exact hpiece i (List.getElem?_eq_some_iff.1 (List.mem_zipIdx_iff_getElem?.mp he)).1
  refine ⟨⟨_, pieceTags sl.node sl.kind pieces.length, rfl, hresults, ?_, ?_, ?_⟩, le_refl _,
    ⟨h.weights.nodup, h.weights.keys, h.weights.initial⟩, fun _ hw => hw, ?_, ?_⟩
  · refine List.Nodup.map (fun i j hij => ?_) nodup_range'
    injection hij with hij
    injection hij
  · intro t ht
    obtain ⟨i, -, rfl⟩ := mem_map.1 ht
    refine ⟨fun hacc => hat.new hacc.2.2.2.2, hkind, hat.key, hguard.apart _ (.piece hcall hkind),
      (fun k hk => by cases hk), ?_⟩
    rw [Seen, map_append]
    exact mem_append_right _ mem_cons_self
  · refine scoped_of_forall fun i hi a ha => ?_
    obtain ⟨op, hop, rfl⟩ := mem_map.1 hi
    obtain ⟨e, -, rfl⟩ := mem_map.1 hop
    rw [mem_singleton.1 ha, htensor]
    exact h.known_ref hmapped
  · refine mapped_setKey ?_
    cases hhead : (pieces.zipIdx.map fun (e : Piece × Nat) => sl.pieceName e.2).head? with
    | some o => exact houtputs o (mem_of_head? hhead)
    | none =>
      rw [Option.getD_none, ssaName]
      cases hlookup : st.ssaMap.lookup sl.node.name with
      | none => exact namesKnown_bare hat.key
      | some v =>
        intro key hkey
        obtain ⟨hself, hknown⟩ := h.mapped _ v hlookup key hkey
        exact ⟨hself, hknown.mono (fun _ hw => hw) ⟨_, rfl⟩⟩
  · intro n outs houts
    rcases lookup_setKey_cases houts with houts | ⟨-, rfl⟩
    · exact .inl houts
    · exact .inr houtputs

section Op

variable {halOp : String} {c : Collected V} {k : Nat} {t : MadeUp} {tag : NameTag}

theorem makes_of_resultTag (h : ResultTag st node halOp k (.made t)) (hcall : Calls node halOp)
    (hk : st.nameCounter ≤ k) : Makes st node t := by
  cases h with
  | causalMask hop => exact .causalMask (hop ▸ hcall)
  | size hop hargs => exact .size (hop ▸ hcall) hargs
  | numbered hbase => exact .numbered hcall hbase hk
  | arange hop hkey => exact .arange (hop ▸ hcall) hkey hk
  | arangeNumbered hop hkey => exact .arangeNumbered (hop ▸ hcall) hkey hk

theorem resultTag_wellFormed (h : ResultTag st node halOp k (.made t)) (hcall : Calls node halOp)
    (hguard : NameGuard ctx st node) :
    t.Admissible ∧ t.HasKeys ∧ ∀ j, t ≠ .counted "_const" j := by
  have hbases : ∀ e ∈ numberedOps, e.2 ∈ countedBases ∧ e.2 ≠ "_const" := by decide
  cases h with
  | causalMask hop => exact ⟨trivial, trivial, fun j hj => by cases hj⟩
  | size hop hargs => exact ⟨trivial, ssaKey_ssaKey _, fun j hj => by cases hj⟩
  | numbered hbase =>
    refine ⟨(hbases _ hbase).1, trivial, fun j hj => (hbases _ hbase).2 ?_⟩
    injection hj
  | arange hop hkey =>
    exact ⟨hguard.arange (hop ▸ hcall) _ hkey, trivial, fun j hj => by cases hj⟩
  | arangeNumbered hop hkey =>
    refine ⟨?_, trivial, fun j hj => by cases hj⟩
    rw [MadeUp.Admissible, String.toList_append, Nat.toList_repr]
    exact MadeUp.endKind_digits _ _

theorem SsaInv.percent_ssaKey (h : SsaInv ctx done st) {name : String} (hmapped : Mapped st name) :
    "%" ++ ssaKey (ssaName st.ssaMap name) = ssaName st.ssaMap name := by
  obtain ⟨key, hkey⟩ := hmapped
  obtain ⟨hself, -⟩ := h.mapped name _ hkey key rfl
  rw [ssaName, hkey, Option.getD_some, ssaKey_percent hself]

variable {source : String} {r : ResolvedTypes V}

theorem mapped_first (hguard : NameGuard ctx st node) (hcall : Calls node halOp)
    {rest : List Arg} (hargs : node.args = .item (.node source) :: rest) :
    Mapped st source := by
  refine hguard.args halOp hcall source ?_
  rw [hargs]
  exact mem_append_left _ (mem_singleton.2 rfl)

/-- A name that the guard admits is new. -/
theorem SsaInv.fresh (h : SsaInv ctx done st) (hat : At ctx done node)
    (hguard : NameGuard ctx st node) (hcall : Calls node halOp)
    (htag : ResultTag st node halOp k tag) (hk : st.nameCounter ≤ k) :
    ¬ Accounted ctx done st tag := by
  cases htag with
  | own hscheme => exact hat.not_accounted_own
  | causalMask hop =>
    rintro ⟨-, -, -, -, op, hmem, hle⟩
    exact hguard.le (hop ▸ hcall) op hmem hle
  | size hop hargs =>
    rintro ⟨-, -, -, -, op, hmem, hname, hsource, hdim⟩
    obtain ⟨source', dim', hargs', hnone⟩ := hguard.size (hop ▸ hcall)
    rw [hargs] at hargs'
    cases hargs'
    rw [h.percent_ssaKey (mapped_first hguard hcall hargs)] at hsource
    exact hnone op hmem hname hsource hdim
  | numbered hbase => exact fun hacc => absurd hacc.2.2.2.2 (not_lt.2 hk)
  | arange hop hkey => exact fun hacc => absurd hacc.2.2.2.2 (not_lt.2 hk)
  | arangeNumbered hop hkey => exact fun hacc => absurd hacc.2.2.2.2 (not_lt.2 hk)

theorem lookup_attributesOf (kwargs : List (String × Arg)) (key : String) :
    (attributesOf kwargs).lookup key = (kwargs.lookup key).map Arg.toAttr := by
  induction kwargs with
  | nil => rfl
  | cons e kwargs ih =>
    rw [attributesOf, map_cons, lookup_cons, lookup_cons]
    split
    · rfl
    · exact ih

theorem nodeOp_size {dim : Int} (hargs : node.args = [.item (.node source), .item (.int dim)])
    (hc : collectArgs ctx st node "sym_size" = .ok c) :
    (nodeOp ctx st node "sym_size" c r c.inputNames).operands.head? =
        some (ssaName st.ssaMap source) ∧
      (nodeOp ctx st node "sym_size" c r c.inputNames).attributes.lookup "dim" =
        some (.scalar (.int dim)) := by
  obtain rfl := Except.ok.inj ((collectArgs_size hargs).symm.trans hc)
  refine ⟨rfl, ?_⟩
  have hnames : ∀ kwargs : List (String × Arg), dimNames node "sym_size" kwargs = kwargs := by
    intro kwargs
    rw [dimNames]
    split
    · exact if_neg fun h => absurd h.1 (by decide)
    · rfl
  rw [nodeOp, hnames, lookup_attributesOf, lookup_setKey_ne (by decide), opKwargs_size,
    lookup_setKey_self]
  rfl

theorem constName_eq (k : Nat) : constName k = (MadeUp.counted "_const" k).render := by
  have hliteral : "_const_" = "_const" ++ "_" := by decide
  rw [constName, hliteral, MadeUp.render]

theorem ssaKey_constName (k : Nat) : ssaKey (constName k) = constName k := by
  have hbase : "_const" ∈ countedBases := by decide
  rw [constName_eq]
  exact MadeUp.ssaKey_render hbase trivial

theorem SsaInv.known_operand (h : SsaInv ctx done st) (hguard : NameGuard ctx st node)
    (hcall : Calls node halOp)
    (hc : Collects st.ssaMap (nodeRefs node.args) ⟨[], st.nameCounter, st.weights, []⟩ c)
    {n : String} (hn : n ∈ c.inputNames) :
    (ssaKey n ∈ ctx.program.userInputs ∨ ssaKey n ∈ c.weights.map Prod.fst) ∨
      ssaKey n ∈ blockResults st.mlirOps := by
  obtain ⟨ops, hnames, hrefs, hnumbers⟩ := hc.operands
  rw [hnames, nil_append] at hn
  obtain ⟨o, ho, rfl⟩ := mem_map.1 hn
  cases o with
  | ref name =>
    have hknown := h.known_ref (hguard.args halOp hcall name (hrefs name ho))
    exact hknown.imp (fun hk => hk.imp id hc.keys_mono) id
  | const k =>
    have hk : k ∈ ops.filterMap OperandOf.number := mem_filterMap.2 ⟨_, ho, rfl⟩
    rw [hnumbers, mem_range'_1] at hk
    obtain ⟨t, ht, -⟩ := hc.consts k hk.1 (by omega)
    refine .inl (.inr ?_)
    rw [OperandOf.render, ssaKey_constName]
    exact isSome_lookup.1 (Option.isSome_of_eq_some ht)

theorem WeightKeys.collect (h : WeightKeys ctx st) (hguard : NameGuard ctx st node)
    (hcall : Calls node halOp) (hgeneric : halOp ∉ handledOps)
    (hc : Collects st.ssaMap (nodeRefs node.args) ⟨[], st.nameCounter, st.weights, []⟩ c)
    (hweights : st'.weights.map Prod.fst = c.weights.map Prod.fst)
    (hcounter : c.nameCounter ≤ st'.nameCounter) : WeightKeys ctx st' where
  nodup := hweights ▸ hc.nodup h.nodup
  keys := by
    intro w hw
    rw [hweights] at hw
    rcases hc.keys_new hw with hw | ⟨k, hk, hk', rfl⟩
    · rcases h.keys w hw with hw | ⟨k, hk, hwk, hout⟩
      · exact .inl hw
      · exact .inr ⟨k, lt_of_lt_of_le hk (hc.counter.trans hcounter), hwk, hout⟩
    · refine .inr ⟨k, lt_of_lt_of_le hk' hcounter, rfl, ?_⟩
      rw [constName_eq]
      exact hguard.apart _ (.const hcall hgeneric hk)
  initial := fun w hw => hweights ▸ hc.keys_mono (h.initial w hw)

def castTags (counter n : Nat) : List NameTag :=
  (range' counter n).map fun k => .made (.counted "promote" k)

theorem nodup_opTags {counter n : Nat} (htag : ResultTag st node halOp k tag) :
    (castTags counter n ++ [tag]).Nodup := by
  refine nodup_append.2 ⟨?_, nodup_singleton _, ?_⟩
  · refine List.Nodup.map (fun i j hij => ?_) nodup_range'
    injection hij with hij
    injection hij
  · intro a ha b hb hab
    have hbases : ∀ e ∈ numberedOps, e.2 ≠ "promote" := by decide
    obtain ⟨i, -, rfl⟩ := mem_map.1 ha
    obtain rfl := (mem_singleton.1 hb).symm.trans hab.symm
    cases htag with
    | numbered hbase => exact hbases _ hbase rfl

theorem promotions_eq_nil (e : Emitted ctx st node halOp c r st')
    (hop : halOp ∉ sameTypeOps) : r.promotions = [] := by
  obtain ⟨p, out, hres⟩ := resolves_of_ok e.resolve
  have hpromoted := hres.promoted
  rw [promote, if_neg hop] at hpromoted
  rw [hres.promotions, ← Except.ok.inj hpromoted]

theorem SsaInv.seen (h : SsaInv ctx done st)
    (e : Emitted ctx st node halOp c r st') (hc : collectArgs ctx st node halOp = .ok c)
    (hmapped : ∀ name ∈ nodeRefs node.args, Mapped st name)
    (htag : ResultTag st node halOp c.nameCounter (.made t))
    (hcounter : c.nameCounter < st'.nameCounter) : Seen (done ++ [node]) st' t := by
  have hop : nodeOp ctx st node halOp c r (castsOf node c r).2.1 ∈ st'.mlirOps := by
    rw [e.ops]
    exact mem_append_right _ (mem_append_right _ mem_cons_self)
  cases htag with
  | causalMask hle =>
    subst hle
    exact ⟨_, hop, rfl⟩
  | size hsize hargs =>
    rename_i source dim
    subst hsize
    have hnil : (castsOf node c r).2.1 = c.inputNames := by
      rw [castsOf, promotions_eq_nil e (by decide)]
      rfl
    have hsource : Mapped st source := by
      refine hmapped source ?_
      rw [hargs]
      exact mem_append_left _ (mem_singleton.2 rfl)
    rw [hnil] at hop
    obtain ⟨hoperand, hdim⟩ := nodeOp_size (r := r) hargs hc
    refine ⟨_, hop, rfl, ?_, hdim⟩
    rw [hoperand, h.percent_ssaKey hsource]
  | numbered hbase => exact hcounter
  | arange harange hkey => exact hcounter
  | arangeNumbered harange hkey => exact hcounter

theorem mem_args_nodeOp {names : List String} {a : String}
    (ha : a ∈ (nodeOp ctx st node halOp c r names).instr.args) : ∃ n ∈ names, a = ssaKey n := by
  rw [MlirOp.instr] at ha
  split at ha
  · cases ha
  · obtain ⟨n, hn, rfl⟩ := mem_map.1 ha
    refine ⟨n, ?_, rfl⟩
    rw [nodeOp, emitOperands] at hn
    split at hn
    · exact mem_of_mem_take hn
    · exact hn

/-- A node that becomes an op keeps the invariant. -/
theorem SsaInv.op (h : SsaInv ctx done st) (hat : At ctx done node)
    (hguard : NameGuard ctx st node) (hcall : Calls node halOp) (hgeneric : halOp ∉ handledOps)
    (hc : collectArgs ctx st node halOp = .ok c) (hemit : emitOp ctx st node halOp c = .ok st') :
    Extends ctx done node st st' := by
  obtain ⟨r, e⟩ := emitted_of_ok hemit
  obtain ⟨p, out, hres⟩ := resolves_of_ok e.resolve
  have hcollect := collectArgs_spec hc
  have hon := promote_onOperands hres.promoted
  rw [length_map] at hon
  have hcasts := casts_emitCasts node r.inputTypes r.promotions c.inputNames
    (c.nameCounter + 1) (hres.promotions ▸ hon.2)
  obtain ⟨tag, htag, hname⟩ := outputName_eq hat.nonempty hc fun hop =>
    (hguard.size (hop ▸ hcall)).imp fun source hs => hs.imp fun dim hd => hd.1
  have hstart : st.nameCounter ≤ c.nameCounter := hcollect.counter
  have hcounter : st'.nameCounter = c.nameCounter + 1 + r.promotions.length :=
    e.counter.trans hcasts.next
  have hkeys : st'.weights.map Prod.fst = c.weights.map Prod.fst := by
    rw [e.weights, hres.weights, hon.1]
  have hweights := h.weights.collect hguard hcall hgeneric hcollect hkeys (by omega)
  -- the name of the op is a key, and accounted for behind the node
  have hself : ssaKey tag.render = tag.render ∧ Accounted ctx (done ++ [node]) st' tag := by
    cases tag with
    | own =>
      obtain ⟨hscheme⟩ := htag
      refine ⟨hat.key, accounted_own (namesItself_of_calls hcall hscheme fun hmem => ?_)⟩
      have hhandled : ∀ op ∈ ["_skip_wrap", "split", "chunk"], op ∈ handledOps := by decide
      exact hgeneric (hhandled _ hmem)
    | made t =>
      obtain ⟨hadm, hhas, hconst⟩ := resultTag_wellFormed htag hcall hguard
      exact ⟨MadeUp.ssaKey_render hadm hhas, hadm, hhas,
        hguard.apart t (makes_of_resultTag htag hcall hstart), hconst,
        h.seen e hc (hguard.args halOp hcall) htag (by omega)⟩
  have hresult : ∀ names, blockResults [nodeOp ctx st node halOp c r names] = [tag.render] := by
    intro names
    show [ssaKey (outputName ctx st node halOp c)] = _
    rw [hname, ssaKey_percent hself.1]
  have hresults : blockResults ((castsOf node c r).1 ++
      [nodeOp ctx st node halOp c r (castsOf node c r).2.1]) =
      (castTags (c.nameCounter + 1) r.promotions.length ++ [tag]).map NameTag.render := by
    rw [blockResults, flatMap_append, map_append, castTags, map_map]
    exact congrArg₂ (· ++ ·) hcasts.results (hresult _)
  refine ⟨⟨_, _, e.ops, hresults, nodup_opTags htag, ?_, ?_⟩, by omega,
    hweights, fun w hw => ?_, ?_, ?_⟩
  · intro t ht
    rcases mem_append.1 ht with ht | ht
    · obtain ⟨k, hk, rfl⟩ := mem_map.1 ht
      rw [mem_range'_1] at hk
      have hsame : halOp ∈ sameTypeOps := by
        by_contra hop
        rw [promotions_eq_nil e hop, length_nil] at hk
        omega
      have hbase : "promote" ∈ countedBases := by decide
      refine ⟨fun hacc => ?_, hbase, trivial,
        hguard.apart _ (.promote hcall hsame (by omega)), (fun j hj => ?_), ?_⟩
      · have hold : k < st.nameCounter := hacc.2.2.2.2
        omega
      · injection hj with hj
        exact absurd hj (by decide)
      · show k < st'.nameCounter
        omega
    · rw [mem_singleton.1 ht]
      exact ⟨h.fresh hat hguard hcall htag hstart, hself.2⟩
  · have hscope : ∀ n ∈ c.inputNames, (ssaKey n ∈ ctx.program.userInputs ∨
        ssaKey n ∈ st'.weights.map Prod.fst) ∨ ssaKey n ∈ blockResults st.mlirOps := by
      intro n hn
      rw [hkeys]
      exact h.known_operand hguard hcall hcollect hn
    rw [program, map_append]
    refine scoped_append.2 ⟨hcasts.inScope _ hscope, scoped_of_forall fun i hi a ha => ?_⟩
    obtain rfl := mem_singleton.1 hi
    obtain ⟨n, hn, rfl⟩ := mem_args_nodeOp ha
    refine (hcasts.operands n hn).imp (hscope n) fun hn => ?_
    rw [← defined_program] at hn
    exact hn
  · rw [hkeys]
    exact hcollect.keys_mono hw
  · rw [e.ssaMap, hname]
    refine mapped_setKey (namesKnown_percent hself.1 (.inr ?_))
    rw [e.ops, blockResults, flatMap_append]
    refine mem_append_right _ ?_
    show _ ∈ blockResults _
    rw [hresults, map_append]
    exact mem_append_right _ mem_cons_self
  · exact fun n outs houts => .inl (e.tuples ▸ houts)

end Op

/-! ## Whole conversions -/

theorem SsaInv.converts (h : SsaInv ctx done st) (hid : Identified ctx.program)
    (hat : At ctx done node) (hguard : NameGuard ctx st node)
    (hconv : Converts ctx st node st') : Extends ctx done node st st' := by
  cases hconv with
  | placeholder hop hval =>
    exact extends_quiet h rfl rfl rfl rfl
      (mapped_setKey (h.namesKnown_outside hid (hguard.placeholder hop)))
  | getAttr hop hval =>
    refine extends_quiet h rfl rfl rfl rfl (mapped_setKey (h.namesKnown_outside hid ?_))
    exact mem_append_right _ (hguard.getAttr _ hop)
  | unmapped hop hmap hval => exact extends_quiet h rfl rfl rfl rfl fun _ _ hv => .inl hv
  | skipWrap hcall =>
    refine extends_quiet h rfl rfl rfl rfl (mapped_setKey ?_)
    cases hhead : ctx.program.userInputs.head? with
    | none => exact namesKnown_bare hat.key
    | some =>
      exact h.namesKnown_outside hid (mem_append_left _ (mem_of_head? hhead))
  | element hcall hargs hssa hshape =>
    obtain ⟨outs, houts, hmem⟩ := tupleElement_mem hssa
    exact extends_quiet h rfl rfl rfl rfl (mapped_setKey (h.tuples _ outs houts _ hmem))
  | sized hcall hargs hssa => exact h.sized hat hguard hcall hargs
  | sliced hcall hkind hnode hargs htensor htypes =>
    exact h.sliced hat hguard hcall hkind hnode hargs htensor
  | dropped hcall => exact extends_quiet h rfl rfl rfl rfl fun _ _ hv => .inl hv
  | op hcall hgeneric hc hemit => exact h.op hat hguard hcall hgeneric hc hemit
  | returned hop => exact extends_quiet h rfl rfl rfl rfl fun _ _ hv => .inl hv

theorem ssaInv_initial (hdistinct : (outsideNames ctx.program).Nodup) :
    SsaInv ctx [] (initialState ctx.program) where
  names := ⟨[], rfl, nodup_nil, nofun⟩
  weights := ⟨(nodup_append.1 (nodup_append.1 hdistinct).1).2.1,
    fun w hw => .inl hw, fun w hw => hw⟩
  mapped := fun n v hv => by cases hv
  tuples := fun n outs houts => by cases houts
  inScope := trivial

theorem ssaInv_of_ok (hid : Identified ctx.program) (hdistinct : (outsideNames ctx.program).Nodup)
    (hevery : EveryStep ctx (NameGuard ctx)) (hsplit : ctx.program.nodes = done ++ rest)
    (h : convertNodes ctx (initialState ctx.program) done = .ok st) : SsaInv ctx done st :=
  convertNodes_invariant hevery (ssaInv_initial hdistinct)
    (fun _ _ _ _ _ hsplit hinv hguard hconv =>
      hinv.extend (hinv.converts hid (at_of_split hid hsplit) hguard hconv)) hsplit h

/-! ### The names of a whole conversion -/

theorem SsaInv.nodup_results (h : SsaInv ctx ctx.program.nodes st) :
    (blockResults st.mlirOps).Nodup := by
  obtain ⟨tags, hresults, hnodup, hacc⟩ := h.names
  rw [hresults]
  refine hnodup.map_on fun a ha b hb hab => ?_
  have hout : ∀ name, NameTag.own name ∈ tags → name ∈ outsideNames ctx.program :=
    fun name hname => mem_append_right _ (hacc _ hname)
  cases a with
  | own name =>
    cases b with
    | own => exact congrArg NameTag.own hab
    | made t =>
      have hsame : name = t.render := hab
      exact absurd (hsame ▸ hout name ha) (hacc _ hb).2.2.1
  | made s =>
    cases b with
    | own name =>
      have hsame : s.render = name := hab
      exact absurd (hsame ▸ hout name hb) (hacc _ ha).2.2.1
    | made =>
      rw [MadeUp.render_injective (hacc _ ha).1 (hacc _ hb).1 hab]

theorem SsaInv.result_apart (h : SsaInv ctx ctx.program.nodes st)
    (hdistinct : (outsideNames ctx.program).Nodup) (hname : name ∈ blockResults st.mlirOps) :
    name ∉ ctx.program.userInputs ∧ name ∉ st.weights.map Prod.fst := by
  obtain ⟨tags, hresults, -, hacc⟩ := h.names
  rw [hresults] at hname
  obtain ⟨tag, htag, rfl⟩ := mem_map.1 hname
  obtain ⟨hfront, hself, happart⟩ := nodup_append.1 hdistinct
  cases tag with
  | own name =>
    have hmem : name ∈ (ctx.program.nodes.filter namesItself).map Node.name := hacc _ htag
    have hnot : name ∉ ctx.program.userInputs ++ (initialWeights ctx.program).map Prod.fst :=
      fun hfront => happart name hfront name hmem rfl
    rw [mem_append, not_or] at hnot
    refine ⟨hnot.1, fun hw => ?_⟩
    rcases h.weights.keys name hw with hw | ⟨k, -, -, hout⟩
    · exact hnot.2 hw
    · exact hout (mem_append_right _ hmem)
  | made t =>
    obtain ⟨hadm, -, hout, hconst, -⟩ := hacc _ htag
    refine ⟨fun hin => hout (mem_append_left _ (mem_append_left _ hin)), fun hw => ?_⟩
    rcases h.weights.keys t.render hw with hw | ⟨k, -, hk, -⟩
    · exact hout (mem_append_left _ (mem_append_right _ hw))
    · rw [constName_eq] at hk
      have hbase : "_const" ∈ countedBases := by decide
      exact hconst k (MadeUp.render_injective hadm hbase hk)

theorem SsaInv.ssaKey_weight (h : SsaInv ctx done st) (hid : Identified ctx.program)
    (hw : w ∈ st.weights.map Prod.fst) : ssaKey w = w := by
  rcases h.weights.keys w hw with hw | ⟨k, -, rfl, -⟩
  · exact hid.outside w (mem_append_left _ (mem_append_right _ hw))
  · exact ssaKey_constName k

theorem SsaInv.weight_not_input (h : SsaInv ctx done st)
    (hdistinct : (outsideNames ctx.program).Nodup)
    (hw : w ∈ st.weights.map Prod.fst) : w ∉ ctx.program.userInputs := by
  intro hin
  rcases h.weights.keys w hw with hw | ⟨k, -, -, hout⟩
  · exact (nodup_append.1 (nodup_append.1 hdistinct).1).2.2 w hin w hw rfl
  · exact hout (mem_append_left _ (mem_append_left _ hin))

theorem inputKeys_convertInputs {inputs : List (String × String)}
    (hkeys : ∀ n ∈ ctx.program.userInputs, ssaKey n = n)
    (h : convertInputs ctx.program = .ok inputs) : inputKeys inputs = ctx.program.userInputs := by
  rw [convertInputs, mapM_eq_ok_iff] at h
  generalize ctx.program.userInputs = names at h hkeys
  induction h with
  | nil => rfl
  | @cons n i _ _ hi _ ih =>
    obtain ⟨tp, -, hi⟩ := bind_eq_ok hi
    cases hi
    rw [inputKeys, map_cons, ssaKey_percent (hkeys n mem_cons_self)]
    exact congrArg (n :: ·) (ih fun m hm => hkeys m (mem_cons_of_mem n hm))

theorem instr_weightOp {e : String × Tensor V} (h : ssaKey e.1 = e.1) :
    (weightOp e).instr.args = [] ∧ (weightOp e).instr.results = [e.1] := by
  refine ⟨rfl, ?_⟩
  show [ssaKey ("%" ++ e.1)] = _
  rw [ssaKey_percent h]

theorem converted_of_ok {r : Converted V} (h : fxGraphToMlir ctx = .ok r) :
    ∃ st, convertNodes ctx (initialState ctx.program) ctx.program.nodes = .ok st ∧
      convertInputs ctx.program = .ok r.funcInputs ∧
      r.mlirOps = st.weights.map weightOp ++ st.mlirOps ∧ r.weights = st.weights ∧
      r.funcOutputs = fixupOutputNames st.mlirOps [] st.funcOutputs := by
  obtain ⟨inputs, hinputs, h⟩ := bind_eq_ok h
  obtain ⟨st, hst, h⟩ := bind_eq_ok h
  cases h
  exact ⟨st, hst, hinputs, rfl, rfl, rfl⟩

theorem SsaInv.inSsaForm (h : SsaInv ctx ctx.program.nodes st) (hid : Identified ctx.program)
    (hdistinct : (outsideNames ctx.program).Nodup) {inputs : List (String × String)}
    (hinputs : inputKeys inputs = ctx.program.userInputs) :
    InSsaForm inputs (st.weights.map weightOp ++ st.mlirOps) := by
  have hinstr : ∀ e ∈ st.weights, (weightOp e).instr.args = [] ∧
      (weightOp e).instr.results = [e.1] := fun e he =>
    instr_weightOp (h.ssaKey_weight hid (mem_map_of_mem he))
  have hweights : defined (program (st.weights.map weightOp)) = st.weights.map Prod.fst := by
    rw [defined, program, map_map, flatMap_map, map_eq_flatMap]
    exact flatMap_congr fun e he => (hinstr e he).2
  have hdefined : defined (program (st.weights.map weightOp ++ st.mlirOps)) =
      st.weights.map Prod.fst ++ blockResults st.mlirOps := by
    rw [← hweights, ← defined_program, program, map_append, defined, flatMap_append]
    rfl
  constructor
  · rw [hinputs, hdefined]
    refine nodup_append.2 ⟨?_, nodup_append.2 ⟨h.weights.nodup, h.nodup_results,
      fun w hw n hn hwn => (h.result_apart hdistinct hn).2 (hwn ▸ hw)⟩, fun i hi n hn hin => ?_⟩
    · exact (nodup_append.1 (nodup_append.1 hdistinct).1).1
    · rcases mem_append.1 hn with hn | hn
      · exact h.weight_not_input hdistinct hn (hin ▸ hi)
      · exact (h.result_apart hdistinct hn).1 (hin ▸ hi)
  · rw [program, map_append]
    refine scoped_append.2 ⟨scoped_of_forall fun i hi a ha => ?_, ?_⟩
    · rw [map_map] at hi
      obtain ⟨e, he, rfl⟩ := mem_map.1 hi
      rw [Function.comp_apply, (hinstr e he).1] at ha
      cases ha
    · have hknown : defined ((st.weights.map weightOp).map MlirOp.instr) =
          st.weights.map Prod.fst := hweights
      rw [hknown, hinputs]
      exact h.inScope

/-- Where nodes keep their names apart, the op list of a conversion is in SSA form. -/
theorem fxGraphToMlir_inSsaForm {r : Converted V} (hid : Identified ctx.program)
    (hdistinct : (outsideNames ctx.program).Nodup) (hevery : EveryStep ctx (NameGuard ctx))
    (h : fxGraphToMlir ctx = .ok r) :
    InSsaForm r.funcInputs r.mlirOps ∧ (∀ name idx, producerIndices r.mlirOps name = some idx ↔
        ∃ op, r.mlirOps[idx]? = some op ∧ name ∈ op.results.map ssaKey) ∧
      ∀ blocks, blocks.flatten = r.mlirOps → ∀ name p, producer blocks name = some p ↔
        ∃ block, blocks[p]? = some block ∧ name ∈ blockResults block := by
  obtain ⟨st, hst, hinputs, hops, -, -⟩ := converted_of_ok h
  have hkeys : ∀ n ∈ ctx.program.userInputs, ssaKey n = n := fun n hn =>
    hid.outside n (mem_append_left _ (mem_append_left _ hn))
  have hform : InSsaForm r.funcInputs r.mlirOps := by
    rw [hops]
    exact (ssaInv_of_ok hid hdistinct hevery (append_nil _).symm hst).inSsaForm hid hdistinct
      (inputKeys_convertInputs hkeys hinputs)
  refine ⟨hform, fun name idx => hform.producerIndices, fun blocks hblocks name p => ?_⟩
  exact producer_eq_some (hblocks ▸ hform.nodup)

theorem not_calls (hop : ∀ target, node.op ≠ .callFunction target) (halOp : String) :
    ¬ Calls node halOp := fun ⟨target, htarget, _⟩ => hop target htarget

theorem nameGuard_placeholder (hop : node.op = .placeholder)
    (h : (weightNameMap ctx.program.inputSpecs node.name).getD node.name ∈
      ctx.program.userInputs ++ (initialWeights ctx.program).map Prod.fst) :
    NameGuard ctx st node := by
  have hcall : ∀ halOp, ¬ Calls node halOp :=
    not_calls fun target ht => by rw [hop] at ht; cases ht
  refine ⟨fun halOp hc => absurd hc (hcall halOp), fun _ => h, fun target ht => ?_,
    fun hc => absurd hc (hcall _), fun hc => absurd hc (hcall _), fun hc => absurd hc (hcall _), ?_⟩
  · rw [hop] at ht
    cases ht
  · rintro t ht
    cases ht <;> exact absurd ‹_› (hcall _)

theorem nameGuard_output (hop : node.op = .output) : NameGuard ctx st node := by
  have hcall : ∀ halOp, ¬ Calls node halOp :=
    not_calls fun target ht => by rw [hop] at ht; cases ht
  refine ⟨fun halOp hc => absurd hc (hcall halOp), fun ht => ?_, fun target ht => ?_,
    fun hc => absurd hc (hcall _), fun hc => absurd hc (hcall _), fun hc => absurd hc (hcall _), ?_⟩
  · rw [hop] at ht
    cases ht
  · rw [hop] at ht
    cases ht
  · rintro t ht
    cases ht <;> exact absurd ‹_› (hcall _)

section SmallPrograms

def vectorVal : Val := .tensor ⟨[none], "float32"⟩ [none]

/-- A graph of two inputs and the given comparisons of them. -/
def comparing (names : List String) : ExportedProgram Unit where
  nodes :=
    [⟨"x", .placeholder, [], [], some vectorVal⟩, ⟨"y", .placeholder, [], [], some vectorVal⟩] ++
    (names.map fun name =>
      ⟨name, .callFunction "aten.le.Tensor", [.item (.node "x"), .item (.node "y")], [], none⟩) ++
    [⟨"output", .output, [.list (names.map Item.node)], [], none⟩]
  userInputs := ["x", "y"]
  inputSpecs := []
  stateDict := []
  constants := []

/-- Comparisons are inferred to have the shape of their first operand. -/
def comparingContext (names : List String) : Context Unit where
  torch := ⟨fun _ => (), fun _ => (), fun _ _ => (), fun _ => none, fun _ _ => none, fun _ => ""⟩
  infer := fun _ inputs _ => .ok ((inputs.take 1).map fun ty => ⟨ty.shape, "i1"⟩)
  program := comparing names

/-- What the guard of a call asks about the state. -/
def guarded (st : State V) : List (String × String) × List (String × Option String) :=
  (st.ssaMap, st.mlirOps.map fun op => (op.opName, op.operands.head?))

/-- The guard of a call, in a program whose own names have no underscores. -/
theorem nameGuard_call (halOp : String) {names : List (String × String)}
    {ops : List (String × Option String)}
    (hplain : ∀ name ∈ outsideNames ctx.program, '_' ∉ name.toList) (hcall : Calls node halOp)
    (hst : guarded st = (names, ops))
    (hargs : ∀ name ∈ nodeRefs node.args,
      names.lookup name = some ("%" ++ ssaKey (ssaName names name)))
    (harange : halOp ≠ "arange") (hle : halOp = "le" → "le" ∉ ops.map Prod.fst)
    (hsize : halOp = "sym_size" → ∃ source dim,
      node.args = [.item (.node source), .item (.int dim)] ∧
        ("sym_size", some (ssaName names source)) ∉ ops) : NameGuard ctx st node := by
  obtain ⟨rfl, rfl⟩ := Prod.mk.inj hst
  have hop : ∀ op, node.op = op → ∃ target, op = .callFunction target := by
    rintro op rfl
    exact hcall.imp fun _ h => h.1
  refine ⟨fun _ _ name hname => ⟨_, hargs name hname⟩, fun h => ?_, fun _ h => ?_,
    fun h op hmem heq => ?_, fun h => ?_, fun h => absurd (hcall.unique h) harange,
    fun t _ hout => hplain _ hout t.underscore_mem_render⟩
  · obtain ⟨_, h⟩ := hop _ h
    cases h
  · obtain ⟨_, h⟩ := hop _ h
    cases h
  · exact hle (hcall.unique h) (mem_map.2 ⟨_, mem_map_of_mem hmem, heq⟩)
  · obtain ⟨source, dim, hargs, hnew⟩ := hsize (hcall.unique h)
    refine ⟨source, dim, hargs, fun op hmem heq hhead _ => hnew ?_⟩
    exact mem_map.2 ⟨op, hmem, Prod.ext heq hhead⟩

/-- The names it makes up: two dims, a mask, and a numbered conjunction. -/
def measuring : ExportedProgram Unit where
  nodes :=
    [⟨"x", .placeholder, [], [], some vectorVal⟩, ⟨"y", .placeholder, [], [], some vectorVal⟩,
      ⟨"n", .callFunction "aten.sym_size.int", [.item (.node "x"), .item (.int 0)], [], none⟩,
      ⟨"m", .callFunction "aten.sym_size.int", [.item (.node "y"), .item (.int 0)], [], none⟩,
      ⟨"le", .callFunction "aten.le.Tensor", [.item (.node "x"), .item (.node "y")], [], none⟩,
      ⟨"both", .callFunction "aten.__and__.Tensor", [.item (.node "le"), .item (.node "le")], [],
        none⟩,
      ⟨"output", .output, [.list [.node "n", .node "m", .node "both"]], [], none⟩]
  userInputs := ["x", "y"]
  inputSpecs := []
  stateDict := []
  constants := []

def measuringContext : Context Unit := { comparingContext [] with program := measuring }

theorem guarded_of_ok {k : Nat} {st : State Unit}
    (s : List (String × String) × List (String × Option String))
    (hst : convertNodes measuringContext (initialState measuring) (measuring.nodes.take k) =
      .ok st)
    (h : (convertNodes measuringContext (initialState measuring) (measuring.nodes.take k)).map
      guarded = .ok s) : guarded st = s := by
  rw [hst] at h
  exact Except.ok.inj h

theorem everyStep_measuring : EveryStep measuringContext (NameGuard measuringContext) := by
  intro k node st hk hst
  have hplain : ∀ name ∈ outsideNames measuring, '_' ∉ name.toList := by decide
  match k with
  | 0 =>
    cases hk
    exact nameGuard_placeholder rfl (by decide)
  | 1 =>
    cases hk
    exact nameGuard_placeholder rfl (by decide)
  | 2 =>
    cases hk
    have hst := guarded_of_ok ([("x", "%x"), ("y", "%y")], []) hst (by decide +kernel)
    exact nameGuard_call "sym_size" hplain ⟨_, rfl, by decide⟩ hst (by decide) (by decide) nofun
      fun _ => ⟨"x", 0, rfl, by decide⟩
  | 3 =>
    cases hk
    have hst := guarded_of_ok ([("x", "%x"), ("y", "%y"), ("n", "%x_dim_0")],
      [("sym_size", some "%x")]) hst (by decide +kernel)
    exact nameGuard_call "sym_size" hplain ⟨_, rfl, by decide⟩ hst (by decide) (by decide) nofun
      fun _ => ⟨"y", 0, rfl, by decide⟩
  | 4 =>
    cases hk
    have hst := guarded_of_ok ([("x", "%x"), ("y", "%y"), ("n", "%x_dim_0"), ("m", "%y_dim_0")],
      [("sym_size", some "%x"), ("sym_size", some "%y")]) hst (by decide +kernel)
    exact nameGuard_call "le" hplain ⟨_, rfl, by decide⟩ hst (by decide) (by decide)
      (by decide) nofun
  | 5 =>
    cases hk
    have hst := guarded_of_ok ([("x", "%x"), ("y", "%y"), ("n", "%x_dim_0"), ("m", "%y_dim_0"),
      ("le", "%causal_mask")], [("sym_size", some "%x"), ("sym_size", some "%y"),
      ("le", some "%x")]) hst (by decide +kernel)
    exact nameGuard_call "logical_and" hplain ⟨_, rfl, by decide⟩ hst (by decide) (by decide)
      nofun nofun
  | 6 =>
    cases hk
    exact nameGuard_output rfl
  | k + 7 => cases hk

theorem inSsaForm_measuring : ∃ r, fxGraphToMlir measuringContext = .ok r ∧
    blockResults r.mlirOps = ["x_dim_0", "y_dim_0", "causal_mask", "mask_and_3"] ∧
    InSsaForm r.funcInputs r.mlirOps := by
  have hnames : (fxGraphToMlir measuringContext).map (fun r => blockResults r.mlirOps) =
      .ok ["x_dim_0", "y_dim_0", "causal_mask", "mask_and_3"] := by decide +kernel
  obtain ⟨r, hr, hnames⟩ := map_eq_ok hnames
  exact ⟨r, hr, hnames, (fxGraphToMlir_inSsaForm ⟨by decide, by decide, by decide, by decide⟩
    (by decide) everyStep_measuring hr).1⟩

/-- Both comparisons define `%causal_mask`, and its producer is the second. -/
theorem two_masks_share_a_name :
    Identified (comparing ["le", "le_1"]) ∧ (outsideNames (comparing ["le", "le_1"])).Nodup ∧
      ∃ r, fxGraphToMlir (comparingContext ["le", "le_1"]) = .ok r ∧
        ¬ InSsaForm r.funcInputs r.mlirOps ∧ producerIndices r.mlirOps "causal_mask" = some 1 := by
  have hnames : (fxGraphToMlir (comparingContext ["le", "le_1"])).map (fun r =>
      (blockResults r.mlirOps, producerIndices r.mlirOps "causal_mask")) =
        .ok (["causal_mask", "causal_mask"], some 1) := by decide +kernel
  refine ⟨⟨by decide, by decide, by decide, by decide⟩, by decide, ?_⟩
  obtain ⟨r, hr, hpair⟩ := map_eq_ok hnames
  refine ⟨r, hr, fun hform => ?_, congrArg Prod.snd hpair⟩
  have hnodup := hform.nodup
  rw [show blockResults r.mlirOps = _ from congrArg Prod.fst hpair] at hnodup
  exact absurd hnodup (by decide)

end SmallPrograms

end CompileForge.Compiler.Fx
