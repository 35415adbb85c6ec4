/-
  The tensor-parallel layers (`compiler/tp/linear.py`) and the Llama table of their settings
  (`DEFAULT_LLAMA_TP_CONFIG`), in exact arithmetic: every rank holds its shard of the full
  parameters, the ranks meet in the two collectives, and what a rank returns is compared with
  `nn.Linear` and `nn.Embedding` on the full parameters.
-/

import CompileForge.Lib.Shards
import CompileForge.Lib.Outcome
import Mathlib.Algebra.Field.Basic
import Mathlib.Algebra.Field.Rat

namespace CompileForge.Compiler.TensorParallel

open Lib List

variable {R : Type} [Semiring R]

/-- The parameters of `nn.Linear(in_features, out_features)`. -/
structure LinearParams (R : Type) where
  weight : Mat R
  bias : Option (List R)
  fits : ∀ b ∈ bias, b.length = weight.rows.length

namespace LinearParams

variable (p : LinearParams R)

def inFeatures : Nat := p.weight.cols

def outFeatures : Nat := p.weight.rows.length

def linearRow (x : List R) : List R :=
  match p.bias with
  | none => p.weight.rows.map (dot x)
  | some bias => zipWith (fun w b => dot x w + b) p.weight.rows bias

def biasAt (j : Nat) : R := (p.bias.getD []).getD j 0

theorem length_linearRow (x : List R) : (p.linearRow x).length = p.outFeatures := by
  obtain ⟨weight, bias, fits⟩ := p
  cases bias with
  | none => exact length_map _
  | some bias =>
    have hlen : bias.length = weight.rows.length := fits bias rfl
    show (zipWith (fun w b => dot x w + b) weight.rows bias).length = weight.rows.length
    rw [length_zipWith, hlen, Nat.min_self]

theorem getD_linearRow (x : List R) {j : Nat} (hj : j < p.outFeatures) :
    (p.linearRow x).getD j 0 = dot x (p.weight.row j) + p.biasAt j := by
  obtain ⟨weight, bias, fits⟩ := p
  have hj' : j < weight.rows.length := hj
  cases bias with
  | none =>
    show (weight.rows.map (dot x)).getD j 0 = dot x (weight.row j) + 0
    rw [getD_eq_getElem?_getD, getElem?_map, getElem?_eq_getElem hj',
      Option.map_some, Option.getD_some, weight.row_eq_getElem hj', add_zero]
  | some bias =>
    have hb : j < bias.length := by rw [fits bias rfl]; exact hj'
    show (zipWith (fun w b => dot x w + b) weight.rows bias).getD j 0 =
      dot x (weight.row j) + bias.getD j 0
    rw [getD_eq_getElem?_getD, getElem?_zipWith, getElem?_eq_getElem hj',
      getElem?_eq_getElem hb, getD_eq_getElem?_getD, getElem?_eq_getElem hb,
      weight.row_eq_getElem hj']
    rfl

/-- `nn.Linear` on the rows of a tensor; `none` is a shape error. -/
def linear (x : Mat R) : Option (Mat R) :=
  if x.cols = p.inFeatures then
    some {
      cols := p.outFeatures
      rows := x.rows.map p.linearRow
      rect := by
        intro row hrow
        obtain ⟨full, -, rfl⟩ := mem_map.1 hrow
        exact p.length_linearRow full }
  else none

end LinearParams

/-- `nn.Embedding`; `none` is an index error, on which no rank returns. -/
def embedding (weight : Mat R) (tokens : List Int) : Option (Mat R) :=
  if h : ∀ t ∈ tokens, 0 ≤ t ∧ t < weight.rows.length then
    some {
      cols := weight.cols
      rows := tokens.map fun t => weight.row t.toNat
      rect := by
        intro row hrow
        obtain ⟨t, ht, rfl⟩ := mem_map.1 hrow
        have hbound := h t ht
        exact weight.length_row (by omega) }
  else none

/-! ## The ranks -/

/-- What a layer reads of its `TPCommunicator`. -/
structure Comm where
  rank : Nat
  worldSize : Nat
  deriving DecidableEq, Repr

/-- A rank's shard of a dimension, or the `ValueError` when the ranks do not divide it. -/
def perRank (name : String) (dim tpSize : Nat) : Except String Nat :=
  if dim % tpSize ≠ 0 then
    .error s!"{name} ({dim}) must be divisible by tp_size ({tpSize})"
  else .ok (dim / tpSize)

theorem perRank_ok {name : String} {dim tpSize : Nat} (h : tpSize ∣ dim) :
    perRank name dim tpSize = .ok (dim / tpSize) := by
  have hmod : dim % tpSize = 0 := Nat.mod_eq_zero_of_dvd h
  rw [perRank, if_neg (by simp [hmod])]

/-- The tensors the ranks bring to a collective; a rank that raises leaves the others waiting. -/
def collect (worldSize : Nat) (local_ : Nat → Option (Mat R)) : Option (List (Mat R)) :=
  (range worldSize).mapM local_

namespace LinearParams

variable (p : LinearParams R) (off len : Nat)

def rowShard : LinearParams R where
  weight := p.weight.rowSlice off len
  bias := p.bias.map (slice · off len)
  fits := by
    intro b hb
    obtain ⟨full, hfull, rfl⟩ := Option.map_eq_some_iff.1 hb
    exact length_slice_eq (p.fits full hfull) off len

/-- Inputs `off .. off + len`: columns of the weight, and the whole bias. -/
def colShard : LinearParams R where
  weight := p.weight.colSlice off len
  bias := p.bias
  fits := by
    intro b hb
    rw [p.fits b hb]
    exact (length_map _).symm

end LinearParams

section Local

variable {p : LinearParams R} {x y : Mat R}

theorem shape_linear (h : p.linear x = some y) : y.shape = (x.rows.length, p.outFeatures) := by
  simp only [LinearParams.linear] at h
  split at h
  · cases h
    exact Prod.ext (length_map _) rfl
  · cases h

theorem row_linear (h : p.linear x = some y) {i : Nat} (hi : i < x.rows.length) :
    y.row i = p.linearRow (x.row i) := by
  simp only [LinearParams.linear] at h
  split at h
  · cases h
    rw [Mat.row_mk_map _ hi, x.row_eq_getElem hi]
  · cases h

theorem entry_linear (h : p.linear x = some y) {i j : Nat} (hi : i < x.rows.length)
    (hj : j < p.outFeatures) :
    y.entry i j = dot (x.row i) (p.weight.row j) + p.biasAt j := by
  rw [Mat.entry, row_linear h hi, p.getD_linearRow _ hj]

theorem linear_isSome_iff : (p.linear x).isSome ↔ x.cols = p.inFeatures := by
  rw [LinearParams.linear]
  split
  · exact iff_of_true rfl ‹_›
  · exact iff_of_false (by simp) ‹_›

variable (p : LinearParams R)

theorem linearRow_rowShard (off len : Nat) (x : List R) :
    (p.rowShard off len).linearRow x = slice (p.linearRow x) off len := by
  obtain ⟨weight, bias, fits⟩ := p
  cases bias with
  | none => exact (slice_map _ _ _ _).symm
  | some => exact (slice_zipWith _ _ _ _ _).symm

theorem linear_rowShard (off len : Nat) (x : Mat R) :
    (p.rowShard off len).linear x = (p.linear x).map (·.colSlice off len) := by
  simp only [LinearParams.linear]
  by_cases hx : x.cols = p.inFeatures
  · have hx' : x.cols = (p.rowShard off len).inFeatures := hx
    rw [if_pos hx, if_pos hx', Option.map_some]
    congr 1
    ext1
    · show (slice p.weight.rows off len).length = min len (p.weight.rows.length - off)
      rw [slice, length_take, length_drop]
    · show x.rows.map (p.rowShard off len).linearRow =
        (x.rows.map p.linearRow).map (slice · off len)
      rw [map_map]
      apply map_congr_left
      intro row _
      exact linearRow_rowShard p off len row
  · have hx' : ¬ x.cols = (p.rowShard off len).inFeatures := hx
    rw [if_neg hx, if_neg hx', Option.map_none]

theorem linear_colShard (off len : Nat) (hx : x.cols = p.inFeatures) :
    ∃ z, (p.colShard off len).linear (x.colSlice off len) = some z ∧
      z.shape = (x.rows.length, p.outFeatures) ∧
      ∀ i < x.rows.length, ∀ j < p.outFeatures, z.entry i j =
          dot (slice (x.row i) off len) (slice (p.weight.row j) off len) + p.biasAt j := by
  have hcols : (x.colSlice off len).cols = (p.colShard off len).inFeatures := by
    show min len (x.cols - off) = min len (p.weight.cols - off)
    rw [hx, LinearParams.inFeatures]
  obtain ⟨z, hz⟩ := Option.isSome_iff_exists.1 (linear_isSome_iff.2 hcols)
  have hrows : (x.colSlice off len).rows.length = x.rows.length := length_map _
  have hout : (p.colShard off len).outFeatures = p.outFeatures := length_map _
  refine ⟨z, hz, ?_, ?_⟩
  · rw [shape_linear hz, hrows, hout]
  · intro i hi j hj
    rw [entry_linear hz (by rw [hrows]; exact hi) (by rw [hout]; exact hj), Mat.row_colSlice]
    show _ + p.biasAt j = _
    congr 2
    exact Mat.row_colSlice _ _ _ _

end Local

/-! ## ColumnParallelLinear -/

/-- A rank's rows of the weight and entries of the bias. -/
structure ColumnParallelLinear (R : Type) where
  comm : Comm
  outPerRank : Nat
  gatherOutput : Bool
  params : LinearParams R

namespace ColumnParallelLinear

/-- The constructor, then the rank's shard of the full parameters. -/
def load (comm : Comm) (full : LinearParams R) (gatherOutput : Bool) :
    Except String (ColumnParallelLinear R) := do
  let outPerRank ← perRank "out_features" full.outFeatures comm.worldSize
  return {
    comm := comm
    outPerRank := outPerRank
    gatherOutput := gatherOutput
    params := full.rowShard (comm.rank * outPerRank) outPerRank }

def partialOut (l : ColumnParallelLinear R) (x : Mat R) : Option (Mat R) := l.params.linear x

/-- What `forward` returns on a rank. -/
def forward (worldSize : Nat) (full : LinearParams R) (gatherOutput : Bool) (x : Mat R)
    (rank : Nat) : Option (Mat R) := do
  let outs ← collect worldSize fun r =>
    (load ⟨r, worldSize⟩ full gatherOutput).toOption.bind (·.partialOut x)
  if gatherOutput then Mat.allGather outs else outs[rank]?

end ColumnParallelLinear

/-! ## RowParallelLinear -/

/-- A rank's columns of the weight; the bias is added behind the collective. -/
structure RowParallelLinear (R : Type) where
  comm : Comm
  inPerRank : Nat
  inputIsParallel : Bool
  params : LinearParams R

namespace RowParallelLinear

/-- The constructor, then the rank's columns of the weight and the full bias. -/
def load (comm : Comm) (full : LinearParams R) (inputIsParallel : Bool) :
    Except String (RowParallelLinear R) := do
  let inPerRank ← perRank "in_features" full.inFeatures comm.worldSize
  return {
    comm := comm
    inPerRank := inPerRank
    inputIsParallel := inputIsParallel
    params := full.colShard (comm.rank * inPerRank) inPerRank }

/-- `partial_out`: on the rank's columns of the input, and with the bias on every rank. -/
def partialOut (l : RowParallelLinear R) (x : Mat R) : Option (Mat R) :=
  if l.inputIsParallel then l.params.linear x
  else l.params.linear (x.colSlice (l.comm.rank * l.inPerRank) l.inPerRank)

/-- What `forward` returns on every rank, given the ranks' inputs. -/
def forward (worldSize : Nat) (full : LinearParams R) (inputIsParallel : Bool)
    (x : Nat → Option (Mat R)) : Option (Mat R) := do
  let outs ← collect worldSize fun r => do
    let l ← (load ⟨r, worldSize⟩ full inputIsParallel).toOption
    l.partialOut (← x r)
  Mat.allReduce outs

end RowParallelLinear

/-! ## VocabParallelEmbedding -/

/-- A rank's rows of the table. -/
structure VocabParallelEmbedding (R : Type) where
  comm : Comm
  vocabStart : Nat
  vocabEnd : Nat
  weight : Mat R

namespace VocabParallelEmbedding

/-- The constructor, then the rank's rows of the table. -/
def load (comm : Comm) (full : Mat R) : Except String (VocabParallelEmbedding R) := do
  let rows ← perRank "num_embeddings" full.rows.length comm.worldSize
  return {
    comm := comm
    vocabStart := comm.rank * rows
    vocabEnd := comm.rank * rows + rows
    weight := full.rowSlice (comm.rank * rows) rows }

/-- `mask`: the token is one of the rank's. -/
def owns (l : VocabParallelEmbedding R) (t : Int) : Bool := l.vocabStart ≤ t ∧ t < l.vocabEnd

/-- `out` before the all-reduce: a token of another rank is looked up at 0 and its row zeroed. -/
def partialOut (l : VocabParallelEmbedding R) (tokens : List Int) : Option (Mat R) := do
  let out ← embedding l.weight (tokens.map fun t => if l.owns t then t - l.vocabStart else 0)
  return out.keepRows (tokens.map l.owns)

/-- What `forward` returns on every rank. -/
def forward (worldSize : Nat) (full : Mat R) (tokens : List Int) : Option (Mat R) := do
  let outs ← collect worldSize fun r =>
    (load ⟨r, worldSize⟩ full).toOption.bind (·.partialOut tokens)
  Mat.allReduce outs

end VocabParallelEmbedding

/-! ## What a rank returns -/

section Forward

variable {n : Nat} {p : LinearParams R} {x y : Mat R}

omit [Semiring R] in
theorem range_ne_nil (hn : n ≠ 0) (f : Nat → Mat R) : (range n).map f ≠ [] := by
  rw [Ne, map_eq_nil_iff, range_eq_nil]
  exact hn

theorem ColumnParallelLinear.forward_eq (hn : n ≠ 0) (hdvd : n ∣ p.outFeatures)
    (hy : p.linear x = some y) (gatherOutput : Bool) {rank : Nat} (hrank : rank < n) :
    ColumnParallelLinear.forward n p gatherOutput x rank = some (if gatherOutput then y
        else y.colSlice (rank * (p.outFeatures / n)) (p.outFeatures / n)) := by
  have hlocal : ∀ r ∈ range n,
      (ColumnParallelLinear.load ⟨r, n⟩ p gatherOutput).toOption.bind (·.partialOut x) =
        some (y.colSlice (r * (p.outFeatures / n)) (p.outFeatures / n)) := by
    intro r _
    rw [ColumnParallelLinear.load, perRank_ok hdvd]
    show (p.rowShard (r * (p.outFeatures / n)) (p.outFeatures / n)).linear x = _
    rw [linear_rowShard, hy, Option.map_some]
  rw [ColumnParallelLinear.forward, collect, mapM_eq_map hlocal]
  show (if gatherOutput then _ else _) = _
  cases gatherOutput with
  | true =>
    have hcols : y.cols = n * (p.outFeatures / n) := by
      have hshape := (Prod.mk.inj (shape_linear hy)).2
      rw [hshape, Nat.mul_div_cancel' hdvd]
    exact Mat.allGather_colSlice y hn hcols
  | false =>
    show ((range n).map _)[rank]? = _
    rw [getElem?_map, getElem?_range hrank, Option.map_some]
    rfl

section Embedding

variable {full : Mat R} {tokens : List Int}

omit [Semiring R] in
theorem embedding_isSome_iff :
    (embedding full tokens).isSome ↔ ∀ t ∈ tokens, 0 ≤ t ∧ t < full.rows.length := by
  rw [embedding]
  split
  · exact iff_of_true rfl ‹_›
  · exact iff_of_false (by simp) ‹_›

omit [Semiring R] in
theorem shape_embedding (h : embedding full tokens = some y) :
    y.shape = (tokens.length, full.cols) := by
  simp only [embedding] at h
  split at h
  · cases h
    exact Prod.ext (length_map _) rfl
  · cases h

theorem entry_embedding (h : embedding full tokens = some y) {i : Nat} (hi : i < tokens.length)
    (j : Nat) : y.entry i j = full.entry tokens[i].toNat j := by
  simp only [embedding] at h
  split at h
  · cases h
    rw [Mat.entry, Mat.row_mk_map _ hi, Mat.entry]
  · cases h

/-- A rank's rows of the table: the rows of its own tokens, zeros for the others. -/
theorem VocabParallelEmbedding.partialOut_eq {k r : Nat} (hrk : (r + 1) * k ≤ full.rows.length)
    (htokens : ∀ t ∈ tokens, 0 ≤ t ∧ t < full.rows.length) (hk : tokens ≠ [] → 0 < k) :
    ∃ z, (⟨⟨r, n⟩, r * k, r * k + k, full.rowSlice (r * k) k⟩ :
        VocabParallelEmbedding R).partialOut tokens = some z ∧
      z.shape = (tokens.length, full.cols) ∧
      ∀ i (hi : i < tokens.length) (j : Nat),
        z.entry i j = if r = tokens[i].toNat / k then full.entry tokens[i].toNat j else 0 := by
  generalize hlayer : (⟨⟨r, n⟩, r * k, r * k + k, full.rowSlice (r * k) k⟩ :
    VocabParallelEmbedding R) = l
  have howns : ∀ t : Int, l.owns t = true ↔ (r * k : Nat) ≤ t ∧ t < (r * k + k : Nat) := by
    intro t
    rw [← hlayer]
    exact decide_eq_true_iff
  have hrows : l.weight.rows.length = k := by
    rw [← hlayer]
    exact length_slice (by rw [← Nat.succ_mul]; exact hrk)
  have hlocal : ∀ u ∈ tokens.map (fun t => if l.owns t then t - l.vocabStart else 0),
      0 ≤ u ∧ u < l.weight.rows.length := by
    intro u hu
    obtain ⟨t, ht, rfl⟩ := mem_map.1 hu
    have hpos := hk (ne_nil_of_mem ht)
    have hstart : l.vocabStart = r * k := by rw [← hlayer]
    rw [hrows, hstart]
    split
    · have hown := (howns t).1 ‹_›
      omega
    · omega
  obtain ⟨out, hout⟩ := Option.isSome_iff_exists.1 (embedding_isSome_iff.2 hlocal)
  have hshape := shape_embedding hout
  rw [length_map] at hshape
  have hlen : (tokens.map l.owns).length = out.rows.length := by
    rw [length_map]
    exact (Prod.mk.inj hshape).1.symm
  have hcols : l.weight.cols = full.cols := by rw [← hlayer]; rfl
  refine ⟨out.keepRows (tokens.map l.owns), ?_, ?_, ?_⟩
  · rw [VocabParallelEmbedding.partialOut, hout]
    rfl
  · rw [Mat.shape_keepRows out hlen, hshape, hcols]
  · intro i hi j
    have hi' : i < (tokens.map l.owns).length := by rw [length_map]; exact hi
    rw [Mat.entry_keepRows out hi' (by rw [← hlen]; exact hi'), getElem_map]
    obtain ⟨hnonneg, hlt⟩ := htokens tokens[i] (getElem_mem hi)
    have hpos : 0 < k := hk (ne_nil_of_mem (getElem_mem hi))
    obtain ⟨m, hm⟩ := Int.eq_ofNat_of_zero_le hnonneg
    -- the rank owns the token iff it is the token's quotient by the shard size
    have hown : l.owns tokens[i] = true ↔ r = tokens[i].toNat / k := by
      rw [howns, hm, Int.toNat_natCast, Int.ofNat_le, Int.ofNat_lt, eq_comm, Nat.div_eq_iff hpos]
      omega
    by_cases hr : r = tokens[i].toNat / k
    · rw [if_pos hr, if_pos (hown.2 hr),
        entry_embedding hout (by rw [length_map]; exact hi), getElem_map,
        if_pos (hown.2 hr)]
      obtain ⟨hstart, hend⟩ := (howns _).1 (hown.2 hr)
      have hvocab : l.vocabStart = r * k := by rw [← hlayer]
      have hindex : r * k + (tokens[i] - (l.vocabStart : Int)).toNat = tokens[i].toNat := by
        rw [hvocab]
        omega
      have hweight : l.weight = full.rowSlice (r * k) k := by rw [← hlayer]
      rw [Mat.entry, hweight, Mat.row_rowSlice full (by rw [hvocab]; omega), hindex, Mat.entry]
    · rw [if_neg hr, if_neg fun h => hr (hown.1 h)]

theorem VocabParallelEmbedding.forward_eq (hn : n ≠ 0) (hdvd : n ∣ full.rows.length)
    (hy : embedding full tokens = some y) :
    VocabParallelEmbedding.forward n full tokens = some y := by
  have htokens := embedding_isSome_iff.1 (show (embedding full tokens).isSome by rw [hy]; rfl)
  have hmul : n * (full.rows.length / n) = full.rows.length := Nat.mul_div_cancel' hdvd
  generalize hshard : full.rows.length / n = k at hmul
  have hk : tokens ≠ [] → 0 < k := by
    intro hne
    obtain ⟨t, ht⟩ := exists_mem_of_ne_nil tokens hne
    have hbound := htokens t ht
    refine Nat.pos_of_ne_zero fun hzero => ?_
    rw [hzero, mul_zero] at hmul
    omega
  have hbound : ∀ r < n, (r + 1) * k ≤ full.rows.length := by
    intro r hr
    rw [← hmul]
    exact Nat.mul_le_mul_right k hr
  have hex : ∀ r, ∃ z, r < n → (⟨⟨r, n⟩, r * k, r * k + k, full.rowSlice (r * k) k⟩ :
        VocabParallelEmbedding R).partialOut tokens = some z ∧
      z.shape = (tokens.length, full.cols) ∧
      ∀ i (hi : i < tokens.length) (j : Nat),
        z.entry i j = if r = tokens[i].toNat / k then full.entry tokens[i].toNat j else 0 := by
    intro r
    by_cases hr : r < n
    · obtain ⟨z, hz⟩ := partialOut_eq (n := n) (hbound r hr) htokens hk
      exact ⟨z, fun _ => hz⟩
    · exact ⟨y, fun h => absurd h hr⟩
  choose z hz using hex
  have hlocal : ∀ r ∈ range n,
      (load ⟨r, n⟩ full).toOption.bind (·.partialOut tokens) = some (z r) := by
    intro r hr
    rw [load, perRank_ok hdvd, hshard]
    exact (hz r (mem_range.1 hr)).1
  rw [forward, collect, mapM_eq_map hlocal]
  show Mat.allReduce ((range n).map z) = some y
  have hshape := shape_embedding hy
  have hparts : ∀ q ∈ (range n).map z, q.shape = y.shape := by
    intro q hq
    obtain ⟨r, hr, rfl⟩ := mem_map.1 hq
    rw [(hz r (mem_range.1 hr)).2.1, hshape]
  rw [Mat.allReduce_eq_some_iff (range_ne_nil hn z) hparts]
  intro i hi j _
  rw [(Prod.mk.inj hshape).1] at hi
  have hsum : ((range n).map z).map (fun q => q.entry i j) = (range n).map fun r =>
        if r = tokens[i].toNat / k then full.entry tokens[i].toNat j else 0 := by
    rw [map_map]
    exact map_congr_left fun r hr => (hz r (mem_range.1 hr)).2.2 i hi j
  have hrank : tokens[i].toNat / k < n := by
    have h := htokens tokens[i] (getElem_mem hi)
    rw [Nat.div_lt_iff_lt_mul (hk (ne_nil_of_mem (getElem_mem hi))), hmul]
    omega
  rw [hsum, sum_single_rank, if_pos hrank, entry_embedding hy hi]

end Embedding

/-- There is one rank, or no bias but zeros, or no row of input. -/
def BiasOnce (worldSize : Nat) (p : LinearParams R) (x : Mat R) : Prop :=
  worldSize = 1 ∨ x.rows = [] ∨ ∀ bias ∈ p.bias, ∀ b ∈ bias, b = 0

theorem biasAt_eq_zero_iff (p : LinearParams R) :
    (∀ j < p.outFeatures, p.biasAt j = 0) ↔ ∀ bias ∈ p.bias, ∀ b ∈ bias, b = 0 := by
  obtain ⟨weight, bias, fits⟩ := p
  cases bias with
  | none => exact iff_of_true (fun _ _ => rfl) (fun _ h => by cases h)
  | some bias =>
    have hlen : bias.length = weight.rows.length := fits bias rfl
    have hat : ∀ j (hj : j < bias.length), bias.getD j 0 = bias[j] := by
      intro j hj
      rw [getD_eq_getElem?_getD, getElem?_eq_getElem hj, Option.getD_some]
    constructor
    · intro h bias' hbias b hb
      cases hbias
      obtain ⟨j, hj, rfl⟩ := mem_iff_getElem.1 hb
      rw [← hat j hj]
      exact h j (by rw [hlen] at hj; exact hj)
    · intro h j hj
      have hj' : j < bias.length := by rw [hlen]; exact hj
      show bias.getD j 0 = 0
      rw [hat j hj']
      exact h bias rfl _ (getElem_mem hj')

theorem sum_rank_entries {k : Nat} {v w : List R} (hv : v.length = n * k) (hw : w.length = n * k)
    (b : R) :
    ((range n).map fun r => dot (slice v (r * k) k) (slice w (r * k) k) + b).sum =
      dot v w + n • b := by
  rw [sum_map_add, sum_dot_slice (hv.trans hw.symm), take_of_length_le (by omega),
    take_of_length_le (by omega), map_const', sum_replicate, length_range]

end Forward

section RowForward

variable {K : Type} [Field K] [CharZero K] {n : Nat} {p : LinearParams K} {x y : Mat K}

theorem nsmul_eq_self_iff (hn : n ≠ 0) (b : K) : n • b = b ↔ n = 1 ∨ b = 0 := by
  obtain ⟨m, rfl⟩ := Nat.exists_eq_succ_of_ne_zero hn
  rw [succ_nsmul, add_eq_right, nsmul_eq_mul, mul_eq_zero, Nat.cast_eq_zero]
  exact or_congr_left (by omega)

theorem RowParallelLinear.forward_eq_iff (hn : n ≠ 0) (hdvd : n ∣ p.inFeatures)
    (hy : p.linear x = some y) (inputIsParallel : Bool) {xs : Nat → Option (Mat K)}
    (hxs : ∀ r < n, xs r = some (if inputIsParallel then
      x.colSlice (r * (p.inFeatures / n)) (p.inFeatures / n) else x)) :
    RowParallelLinear.forward n p inputIsParallel xs = some y ↔ BiasOnce n p x := by
  have hx : x.cols = p.inFeatures := linear_isSome_iff.1 (by rw [hy]; rfl)
  have hshape := shape_linear hy
  obtain ⟨hrows, hcols⟩ := Prod.mk.inj hshape
  choose z hz hzshape hzentry using fun r =>
    linear_colShard p (r * (p.inFeatures / n)) (p.inFeatures / n) hx
  have hlocal : ∀ r ∈ range n, (do
      let l ← (RowParallelLinear.load ⟨r, n⟩ p inputIsParallel).toOption
      l.partialOut (← xs r)) = some (z r) := by
    intro r hr
    rw [RowParallelLinear.load, perRank_ok hdvd, hxs r (mem_range.1 hr), ← hz r]
    cases inputIsParallel with
    | true => rfl
    | false => rfl
  rw [RowParallelLinear.forward, collect, mapM_eq_map hlocal]
  show Mat.allReduce ((range n).map z) = some y ↔ _
  have hparts : ∀ q ∈ (range n).map z, q.shape = y.shape := by
    intro q hq
    obtain ⟨r, -, rfl⟩ := mem_map.1 hq
    rw [hzshape, hshape]
  rw [Mat.allReduce_eq_some_iff (range_ne_nil hn z) hparts]
  have hk : n * (p.inFeatures / n) = p.inFeatures := Nat.mul_div_cancel' hdvd
  have hentry : ∀ i < x.rows.length, ∀ j < p.outFeatures,
      (((range n).map z).map fun q => q.entry i j).sum = y.entry i j ↔
        n = 1 ∨ p.biasAt j = 0 := by
    intro i hi j hj
    have hv : (x.row i).length = n * (p.inFeatures / n) := by rw [x.length_row hi, hx, hk]
    have hw : (p.weight.row j).length = n * (p.inFeatures / n) := by
      rw [p.weight.length_row hj, hk, LinearParams.inFeatures]
    have hsum : ((range n).map z).map (fun q => q.entry i j) = (range n).map fun r =>
          dot (slice (x.row i) (r * (p.inFeatures / n)) (p.inFeatures / n))
            (slice (p.weight.row j) (r * (p.inFeatures / n)) (p.inFeatures / n)) +
          p.biasAt j := by
      rw [map_map]
      exact map_congr_left fun r _ => hzentry r i hi j hj
    rw [hsum, sum_rank_entries hv hw, entry_linear hy hi hj, add_right_inj, nsmul_eq_self_iff hn]
  rw [BiasOnce, ← biasAt_eq_zero_iff, hrows, hcols]
  constructor
  · intro h
    by_cases hone : n = 1
    · exact .inl hone
    by_cases hempty : x.rows = []
    · exact .inr (.inl hempty)
    · refine .inr (.inr fun j hj => ?_)
      have hpos : 0 < x.rows.length := length_pos_iff.2 hempty
      exact ((hentry 0 hpos j hj).1 (h 0 hpos j hj)).resolve_left hone
  · intro h i hi j hj
    rw [hentry i hi j hj]
    rcases h with hone | hempty | hzero
    · exact .inl hone
    · rw [hempty] at hi
      exact absurd hi (Nat.not_lt_zero i)
    · exact .inr (hzero j hj)

end RowForward

/-! ## DEFAULT_LLAMA_TP_CONFIG -/

inductive ParallelStyle where
  | column
  | row
  deriving DecidableEq, Repr

structure TPConfig where
  parallelStyle : ParallelStyle
  gatherOutput : Bool := true
  inputIsParallel : Bool := false
  deriving DecidableEq, Repr

def defaultLlamaTpConfig : List (String × TPConfig) :=
  [("q_proj", { parallelStyle := .column }), ("k_proj", { parallelStyle := .column }),
   ("v_proj", { parallelStyle := .column }),
   ("o_proj", { parallelStyle := .row, inputIsParallel := true }),
   ("gate_proj", { parallelStyle := .column }),
   ("up_proj", { parallelStyle := .column }),
   ("down_proj", { parallelStyle := .row, inputIsParallel := true }),
   ("embed_tokens", { parallelStyle := .column }),
   ("lm_head", { parallelStyle := .column })]

/-- The layers of a Llama block of which one feeds the other. -/
def llamaPairs : List (String × String) :=
  [("gate_proj", "down_proj"), ("up_proj", "down_proj"),
   ("q_proj", "o_proj"), ("k_proj", "o_proj"), ("v_proj", "o_proj")]

/-! ## Full and sharded runs -/

/-- A layer, or a column layer feeding a row layer, with its full parameters and the input. -/
inductive TpRun (R : Type) where
  | column (gatherOutput : Bool) (full : LinearParams R) (x : Mat R)
  | row (inputIsParallel : Bool) (full : LinearParams R) (x : Mat R)
  | embedding (full : Mat R) (tokens : List Int)
  | pair (names : String × String) (listed : names ∈ llamaPairs) (first second : LinearParams R)
    (x : Mat R)

namespace TpRun

/-- The dimension that is cut. -/
def shardedDim : TpRun R → Nat
  | column _ full _ => full.outFeatures
  | row _ full _ => full.inFeatures
  | embedding full _ => full.rows.length
  | pair _ _ first _ _ => first.outFeatures

/-- What `nn.Linear`, `nn.Embedding` and the composition return on the full parameters. -/
def full : TpRun R → Option (Mat R)
  | column _ full x => full.linear x
  | row _ full x => full.linear x
  | embedding full tokens => TensorParallel.embedding full tokens
  | pair _ _ first second x => do second.linear (← first.linear x)

variable (worldSize : Nat)

/-- What a rank's `forward` returns; a row layer with parallel input is given its columns. -/
def sharded : TpRun R → Nat → Option (Mat R)
  | column gatherOutput full x, rank =>
    ColumnParallelLinear.forward worldSize full gatherOutput x rank
  | row inputIsParallel full x, _ =>
    let k := full.inFeatures / worldSize
    RowParallelLinear.forward worldSize full inputIsParallel fun r =>
      some (if inputIsParallel then x.colSlice (r * k) k else x)
  | embedding full tokens, _ => VocabParallelEmbedding.forward worldSize full tokens
  | pair names _ first second x, _ => do
    let column ← defaultLlamaTpConfig.lookup names.1
    let row ← defaultLlamaTpConfig.lookup names.2
    RowParallelLinear.forward worldSize second row.inputIsParallel
      (ColumnParallelLinear.forward worldSize first column.gatherOutput x)

/-- What is asked of a rank: `y` itself, or its columns where the outputs are not gathered. -/
def expected (y : Mat R) : TpRun R → Nat → Mat R
  | column false full _, rank =>
    y.colSlice (rank * (full.outFeatures / worldSize)) (full.outFeatures / worldSize)
  | _, _ => y

/-- Every rank returns what the full layer returns. -/
def Exact (run : TpRun R) : Prop :=
  ∀ y, run.full = some y →
    ∀ rank < worldSize, run.sharded worldSize rank = some (run.expected worldSize y rank)

/-- When the ranks return what the full layer returns. -/
def Faithful : TpRun R → Prop
  | column _ _ _ => True
  | row _ full x => BiasOnce worldSize full x
  | embedding _ _ => True
  | pair _ _ first second x =>
    (worldSize = 1 ∨ first.outFeatures = 0) ∧ BiasOnce worldSize second x

section Runs

variable {n : Nat}

theorem column_exact (hn : n ≠ 0) {p : LinearParams R} (hdvd : n ∣ p.outFeatures)
    (gatherOutput : Bool) (x : Mat R) : (column gatherOutput p x).Exact n := by
  intro y hy rank hrank
  show ColumnParallelLinear.forward n p gatherOutput x rank = _
  rw [ColumnParallelLinear.forward_eq hn hdvd hy gatherOutput hrank]
  cases gatherOutput with
  | true => rfl
  | false => rfl

theorem embedding_exact (hn : n ≠ 0) {full : Mat R} (hdvd : n ∣ full.rows.length)
    (tokens : List Int) : (embedding full tokens).Exact n := by
  intro y hy _ _
  exact VocabParallelEmbedding.forward_eq hn hdvd hy

variable {K : Type} [Field K] [CharZero K]

theorem row_exact_iff (hn : n ≠ 0) {p : LinearParams K} {x : Mat K} (hdvd : n ∣ p.inFeatures)
    (inputIsParallel : Bool) (hfull : (p.linear x).isSome) :
    (row inputIsParallel p x).Exact n ↔ BiasOnce n p x := by
  obtain ⟨y, hy⟩ := Option.isSome_iff_exists.1 hfull
  have hforward := RowParallelLinear.forward_eq_iff hn hdvd hy inputIsParallel (fun _ _ => rfl)
  constructor
  · intro h
    exact hforward.1 (h y hy 0 (Nat.pos_of_ne_zero hn))
  · intro h y' hy' rank _
    have hsame : y' = y := Option.some.inj (hy'.symm.trans hy)
    rw [hsame]
    exact hforward.2 h

theorem llamaPairs_settings : ∀ names ∈ llamaPairs,
    (defaultLlamaTpConfig.lookup names.1).map TPConfig.gatherOutput = some true ∧
      (defaultLlamaTpConfig.lookup names.2).map TPConfig.inputIsParallel = some true := by
  decide

theorem sharded_pair {names : String × String} (listed : names ∈ llamaPairs)
    (first second : LinearParams R) (x : Mat R) (rank : Nat) :
    (pair names listed first second x).sharded n rank =
      RowParallelLinear.forward n second true (ColumnParallelLinear.forward n first true x) := by
  obtain ⟨hcolumn, hrow⟩ := llamaPairs_settings names listed
  obtain ⟨column, hlookup, hgather⟩ := Option.map_eq_some_iff.1 hcolumn
  obtain ⟨row, hlookup', hparallel⟩ := Option.map_eq_some_iff.1 hrow
  simp only [sharded, hlookup, hlookup', hgather, hparallel, Option.bind_eq_bind, Option.bind_some]

theorem forward_whole_input {p : LinearParams R} {h : Mat R} (hn : 1 < n)
    (hdvd : n ∣ p.inFeatures) (hpos : p.inFeatures ≠ 0) (hh : h.cols = p.inFeatures)
    {xs : Nat → Option (Mat R)} (hxs : xs 0 = some h) :
    RowParallelLinear.forward n p true xs = none := by
  have hless : p.inFeatures / n < p.inFeatures := Nat.div_lt_self (by omega) hn
  have hlocal : (do
      let l ← (RowParallelLinear.load ⟨0, n⟩ p true).toOption
      l.partialOut (← xs 0)) = none := by
    rw [RowParallelLinear.load, perRank_ok hdvd, hxs]
    show (p.colShard (0 * (p.inFeatures / n)) (p.inFeatures / n)).linear h = none
    rw [LinearParams.linear, if_neg]
    show ¬ h.cols = min (p.inFeatures / n) (p.inFeatures - 0 * (p.inFeatures / n))
    omega
  rw [RowParallelLinear.forward, collect, mapM_eq_none (mem_range.2 (by omega : 0 < n)) hlocal]
  rfl

theorem pair_exact_iff (hn : n ≠ 0) {names : String × String} (listed : names ∈ llamaPairs)
    {first second : LinearParams K} {x : Mat K} (hdvd : n ∣ first.outFeatures)
    (hfull : (pair names listed first second x).full.isSome) :
    (pair names listed first second x).Exact n ↔
      (n = 1 ∨ first.outFeatures = 0) ∧ BiasOnce n second x := by
  obtain ⟨y, hy⟩ := Option.isSome_iff_exists.1 hfull
  obtain ⟨h, hh, hsecond⟩ := Option.bind_eq_some_iff.1 hy
  obtain ⟨hrows, hcols⟩ := Prod.mk.inj (shape_linear hh)
  have hfit : h.cols = second.inFeatures := linear_isSome_iff.1 (by rw [hsecond]; rfl)
  have hdim : first.outFeatures = second.inFeatures := hcols.symm.trans hfit
  have hinputs : ∀ r < n, ColumnParallelLinear.forward n first true x r = some h :=
    fun r hr => ColumnParallelLinear.forward_eq hn hdvd hh true hr
  have hbias : BiasOnce n second h ↔ BiasOnce n second x := by
    rw [BiasOnce, BiasOnce, ← length_eq_zero_iff, hrows, length_eq_zero_iff]
  rw [hdim] at hdvd ⊢
  by_cases hone : n = 1 ∨ second.inFeatures = 0
  · -- the whole of the input is the rank's shard
    have hshard : ∀ r < n, ColumnParallelLinear.forward n first true x r =
        some (if true then h.colSlice (r * (second.inFeatures / n)) (second.inFeatures / n)
          else h) := by
      intro r hr
      rw [hinputs r hr, if_pos rfl]
      have hoff : r * (second.inFeatures / n) = 0 := by
        obtain rfl | hzero := hone
        · rw [Nat.lt_one_iff.1 hr, zero_mul]
        · rw [hzero, Nat.zero_div, mul_zero]
      have hle : h.cols ≤ second.inFeatures / n := by
        obtain rfl | hzero := hone
        · rw [Nat.div_one, hfit]
        · rw [hfit, hzero, Nat.zero_div]
      rw [hoff, Mat.colSlice_all h hle]
    have hforward := RowParallelLinear.forward_eq_iff hn hdvd hsecond true hshard
    rw [and_iff_right hone, ← hbias, ← hforward]
    constructor
    · intro hexact
      have hrank := hexact y hy 0 (Nat.pos_of_ne_zero hn)
      rwa [sharded_pair] at hrank
    · intro hrank y' hy' rank _
      rw [sharded_pair, hrank]
      exact hy.symm.trans hy'
  · refine iff_of_false ?_ fun hboth => hone hboth.1
    intro hexact
    have hrank := hexact y hy 0 (Nat.pos_of_ne_zero hn)
    rw [sharded_pair, forward_whole_input (by omega) hdvd (by omega) hfit
      (hinputs 0 (Nat.pos_of_ne_zero hn))] at hrank
    cases hrank

end Runs

/-! ## Two ranks -/

/-- A layer of two inputs and one output, with a bias. -/
def biased : LinearParams ℚ where
  weight := ⟨2, [[1, 1]], by decide⟩
  bias := some [1]
  fits := by decide

/-- A layer of two inputs and two outputs, without one. -/
def unbiased : LinearParams ℚ where
  weight := ⟨2, [[1, 0], [0, 1]], by decide⟩
  bias := none
  fits := by decide

def ones : Mat ℚ := ⟨2, [[1, 1]], by decide⟩

end TpRun

end CompileForge.Compiler.TensorParallel
