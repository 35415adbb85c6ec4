/-
  A prompt fed to the KV cache of one layer in consecutive chunks.
-/

import CompileForge.Runtime.Cache.InterceptStore
import CompileForge.Runtime.Cache.LedgerRun
import CompileForge.Runtime.Engine.Types

namespace CompileForge.Runtime

open Lib List

/-! ## Where the rows of a chunk land -/

/-- The producer hook writes a one-token chunk at its position and every other chunk from position
    0 on. -/
def landing (start len : Nat) : Nat := if len = 1 then start else 0

/-- The position whose row lies at each position of the cache after the chunks from `start`. -/
def sourceAfter : List Nat → Nat → (Nat → Option Nat) → Nat → Option Nat
  | [], _, src => src
  | len :: rest, start, src =>
    sourceAfter rest (start + len) fun p =>
      if landing start len ≤ p ∧ p < landing start len + len then
        some (start + (p - landing start len))
      else src p

variable {chunks : List Nat} {start a len : Nat} {src : Nat → Option Nat}

theorem sourceAfter_ones (hones : ∀ c ∈ chunks, c = 1) (start : Nat)
    (src : Nat → Option Nat) (p : Nat) :
    sourceAfter chunks start src p =
      if start ≤ p ∧ p < start + chunks.sum then some p else src p := by
  induction chunks generalizing start src with
  | nil => simp [sourceAfter]
  | cons c chunks ih =>
    obtain rfl : c = 1 := hones c mem_cons_self
    rw [sourceAfter, ih fun c hc => hones c (mem_cons_of_mem 1 hc), sum_cons]
    simp only [landing, if_pos]
    by_cases hlater : start + 1 ≤ p ∧ p < start + 1 + chunks.sum
    · rw [if_pos hlater, if_pos (by omega)]
    · rw [if_neg hlater]
      by_cases hthis : start ≤ p ∧ p < start + 1
      · rw [if_pos hthis, if_pos (by omega)]
        congr 1
        omega
      · rw [if_neg hthis, if_neg (by omega)]

theorem sourceAfter_before (chunks : List Nat) (hend : start + chunks.sum ≤ a)
    (rest : List Nat) (src : Nat → Option Nat) (hsrc : src a = none) :
    ∃ src', src' a = none ∧
      sourceAfter (chunks ++ rest) start src = sourceAfter rest (start + chunks.sum) src' := by
  induction chunks generalizing start src with
  | nil => exact ⟨src, hsrc, rfl⟩
  | cons c chunks ih =>
    rw [sum_cons] at hend
    rw [cons_append, sourceAfter, sum_cons, ← add_assoc]
    refine ih (by omega) _ ?_
    have hlanding : landing start c ≤ start := by
      unfold landing
      split
      · exact Nat.le_refl start
      · exact Nat.zero_le start
    rw [if_neg (by omega), hsrc]

theorem sourceAfter_after (hstart : a < start)
    (hsrc : src a ≠ some a) : sourceAfter chunks start src a ≠ some a := by
  induction chunks generalizing start src with
  | nil => exact hsrc
  | cons c chunks ih =>
    rw [sourceAfter]
    refine ih (by omega) ?_
    by_cases hin : landing start c ≤ a ∧ a < landing start c + c
    · rw [if_pos hin]
      intro heq
      have hshift : start + (a - landing start c) = a := Option.some.inj heq
      omega
    · rw [if_neg hin]
      exact hsrc

theorem sourceAfter_iff (hpos : ∀ c ∈ chunks, 0 < c) :
    (∀ p < chunks.sum, sourceAfter chunks 0 (fun _ => none) p = some p) ↔
      ∀ c ∈ chunks.tail, c = 1 := by
  cases chunks with
  | nil => simp
  | cons first rest =>
    have hfirst : landing 0 first = 0 := by
      unfold landing
      split <;> rfl
    rw [tail_cons, sum_cons]
    constructor
    · intro hall
      by_contra hbad
      simp only [not_forall] at hbad
      obtain ⟨c, hc, hne⟩ := hbad
      -- `c` is a later chunk of several tokens: it starts at `a`
      obtain ⟨pre, post, rfl⟩ := append_of_mem hc
      have hfirstpos : 0 < first := hpos first mem_cons_self
      have hcpos : 0 < c := hpos c (mem_cons_of_mem first hc)
      have hend : 0 + (first :: pre).sum ≤ first + pre.sum := by
        rw [sum_cons]
        omega
      obtain ⟨src, hsrc, heq⟩ := sourceAfter_before (first :: pre) hend (c :: post)
        (fun _ => none) rfl
      have hrow := hall (first + pre.sum) (by rw [sum_append, sum_cons]; omega)
      rw [cons_append] at heq
      rw [heq, sourceAfter, sum_cons] at hrow
      refine sourceAfter_after (by omega) ?_ hrow
      have hland : landing (0 + (first + pre.sum)) c = 0 := if_neg hne
      rw [hland]
      split
      · intro hshift
        have := Option.some.inj hshift
        omega
      · rw [hsrc]
        exact Option.some_ne_none _ |>.symm
    · intro hones p hp
      rw [sourceAfter, sourceAfter_ones hones, hfirst]
      by_cases hlater : 0 + first ≤ p ∧ p < 0 + first + rest.sum
      · rw [if_pos hlater]
      · rw [if_neg hlater, if_pos (by omega)]
        congr 1
        omega

/-! ## The chunks of a prompt -/

structure KvOutput (isKey : Bool) where
  oi : Nat
  funcDefOutputs : List IOTensorDef
  overrideIsKey : Bool
  isKey_eq : isKeyOutput funcDefOutputs oi overrideIsKey = isKey

/-- A layer of the graph with its key and value outputs. -/
structure KvLayer where
  fi : Nat
  heads : Nat
  dim : Nat
  output : (isKey : Bool) → KvOutput isKey
  slab : Option SlabSpec
  slab_fits : SlabFits slab heads dim
  hiddenDim_pos : 0 < heads * dim

/-- The width of a row. -/
def KvLayer.hiddenDim (layer : KvLayer) : Nat := layer.heads * layer.dim

/-- The rows of a prompt, all of one width. -/
structure PromptRows (hiddenDim : Nat) where
  row : Bool → Nat → List F32
  length_row : ∀ isKey p, (row isKey p).length = hiddenDim

variable {bm : BlockManager} {rid : String} {ids : List Nat} {layer : KvLayer}

/-- One output over `[start, start + len)`, `none` where the hook panics or fails. -/
def feedOutput (layer : KvLayer) (rid : String) (rows : PromptRows layer.hiddenDim)
    (start len : Nat) (isKey : Bool) (fed : KvNew × BlockManager) :
    Option (KvNew × BlockManager) :=
  let chunk := (range' start len).map (rows.row isKey)
  let isDecode := len = 1
  match interceptConsumedOutput layer.fi (layer.output isKey).oi
      (bnsd layer.heads layer.dim chunk) fed.1 (some fed.2) (some rid)
      (u32Range start (start + len)) isDecode (layer.output isKey).funcDefOutputs layer.slab
      (layer.output isKey).overrideIsKey with
  | some (.ok (), kvNew, some bm) => some (kvNew, bm)
  | _ => none

/-- The keys and the values of one chunk, with a fresh `kv_new`. -/
def feedChunk (layer : KvLayer) (rid : String) (rows : PromptRows layer.hiddenDim)
    (start len : Nat) (bm : BlockManager) : Option BlockManager := do
  let fed ← feedOutput layer rid rows start len true (∅, bm)
  let fed ← feedOutput layer rid rows start len false fed
  some fed.2

/-- Consecutive chunks from position `start` on. -/
def feedChunks (layer : KvLayer) (rid : String) (rows : PromptRows layer.hiddenDim) :
    Nat → List Nat → BlockManager → Option BlockManager
  | _, [], bm => some bm
  | start, len :: rest, bm => do
      let bm ← feedChunk layer rid rows start len bm
      feedChunks layer rid rows (start + len) rest bm

variable (rows : PromptRows layer.hiddenDim)

section Feeds

variable (htable : bm.blockTables.lookup (layerRid rid layer.fi) = some ids)
  (hpaged : bm.Paged ids layer.hiddenDim)
include htable hpaged

theorem feedOutput_spec (hlen : 0 < len) (hcover : start + len ≤ bm.blockSize * ids.length)
    (hu32 : start + len < 2 ^ 32) (isKey : Bool) (kvNew : KvNew) :
    ∃ kvNew' bm', feedOutput layer rid rows start len isKey (kvNew, bm) = some (kvNew', bm') ∧
      BlockManager.SameLedger bm bm' ∧ bm'.Paged ids layer.hiddenDim ∧
      ∀ isKey' p, bm'.rowAt ids layer.hiddenDim isKey' p =
        if isKey' = isKey ∧ landing start len ≤ p ∧ p < landing start len + len then
          rows.row isKey' (start + (p - landing start len))
        else bm.rowAt ids layer.hiddenDim isKey' p := by
  have hle : start ≤ start + len := Nat.le_add_right start len
  have hchunk : ((range' start len).map (rows.row isKey)).length = len := by
    rw [length_map, length_range']
  have hwidth : ∀ r ∈ (range' start len).map (rows.row isKey),
      r.length = layer.heads * layer.dim := by
    intro r hr
    obtain ⟨p, -, rfl⟩ := mem_map.1 hr
    exact rows.length_row isKey p
  have hpositions : (u32Range start (start + len)).length =
      ((range' start len).map (rows.row isKey)).length := by
    rw [length_u32Range hle hu32, hchunk, Nat.add_sub_cancel_left]
  have hne : (range' start len).map (rows.row isKey) ≠ [] := by
    rw [← length_pos_iff, hchunk]
    exact hlen
  -- a one-token chunk is written from `positions[0]`, which is `start`
  have hstart : writeStart (u32Range start (start + len)) (decide (len = 1)) =
      some (landing start len) := by
    rw [u32Range_eq hle hu32, Nat.add_sub_cancel_left]
    unfold writeStart landing
    by_cases hone : len = 1
    · subst hone
      have hlt : start < 2 ^ 32 := by omega
      have hcast : (UInt32.ofNat start).toNat = start := UInt32.toNat_ofNat_of_lt' hlt
      simp [range', hcast]
    · simp [hone]
  have hland : landing start len ≤ start := by
    unfold landing
    split <;> omega
  obtain ⟨bm', hwrite, hledger, hpaged', hrowsAt⟩ := interceptConsumedOutput_spec htable hpaged
    layer.hiddenDim_pos layer.slab_fits hwidth hne hpositions hstart (by rw [hchunk]; omega)
    (layer.output isKey).oi kvNew (layer.output isKey).funcDefOutputs
    (layer.output isKey).overrideIsKey
  obtain ⟨kvNew', hfeed⟩ : ∃ kvNew', feedOutput layer rid rows start len isKey (kvNew, bm) =
      some (kvNew', bm') := by
    simp only [feedOutput, hwrite]
    exact ⟨_, rfl⟩
  refine ⟨kvNew', bm', hfeed, hledger, hpaged', fun isKey' p => ?_⟩
  have hrow := hrowsAt isKey' p
  rw [(layer.output isKey).isKey_eq, hchunk] at hrow
  refine hrow.trans (if_ctx_congr Iff.rfl (fun hin => ?_) fun _ => rfl)
  obtain ⟨rfl, hfrom, hto⟩ := hin
  rw [getD_eq_getElem?_getD, getElem?_map, getElem?_range' (by omega), one_mul]
  rfl

theorem feedChunk_spec (hlen : 0 < len) (hcover : start + len ≤ bm.blockSize * ids.length)
    (hu32 : start + len < 2 ^ 32) :
    ∃ bm', feedChunk layer rid rows start len bm = some bm' ∧
      BlockManager.SameLedger bm bm' ∧ bm'.Paged ids layer.hiddenDim ∧
      ∀ isKey p, bm'.rowAt ids layer.hiddenDim isKey p =
        if landing start len ≤ p ∧ p < landing start len + len then
          rows.row isKey (start + (p - landing start len))
        else bm.rowAt ids layer.hiddenDim isKey p := by
  obtain ⟨kvNew, bmK, hK, hledgerK, hpagedK, hrowsK⟩ :=
    feedOutput_spec rows htable hpaged hlen hcover hu32 true ∅
  have htableK : bmK.blockTables.lookup (layerRid rid layer.fi) = some ids := by
    rw [hledgerK.blockTables_eq]
    exact htable
  have hcoverK : start + len ≤ bmK.blockSize * ids.length := by
    rw [hledgerK.blockSize_eq]
    exact hcover
  obtain ⟨kvNew', bmV, hV, hledgerV, hpagedV, hrowsV⟩ :=
    feedOutput_spec rows htableK hpagedK hlen hcoverK hu32 false kvNew
  refine ⟨bmV, ?_, hledgerK.trans hledgerV, hpagedV, fun isKey p => ?_⟩
  · simp only [feedChunk, hK, hV, Option.bind_eq_bind, Option.bind_some]
  · rw [hrowsV isKey p, hrowsK isKey p]
    cases isKey with
    | true => simp
    | false => simp

/-- After all chunks the pool holds, at every position, the row `sourceAfter` names. -/
theorem feedChunks_spec (hpos : ∀ c ∈ chunks, 0 < c)
    (hcover : start + chunks.sum ≤ bm.blockSize * ids.length) (hu32 : start + chunks.sum < 2 ^ 32)
    (init : Bool → Nat → List F32)
    (hsrc : ∀ isKey p, bm.rowAt ids layer.hiddenDim isKey p = (src p).elim (init isKey p)
      (rows.row isKey)) :
    ∃ bm', feedChunks layer rid rows start chunks bm = some bm' ∧
      BlockManager.SameLedger bm bm' ∧ bm'.Paged ids layer.hiddenDim ∧
      ∀ isKey p, bm'.rowAt ids layer.hiddenDim isKey p =
        (sourceAfter chunks start src p).elim (init isKey p) (rows.row isKey) := by
  induction chunks generalizing bm start src with
  | nil => exact ⟨bm, rfl, .refl bm, hpaged, hsrc⟩
  | cons len chunks ih =>
    rw [sum_cons, ← add_assoc] at hcover hu32
    have hlen : 0 < len := hpos len mem_cons_self
    have hcover1 : start + len ≤ bm.blockSize * ids.length := by omega
    have hu321 : start + len < 2 ^ 32 := by omega
    obtain ⟨bm1, hfeed, hledger1, hpaged1, hrows1⟩ :=
      feedChunk_spec rows htable hpaged hlen hcover1 hu321
    have hsrc1 : ∀ isKey p, bm1.rowAt ids layer.hiddenDim isKey p =
        (if landing start len ≤ p ∧ p < landing start len + len then
          some (start + (p - landing start len)) else src p).elim
            (init isKey p) (rows.row isKey) := by
      intro isKey p
      rw [hrows1 isKey p, hsrc isKey p]
      split
      · rfl
      · rfl
    have htable1 : bm1.blockTables.lookup (layerRid rid layer.fi) = some ids := by
      rw [hledger1.blockTables_eq]
      exact htable
    have hcoverRest : start + len + chunks.sum ≤ bm1.blockSize * ids.length := by
      rw [hledger1.blockSize_eq]
      exact hcover
    obtain ⟨bm2, hrest, hledger2, hpaged2, hrows2⟩ := ih htable1 hpaged1
      (fun c hc => hpos c (mem_cons_of_mem len hc)) hcoverRest hu32 hsrc1
    refine ⟨bm2, ?_, hledger1.trans hledger2, hpaged2, hrows2⟩
    simp only [feedChunks, hfeed, Option.bind_eq_bind, Option.bind_some]
    exact hrest

end Feeds

/-! ## Reading the prompt back -/

/-- The cache holds the rows of the first `n` positions. -/
def CacheReads (bm : BlockManager) (rid : String) (layer : KvLayer)
    (rows : PromptRows layer.hiddenDim) (n : Nat) : Prop :=
  bm.readKv (layerRid rid layer.fi) n layer.hiddenDim =
    some (.ok ((range n).flatMap (rows.row true), (range n).flatMap (rows.row false)))

theorem cacheReads_iff (htable : bm.blockTables.lookup (layerRid rid layer.fi) = some ids)
    (hpaged : bm.Paged ids layer.hiddenDim) {n : Nat} (hcover : n ≤ bm.blockSize * ids.length) :
    CacheReads bm rid layer rows n ↔
      ∀ isKey, ∀ p < n, bm.rowAt ids layer.hiddenDim isKey p = rows.row isKey p := by
  have hread := BlockManager.readKv_spec htable hpaged.cached hcover
  rw [CacheReads, hread]
  constructor
  · intro heq isKey p hp
    have hsame : (range n).flatMap (bm.rowAt ids layer.hiddenDim isKey) =
        (range n).flatMap (rows.row isKey) := by
      injection heq with heq
      injection heq with heq
      injection heq with hkeys hvalues
      cases isKey with
      | true => exact hkeys
      | false => exact hvalues
    have hrange : (range n)[p]? = some p := getElem?_range hp
    have hwidth : ∀ i ∈ range n,
        (bm.rowAt ids layer.hiddenDim isKey i).length = layer.hiddenDim := by
      intro i hi
      have hin : i < n := mem_range.1 hi
      exact BlockManager.length_rowAt hpaged.cached (Nat.div_lt_of_lt_mul (by omega))
    rw [← slice_flatMap_window hwidth hrange, hsame,
      slice_flatMap_window (fun i _ => rows.length_row isKey i) hrange]
  · intro hall
    rw [flatMap_congr fun p hp => hall true p (mem_range.1 hp),
      flatMap_congr fun p hp => hall false p (mem_range.1 hp)]

theorem exists_distinctRows (hiddenDim : Nat) (hdim : 0 < hiddenDim) (a : Nat) (old : List F32) :
    ∃ rows : PromptRows hiddenDim,
      rows.row true a ≠ old ∧ ∀ p, p ≠ a → rows.row true p ≠ rows.row true a := by
  obtain ⟨x, hx, hold⟩ : ∃ x : F32, x ≠ 0 ∧ x ≠ old.headD 0 := by
    by_cases h : old.headD 0 = ⟨1⟩
    · exact ⟨⟨2⟩, by decide, by rw [h]; decide⟩
    · exact ⟨⟨1⟩, by decide, fun heq => h heq.symm⟩
  have hhead : ∀ y : F32, (replicate hiddenDim y).headD 0 = y := by
    intro y
    obtain ⟨d, rfl⟩ := Nat.exists_eq_succ_of_ne_zero (ne_of_gt hdim)
    rfl
  refine ⟨⟨fun _ p => replicate hiddenDim (if p = a then x else 0),
    fun _ _ => length_replicate⟩, ?_, ?_⟩
  · intro heq
    refine hold ?_
    rw [← heq, hhead, if_pos rfl]
  · intro p hp heq
    have hsame := congrArg (List.headD · 0) heq
    dsimp only at hsame
    rw [hhead, hhead, if_neg hp, if_pos rfl] at hsame
    exact hx hsame.symm

/-- A chunked prefill reads back as the prompt exactly when later chunks are single tokens. -/
theorem chunkedPrefill_iff {chunks : List Nat}
    (htable : bm.blockTables.lookup (layerRid rid layer.fi) = some ids)
    (hpaged : bm.Paged ids layer.hiddenDim) (hpos : ∀ c ∈ chunks, 0 < c)
    (hcover : chunks.sum ≤ bm.blockSize * ids.length) (hu32 : chunks.sum < 2 ^ 32) :
    (∀ rows : PromptRows layer.hiddenDim, ∃ bm', feedChunks layer rid rows 0 chunks bm = some bm' ∧
      CacheReads bm' rid layer rows chunks.sum) ↔ ∀ c ∈ chunks.tail, c = 1 := by
  -- for given rows, the cache reads back iff every row is at its place
  have hfed : ∀ rows : PromptRows layer.hiddenDim, ∃ bm',
      feedChunks layer rid rows 0 chunks bm = some bm' ∧
      (CacheReads bm' rid layer rows chunks.sum ↔ ∀ isKey, ∀ p < chunks.sum,
        (sourceAfter chunks 0 (fun _ => none) p).elim (bm.rowAt ids layer.hiddenDim isKey p)
          (rows.row isKey) = rows.row isKey p) := by
    intro rows
    have hnone : ∀ isKey p, bm.rowAt ids layer.hiddenDim isKey p = Option.elim none
        (bm.rowAt ids layer.hiddenDim isKey p) (rows.row isKey) := fun _ _ => rfl
    obtain ⟨bm', hfeed, hledger, hpaged', hrows⟩ := feedChunks_spec rows htable hpaged
      hpos (by rwa [zero_add]) (by rwa [zero_add]) (bm.rowAt ids layer.hiddenDim) hnone
    have htable' : bm'.blockTables.lookup (layerRid rid layer.fi) = some ids := by
      rw [hledger.blockTables_eq]
      exact htable
    have hcover' : chunks.sum ≤ bm'.blockSize * ids.length := by
      rw [hledger.blockSize_eq]
      exact hcover
    refine ⟨bm', hfeed, (cacheReads_iff rows htable' hpaged' hcover').trans ?_⟩
    simp only [hrows]
  rw [← sourceAfter_iff hpos]
  constructor
  · intro hall p hp
    -- rows that differ at `p` show where the row found there came from
    obtain ⟨rows, hold, hother⟩ := exists_distinctRows layer.hiddenDim layer.hiddenDim_pos p
      (bm.rowAt ids layer.hiddenDim true p)
    obtain ⟨bm', hfeed, hread⟩ := hall rows
    obtain ⟨bm'', hfeed', hiff⟩ := hfed rows
    rw [hfeed] at hfeed'
    cases hfeed'
    have hrow := hiff.1 hread true p hp
    cases hsource : sourceAfter chunks 0 (fun _ => none) p with
    | none =>
      rw [hsource] at hrow
      exact absurd hrow.symm hold
    | some q =>
      rw [hsource] at hrow
      by_cases hq : q = p
      · rw [hq]
      · exact absurd hrow (hother q hq)
  · intro hplaced rows
    obtain ⟨bm', hfeed, hiff⟩ := hfed rows
    refine ⟨bm', hfeed, hiff.2 fun isKey p hp => ?_⟩
    rw [hplaced p hp]
    rfl

/-! ## Two partitions of four tokens -/

theorem oneHeadLayer_fits : SlabFits none 1 1 := slabFits_none 1 1

/-- A layer with one head of one dimension, keys and values from two functions. -/
def oneHeadLayer : KvLayer where
  fi := 0
  heads := 1
  dim := 1
  output := fun isKey => ⟨0, [⟨true⟩], isKey, by cases isKey <;> rfl⟩
  slab := none
  slab_fits := oneHeadLayer_fits
  hiddenDim_pos := one_pos

/-- The row of position `p` is `p`. -/
def numberedRows : PromptRows oneHeadLayer.hiddenDim where
  row := fun _ p => [⟨UInt32.ofNat p⟩]
  length_row := fun _ _ => rfl

theorem chunkedPrefill_iff_witness :
    ∃ bm0 ids bm, BlockManager.newWithCache 2 2 1 1 = .ok bm0 ∧
      bm0.allocate (layerRid "r" 0) 4 = (.ok ids, bm) ∧
      ∀ rows : PromptRows oneHeadLayer.hiddenDim, ∃ bm',
        feedChunks oneHeadLayer "r" rows 0 [2, 1, 1] bm = some bm' ∧
        CacheReads bm' "r" oneHeadLayer rows 4 := by
  obtain ⟨bm0, hbm0⟩ : ∃ bm, BlockManager.newWithCache 2 2 1 1 = .ok bm := ⟨_, rfl⟩
  obtain ⟨bm, hok, hsize⟩ : ∃ bm, bm0.allocate (layerRid "r" 0) 4 = (.ok [1, 0], bm) ∧
      bm.blockSize = 2 := by
    cases hbm0
    exact ⟨_, rfl, rfl⟩
  obtain ⟨htable, hpaged⟩ := BlockManager.paged_allocate
    (BlockManager.Fresh.exact (.inr ⟨2, 2, 1, 1, hbm0⟩)) (BlockManager.buffered_newWithCache hbm0)
      hok
  have hcover : [2, 1, 1].sum ≤ bm.blockSize * [1, 0].length := by
    rw [hsize]
    decide
  have hones : ∀ c ∈ [2, 1, 1].tail, c = 1 := by decide
  have htable' : bm.blockTables.lookup (layerRid "r" oneHeadLayer.fi) = some [1, 0] := htable
  exact ⟨bm0, [1, 0], bm, hbm0, hok,
    (chunkedPrefill_iff htable' hpaged (by decide) hcover (by decide)).2 hones⟩

/-- The second of two chunks overwrites the first, and positions `2, 3` were never written. -/
theorem chunkedPrefill_fails_on_second_chunk :
    ∃ bm0 ids bm bm', BlockManager.newWithCache 2 2 1 1 = .ok bm0 ∧
      bm0.allocate (layerRid "r" 0) 4 = (.ok ids, bm) ∧
      feedChunks oneHeadLayer "r" numberedRows 0 [2, 2] bm = some bm' ∧
      bm'.readKv (layerRid "r" 0) 4 1 = some (.ok ([⟨2⟩, ⟨3⟩, ⟨0⟩, ⟨0⟩], [⟨2⟩, ⟨3⟩, ⟨0⟩, ⟨0⟩])) ∧
      ¬ CacheReads bm' "r" oneHeadLayer numberedRows 4 := by
  obtain ⟨bm0, hbm0⟩ : ∃ bm, BlockManager.newWithCache 2 2 1 1 = .ok bm := ⟨_, rfl⟩
  obtain ⟨bm, bm', hok, hfeed, hread⟩ : ∃ bm bm',
      bm0.allocate (layerRid "r" 0) 4 = (.ok [1, 0], bm) ∧
      feedChunks oneHeadLayer "r" numberedRows 0 [2, 2] bm = some bm' ∧
      bm'.readKv (layerRid "r" 0) 4 1 =
        some (.ok ([⟨2⟩, ⟨3⟩, ⟨0⟩, ⟨0⟩], [⟨2⟩, ⟨3⟩, ⟨0⟩, ⟨0⟩])) := by
    cases hbm0
    exact ⟨_, _, rfl, rfl, rfl⟩
  refine ⟨bm0, [1, 0], bm, bm', hbm0, hok, hfeed, hread, fun h => ?_⟩
  rw [CacheReads] at h
  injection hread.symm.trans h with h
  injection h with h
  injection h with hkeys _
  exact absurd hkeys (by decide)

end CompileForge.Runtime
