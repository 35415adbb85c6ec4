/-
  A cache policy of the compiler reaches the runtime through `metadata.json`
  (`CachePolicy.to_dict`, read by `CachePolicy::from_dict`) or through the dylib
  (`serialize_cache_policy`, read by `CachePolicy::from_proto`).
-/

import CompileForge.Compiler.CachePolicy
import CompileForge.Runtime.Cache.Contract
import CompileForge.Runtime.Cache.PolicyJson

namespace CompileForge.Abi

open Lib CompileForge.Runtime List

structure PySlab where
  slabId : String
  storage : String
  dims : AList fun _ : String => Int
  layout : String
  dtype : String

structure PyIntercept where
  slabId : String
  opName : String
  direction : String
  source : String
  layer : String
  funcIndex : Option Int
  outputIndex : Option Int

/-- The numbers of a policy are the integers Python has; the policies of `Compiler/CachePolicy` are
    those without negative ones. -/
structure PyPolicy where
  slabs : List PySlab
  intercepts : List PyIntercept
  blockSize : Int
  maxRequests : Int

/-! ## to_dict -/

def PySlab.toDict (s : PySlab) : Json :=
  .obj [("slab_id", .str s.slabId), ("storage", .str s.storage),
    ("dims", .obj (s.dims.entries.map fun e => (e.1, .num e.2))), ("layout", .str s.layout),
    ("dtype", .str s.dtype)]

/-- An index that is not set is left out. -/
def indexField (key : String) (index : Option Int) : List (String × Json) :=
  index.toList.map fun n => (key, .num n)

variable (i : PyIntercept)

def PyIntercept.toDict : Json :=
  .obj ([("slab_id", .str i.slabId), ("op_name", .str i.opName), ("direction", .str i.direction),
    ("source", .str i.source), ("layer", .str i.layer)] ++
    indexField "func_index" i.funcIndex ++ indexField "output_index" i.outputIndex)

def PyPolicy.toDict (p : PyPolicy) : Json :=
  .obj [("slabs", .arr (p.slabs.map PySlab.toDict)),
    ("intercepts", .arr (p.intercepts.map PyIntercept.toDict)),
    ("block_size", .num p.blockSize), ("max_requests", .num p.maxRequests)]

/-! ## serialize_cache_policy -/

/-- A `uint32` field; an integer out of range raises. -/
def uint32Field (n : Int) : Option Nat := if 0 ≤ n ∧ n < 2 ^ 32 then some n.toNat else none

def PySlab.dim (s : PySlab) (key : String) : Int := (s.dims.lookup key).getD 0

variable (blockSize : Int)

/-- The message keeps four dims of a slab. -/
def PySlab.serialize (s : PySlab) : Option SfaSlabSpec := do
  let numBlocks ← uint32Field (s.dim "blocks")
  let blockSize ← uint32Field blockSize
  let numLayers ← uint32Field (s.dim "layers")
  let numHeads ← uint32Field (s.dim "heads")
  let headDim ← uint32Field (s.dim "dim")
  some ⟨s.slabId, s.storage, s.layout, s.dtype, numBlocks, blockSize, numLayers, numHeads, headDim⟩

/-- Indices that are not set are left out. -/
def PyIntercept.serialize : Option SfaInterceptSpec := do
  let paramIndices ← (i.funcIndex.toList ++ i.outputIndex.toList).mapM uint32Field
  some ⟨i.slabId, i.opName, i.direction, i.source, i.layer, paramIndices⟩

/-- The message has no field that is not set. -/
def PyPolicy.serialize (p : PyPolicy) : Option SfaCachePolicy := do
  let slabs ← p.slabs.mapM (PySlab.serialize p.blockSize)
  let intercepts ← p.intercepts.mapM PyIntercept.serialize
  let blockSize ← uint32Field p.blockSize
  let maxRequests ← uint32Field p.maxRequests
  some ⟨slabs, intercepts, blockSize, maxRequests⟩

/-! ## What is serialized -/

/-- The integer fits a `uint32` field. -/
def InU32 (n : Int) : Prop := 0 ≤ n ∧ n < 2 ^ 32

def PyIntercept.indices : List Int :=
  i.funcIndex.toList ++ i.outputIndex.toList

def messageDims : List String := ["blocks", "layers", "heads", "dim"]

/-- The numbers the message carries fit their fields. -/
structure PyPolicy.Fits (p : PyPolicy) : Prop where
  slabs : ∀ s ∈ p.slabs, ∀ key ∈ messageDims, InU32 (s.dim key)
  intercepts : ∀ i ∈ p.intercepts, ∀ n ∈ i.indices, InU32 n
  blockSize : InU32 p.blockSize
  maxRequests : InU32 p.maxRequests

def PySlab.message (s : PySlab) : SfaSlabSpec :=
  ⟨s.slabId, s.storage, s.layout, s.dtype, (s.dim "blocks").toNat, blockSize.toNat,
    (s.dim "layers").toNat, (s.dim "heads").toNat, (s.dim "dim").toNat⟩

def PyIntercept.message : SfaInterceptSpec :=
  ⟨i.slabId, i.opName, i.direction, i.source, i.layer, i.indices.map Int.toNat⟩

def PyPolicy.message (p : PyPolicy) : SfaCachePolicy :=
  ⟨p.slabs.map (PySlab.message p.blockSize), p.intercepts.map PyIntercept.message,
    p.blockSize.toNat, p.maxRequests.toNat⟩

theorem uint32Field_eq_some (n : Int) (k : Nat) :
    uint32Field n = some k ↔ InU32 n ∧ k = n.toNat := by
  rw [uint32Field, InU32]
  split
  case isTrue h => rw [Option.some_inj, and_iff_right h, eq_comm]
  case isFalse h => exact iff_of_false (nofun) fun hk => h hk.1

theorem PyIntercept.serialize_eq_some (c : SfaInterceptSpec) :
    i.serialize = some c ↔ (∀ n ∈ i.indices, InU32 n) ∧ c = i.message := by
  refine (bind_fits fun _ => mapM_eq_some_iff uint32Field_eq_some).trans ?_
  rw [Option.some_inj, eq_comm]
  rfl

theorem PySlab.serialize_eq_some (s : PySlab) (c : SfaSlabSpec) : s.serialize blockSize = some c ↔
      (InU32 blockSize ∧ ∀ key ∈ messageDims, InU32 (s.dim key)) ∧ c = s.message blockSize := by
  have hdims : (∀ key ∈ messageDims, InU32 (s.dim key)) ↔ InU32 (s.dim "blocks") ∧
      InU32 (s.dim "layers") ∧ InU32 (s.dim "heads") ∧ InU32 (s.dim "dim") := by
    simp [messageDims]
  simp only [PySlab.serialize, bind_fits (uint32Field_eq_some _), Option.some_inj, hdims,
    and_assoc, eq_comm (b := c)]
  exact and_left_comm

variable {p : PyPolicy} {s : PySlab} {c : Runtime.CachePolicy} {n : Int}

theorem PyPolicy.serialize_eq_some {m : SfaCachePolicy} :
    p.serialize = some m ↔ p.Fits ∧ m = p.message := by
  rw [PyPolicy.serialize,
    bind_fits fun _ => mapM_eq_some_iff (PySlab.serialize_eq_some p.blockSize),
    bind_fits fun _ => mapM_eq_some_iff PyIntercept.serialize_eq_some,
    bind_fits (uint32Field_eq_some _), bind_fits (uint32Field_eq_some _), Option.some_inj]
  constructor
  · rintro ⟨hslabs, hintercepts, hblock, hrequests, rfl⟩
    exact ⟨⟨fun s hs => (hslabs s hs).2, hintercepts, hblock, hrequests⟩, rfl⟩
  · rintro ⟨hfits, rfl⟩
    exact ⟨fun s hs => ⟨hfits.blockSize, hfits.slabs s hs⟩, hfits.intercepts, hfits.blockSize,
      hfits.maxRequests, rfl⟩

/-! ## What the runtime reads of the dict -/

/-- The integer is one `as_u64` gives. -/
def InU64 (n : Int) : Prop := 0 ≤ n ∧ n < 2 ^ 64
deriving Decidable

/-- An index that is set and is one `as_u64` gives. -/
def readIndex (index : Option Int) : Option Nat :=
  index.bind fun n => if InU64 n then some n.toNat else none

def PyIntercept.read : Option Runtime.InterceptSpec :=
  match readIndex i.funcIndex, readIndex i.outputIndex with
  | some funcIndex, some outputIndex =>
    some ⟨i.slabId, i.opName, i.direction, i.source, i.layer, funcIndex, outputIndex⟩
  | _, _ => none

theorem interceptFields : ∃ io, i.toDict.asObject = some io ∧
    Json.getU64 io "func_index" = readIndex i.funcIndex ∧
    Json.getU64 io "output_index" = readIndex i.outputIndex ∧
    Json.getStr io "slab_id" = some i.slabId ∧ Json.getStr io "op_name" = some i.opName ∧
    Json.getStr io "direction" = some i.direction ∧ Json.getStr io "source" = some i.source ∧
    Json.getStr io "layer" = some i.layer := by
  obtain ⟨slabId, opName, direction, source, layer, funcIndex, outputIndex⟩ := i
  refine ⟨_, rfl, ?_, ?_, rfl, rfl, rfl, rfl, rfl⟩
  · cases funcIndex with
    | some => rfl
    | none =>
      cases outputIndex with
      | some => rfl
      | none => rfl
  · cases funcIndex with
    | some =>
      cases outputIndex with
      | some => rfl
      | none => rfl
    | none =>
      cases outputIndex with
      | some => rfl
      | none => rfl

theorem interceptFromJson_toDict : interceptFromJson i.toDict = .ok i.read := by
  obtain ⟨io, hio, hfunc, houtput, hslab, hop, hdirection, hsource, hlayer⟩ := interceptFields i
  rw [interceptFromJson, hio, PyIntercept.read]
  simp only [okOr, bind, Except.bind, pure, Except.pure, hfunc, houtput, hslab, hop, hdirection,
    hsource, hlayer, Option.getD_some]
  cases readIndex i.funcIndex with
  | none => rfl
  | some =>
    cases readIndex i.outputIndex with
    | none => rfl
    | some => rfl

theorem foldlM_dims {l : List (Sigma fun _ : String => Int)} (hnodup : l.NodupKeys)
    (hfit : ∀ e ∈ l, InU64 e.2) (acc : AList fun _ : String => Nat) :
    ∃ dims, (l.map fun e => (e.1, Json.num e.2)).foldlM (fun dims (kv : String × Json) => do
        let n ← okOr s!"dims.{kv.1}: expected integer" kv.2.asU64
        return dims.insert kv.1 n) acc = (.ok dims : Except String _) ∧
      ∀ key, dims.lookup key = ((l.dlookup key).map Int.toNat).or (acc.lookup key) := by
  induction l generalizing acc with
  | nil => exact ⟨acc, rfl, fun _ => rfl⟩
  | cons e l ih =>
    obtain ⟨hnot, hnodup'⟩ := nodupKeys_cons.1 hnodup
    obtain ⟨dims, hdims, hlookup⟩ := ih hnodup' (fun e' he' => hfit e' (mem_cons_of_mem _ he'))
      (acc.insert e.1 e.2.toNat)
    have hfirst : InU64 e.2 := hfit e mem_cons_self
    refine ⟨dims, ?_, fun key => ?_⟩
    · rw [map_cons, foldlM_cons]
      have hread : (Json.num e.2).asU64 = some e.2.toNat := if_pos hfirst
      simp only [hread, okOr]
      exact hdims
    · rw [hlookup]
      by_cases hkey : key = e.1
      · rw [hkey, dlookup_eq_none.2 hnot, dlookup_cons_eq, AList.lookup_insert]
        rfl
      · rw [dlookup_cons_ne l e hkey, AList.lookup_insert_ne hkey]

theorem dimsFromJson_eq_ok (d : AList fun _ : String => Int) :
    (∃ dims, dimsFromJson (d.entries.map fun e => (e.1, Json.num e.2)) = .ok dims) ↔
      ∀ e ∈ d.entries, InU64 e.2 := by
  constructor
  · rintro ⟨dims, hdims⟩ e he
    obtain ⟨k, hk⟩ := mem_iff_getElem?.1 (mem_map_of_mem he)
    obtain ⟨-, hsteps⟩ := foldlM_eq_ok (P := fun _ _ => True) trivial
      (fun _ _ _ _ _ _ _ => trivial) hdims
    obtain ⟨t, t', -, hstep⟩ := hsteps k _ hk
    obtain ⟨n, hn, -⟩ := bind_eq_ok hstep
    rw [okOr_eq_ok] at hn
    by_contra hout
    have hread : (Json.num e.2).asU64 = none := if_neg hout
    rw [hread] at hn
    cases hn
  · intro h
    obtain ⟨dims, hdims, -⟩ := foldlM_dims d.nodupKeys h ∅
    exact ⟨dims, hdims⟩

theorem lookup_dimsFromJson {d : AList fun _ : String => Int} {dims : AList fun _ : String => Nat}
    (h : dimsFromJson (d.entries.map fun e => (e.1, Json.num e.2)) = .ok dims) (key : String) :
    dims.lookup key = (d.lookup key).map Int.toNat := by
  obtain ⟨dims', hdims', hlookup⟩ :=
    foldlM_dims d.nodupKeys ((dimsFromJson_eq_ok d).1 ⟨dims, h⟩) ∅
  have hsame : dims' = dims := Except.ok.inj (hdims'.symm.trans h)
  rw [← hsame, hlookup, AList.lookup_empty, Option.or_none]
  rfl

def PySlab.ReadAs (s : PySlab) (c : CacheSlab) : Prop :=
  c.slabId = s.slabId ∧ c.storage = s.storage ∧ c.layout = s.layout ∧ c.dtype = s.dtype ∧
    ∀ key, c.dims.lookup key = (s.dims.lookup key).map Int.toNat

/-- The dims of the slabs are numbers the message can carry. -/
def PyPolicy.Readable (p : PyPolicy) : Prop := ∀ s ∈ p.slabs, ∀ e ∈ s.dims.entries, InU64 e.2

theorem slabFromJson_toDict (s : PySlab) :
    slabFromJson s.toDict = (dimsFromJson (s.dims.entries.map fun e => (e.1, Json.num e.2))).map
      fun dims => { dims := dims, slabId := s.slabId, storage := s.storage, layout := s.layout,
                    dtype := s.dtype } := by
  show (dimsFromJson _ >>= fun dims => _) = _
  cases dimsFromJson (s.dims.entries.map fun e => (e.1, Json.num e.2)) with
  | error => rfl
  | ok => rfl

theorem slabFromJson_readAs {c : CacheSlab} (h : slabFromJson s.toDict = .ok c) :
    s.ReadAs c := by
  rw [slabFromJson_toDict] at h
  cases hdims : dimsFromJson (s.dims.entries.map fun e => (e.1, Json.num e.2)) with
  | error =>
    rw [hdims] at h
    cases h
  | ok =>
    rw [hdims] at h
    cases h
    exact ⟨rfl, rfl, rfl, rfl, lookup_dimsFromJson hdims⟩

theorem slabFromJson_ok_iff (s : PySlab) :
    (∃ c, slabFromJson s.toDict = .ok c) ↔ ∀ e ∈ s.dims.entries, InU64 e.2 := by
  rw [← dimsFromJson_eq_ok, slabFromJson_toDict]
  cases dimsFromJson (s.dims.entries.map fun e => (e.1, Json.num e.2)) with
  | error => exact iff_of_false (fun ⟨_, h⟩ => by cases h) fun ⟨_, h⟩ => by cases h
  | ok => exact iff_of_true ⟨_, rfl⟩ ⟨_, rfl⟩

theorem fromDict_toDict (p : PyPolicy) :
    CachePolicy.fromDict p.toDict =
      (p.slabs.map PySlab.toDict).mapM slabFromJson >>= fun slabs => .ok
        { slabs := slabs
          intercepts := p.intercepts.filterMap PyIntercept.read
          blockSize := (readIndex (some p.blockSize)).getD 16
          maxRequests := (readIndex (some p.maxRequests)).getD 256 } := by
  have hintercepts : (p.intercepts.map PyIntercept.toDict).mapM interceptFromJson =
      .ok (p.intercepts.map PyIntercept.read) := by
    rw [mapM_eq_ok_iff, forall₂_map_left_iff, forall₂_map_right_iff, forall₂_same]
    exact fun i _ => interceptFromJson_toDict i
  show ((p.slabs.map PySlab.toDict).mapM slabFromJson >>= fun slabs =>
    (p.intercepts.map PyIntercept.toDict).mapM interceptFromJson >>= fun intercepts => _) = _
  rw [hintercepts]
  cases (p.slabs.map PySlab.toDict).mapM slabFromJson with
  | error => rfl
  | ok =>
    show Except.ok _ = Except.ok _
    congr 2
    rw [filterMap_map]
    rfl

theorem fromDict_spec (h : CachePolicy.fromDict p.toDict = .ok c) :
    Forall₂ PySlab.ReadAs p.slabs c.slabs ∧
      c.intercepts = p.intercepts.filterMap PyIntercept.read ∧
      c.blockSize = (readIndex (some p.blockSize)).getD 16 ∧
      c.maxRequests = (readIndex (some p.maxRequests)).getD 256 := by
  rw [fromDict_toDict] at h
  obtain ⟨slabs, hslabs, h⟩ := bind_eq_ok h
  cases h
  rw [mapM_eq_ok_iff, forall₂_map_left_iff] at hslabs
  exact ⟨hslabs.imp fun _ _ => slabFromJson_readAs, rfl, rfl, rfl⟩

theorem fromDict_ok_iff (p : PyPolicy) :
    (∃ c, CachePolicy.fromDict p.toDict = .ok c) ↔ p.Readable := by
  have hslabs : (∃ slabs, (p.slabs.map PySlab.toDict).mapM slabFromJson = .ok slabs) ↔
      p.Readable := by
    rw [exists_mapM_ok_iff, forall_mem_map]
    exact forall₂_congr fun s _ => slabFromJson_ok_iff s
  rw [← hslabs]
  constructor
  · rintro ⟨c, h⟩
    rw [fromDict_toDict] at h
    obtain ⟨slabs, hok, -⟩ := bind_eq_ok h
    exact ⟨slabs, hok⟩
  · rintro ⟨slabs, hok⟩
    rw [fromDict_toDict, hok]
    exact ⟨_, rfl⟩

/-! ## Agreement -/

def SameSlab (a b : CacheSlab) : Prop :=
  a.slabId = b.slabId ∧ a.storage = b.storage ∧ a.layout = b.layout ∧ a.dtype = b.dtype ∧
    ∀ key, a.dims.lookup key = b.dims.lookup key

/-- The runtime cannot tell the policies apart. -/
structure SamePolicy (a b : Runtime.CachePolicy) : Prop where
  slabs : Forall₂ SameSlab a.slabs b.slabs
  intercepts : a.intercepts = b.intercepts
  blockSize : a.blockSize = b.blockSize
  maxRequests : a.maxRequests = b.maxRequests

/-- Every intercept is bound to the output some intercept of the Python policy is bound to. -/
def InventsNone (p : PyPolicy) (c : Runtime.CachePolicy) : Prop :=
  ∀ i ∈ c.intercepts, ∃ j ∈ p.intercepts, j.slabId = i.slabId ∧ j.opName = i.opName ∧
    j.funcIndex = some (i.funcIndex : Int) ∧ j.outputIndex = some (i.outputIndex : Int)

/-- The two transports deliver one policy, without a binding of their own, or both refuse it. -/
def PyPolicy.TransportsAgree (p : PyPolicy) : Prop :=
  match CachePolicy.fromDict p.toDict, p.serialize.map CachePolicy.fromProto with
  | .ok a, some b => SamePolicy a b ∧ InventsNone p a ∧ InventsNone p b
  | .error _, none => True
  | _, _ => False

/-- The slab has the four dims of the message and no other, and a dtype. -/
structure PySlab.Carried (s : PySlab) : Prop where
  dims : ∀ key, key ∈ s.dims ↔ key ∈ messageDims
  dtype : s.dtype ≠ ""

/-- The intercept has both indices and a layer. -/
structure PyIntercept.Carried : Prop where
  funcIndex : i.funcIndex.isSome
  outputIndex : i.outputIndex.isSome
  layer : i.layer ≠ ""

/-- The message carries the whole policy, or neither transport takes it. -/
def PyPolicy.Transportable (p : PyPolicy) : Prop :=
  (¬ p.Readable ∧ ¬ p.Fits) ∨ (p.Fits ∧ (∀ s ∈ p.slabs, s.Carried) ∧ ∀ i ∈ p.intercepts, i.Carried)

theorem lookup_slabFromProto (m : SfaSlabSpec) (key : String) :
    (slabFromProto m).dims.lookup key = if key = "dim" then some m.headDim
      else if key = "heads" then some m.numHeads
      else if key = "layers" then some m.numLayers
      else if key = "blocks" then some m.numBlocks else none := by
  rw [slabFromProto]
  by_cases hdim : key = "dim"
  · rw [if_pos hdim, hdim, AList.lookup_insert]
  rw [if_neg hdim, AList.lookup_insert_ne hdim]
  by_cases hheads : key = "heads"
  · rw [if_pos hheads, hheads, AList.lookup_insert]
  rw [if_neg hheads, AList.lookup_insert_ne hheads]
  by_cases hlayers : key = "layers"
  · rw [if_pos hlayers, hlayers, AList.lookup_insert]
  rw [if_neg hlayers, AList.lookup_insert_ne hlayers]
  by_cases hblocks : key = "blocks"
  · rw [if_pos hblocks, hblocks, AList.lookup_insert]
  rw [if_neg hblocks, AList.lookup_insert_ne hblocks, AList.lookup_empty]

theorem lookup_message (s : PySlab) (key : String) :
    (slabFromProto (s.message blockSize)).dims.lookup key =
      if key ∈ messageDims then some (s.dim key).toNat else none := by
  rw [lookup_slabFromProto]
  by_cases hkey : key ∈ messageDims
  · rw [if_pos hkey]
    have hfour : key = "blocks" ∨ key = "layers" ∨ key = "heads" ∨ key = "dim" := by
      simpa [messageDims] using hkey
    rcases hfour with rfl | rfl | rfl | rfl
    · rfl
    · rfl
    · rfl
    · rfl
  · rw [if_neg hkey]
    simp only [messageDims, mem_cons, not_mem_nil, or_false, not_or] at hkey
    obtain ⟨hblocks, hlayers, hheads, hdim⟩ := hkey
    rw [if_neg hdim, if_neg hheads, if_neg hlayers, if_neg hblocks]

theorem sameSlab_iff {c : CacheSlab} (h : s.ReadAs c) (blockSize : Int) :
    SameSlab c (slabFromProto (s.message blockSize)) ↔ s.Carried := by
  obtain ⟨hid, hstorage, hlayout, hdtype, hdims⟩ := h
  have hlookup : (∀ key, c.dims.lookup key =
      (slabFromProto (s.message blockSize)).dims.lookup key) ↔
        ∀ key, key ∈ s.dims ↔ key ∈ messageDims := by
    refine forall_congr' fun key => ?_
    rw [hdims, lookup_message, ← AList.lookup_isSome]
    by_cases hkey : key ∈ messageDims
    · rw [if_pos hkey, iff_true_right hkey, PySlab.dim]
      cases s.dims.lookup key with
      | none => exact iff_of_false (by simp) (by simp)
      | some => exact iff_of_true rfl rfl
    · rw [if_neg hkey, iff_false_right hkey]
      cases s.dims.lookup key with
      | none => exact iff_of_true rfl (by simp)
      | some => exact iff_of_false (by simp) (by simp)
  have hempty : s.dtype = (if s.dtype = "" then "float32" else s.dtype) ↔ s.dtype ≠ "" := by
    split
    case isTrue h => exact iff_of_false (by rw [h]; decide) fun hne => hne h
    case isFalse h => exact iff_of_true rfl h
  constructor
  · rintro ⟨-, -, -, hd, hall⟩
    exact ⟨hlookup.1 hall, hempty.1 (hdtype.symm.trans hd)⟩
  · rintro ⟨hall, hd⟩
    exact ⟨hid, hstorage, hlayout, hdtype.trans (hempty.2 hd), hlookup.2 hall⟩

theorem forall₂_sameSlab_iff {slabs : List PySlab} {cs : List CacheSlab}
    (h : Forall₂ PySlab.ReadAs slabs cs) (blockSize : Int) :
    Forall₂ (fun c s => SameSlab c (slabFromProto (PySlab.message blockSize s))) cs slabs ↔
      ∀ s ∈ slabs, s.Carried := by
  induction h with
  | nil => exact iff_of_true .nil nofun
  | cons hread _ ih =>
    rw [forall₂_cons, forall_mem_cons, ih, sameSlab_iff hread]

theorem filterMap_eq_map_iff {α β : Type*} {f : α → Option β} {g : α → β} {l : List α} :
    l.filterMap f = l.map g ↔ ∀ a ∈ l, f a = some (g a) := by
  induction l with
  | nil => exact iff_of_true rfl nofun
  | cons a l ih =>
    rw [forall_mem_cons, ← ih, map_cons]
    cases ha : f a with
    | none =>
      refine iff_of_false (fun h => ?_) fun h => by cases h.1
      have hlen : (l.filterMap f).length = l.length + 1 := by
        rw [filterMap_cons_none ha] at h
        rw [h, length_cons, length_map]
      have hle := length_filterMap_le f l
      omega
    | some => rw [filterMap_cons_some ha, List.cons.injEq, Option.some_inj]

theorem inU64_of_inU32 (h : InU32 n) : InU64 n := ⟨h.1, lt_trans h.2 (by decide)⟩

theorem readIndex_some (h : InU64 n) : readIndex (some n) = some n.toNat := if_pos h

theorem read_eq_message_iff {i : PyIntercept} (hfit : ∀ n ∈ i.indices, InU32 n) :
    i.read = some (interceptFromProto i.message) ↔ i.Carried := by
  obtain ⟨slabId, opName, direction, source, layer, funcIndex, outputIndex⟩ := i
  cases funcIndex with
  | none => exact iff_of_false (nofun) fun h => by cases h.funcIndex
  | some f =>
    cases outputIndex with
    | none =>
      refine iff_of_false (fun h => ?_) fun h => by cases h.outputIndex
      rw [PyIntercept.read] at h
      cases hf : readIndex (some f) with
      | none =>
        rw [hf] at h
        cases h
      | some =>
        rw [hf] at h
        cases h
    | some o =>
      have hf : InU32 f := hfit f (by simp [PyIntercept.indices])
      have ho : InU32 o := hfit o (by simp [PyIntercept.indices])
      simp only [PyIntercept.read, readIndex_some (inU64_of_inU32 hf),
        readIndex_some (inU64_of_inU32 ho), Option.some_inj]
      have hlayer : layer = (if layer = "" then "sequential" else layer) ↔ layer ≠ "" := by
        split
        case isTrue h => exact iff_of_false (by rw [h]; decide) fun hne => hne h
        case isFalse h => exact iff_of_true rfl h
      constructor
      · intro h
        exact ⟨rfl, rfl, hlayer.1 (congrArg Runtime.InterceptSpec.layer h)⟩
      · intro h
        have hsame := hlayer.2 h.layer
        show (⟨slabId, opName, direction, source, layer, f.toNat, o.toNat⟩ :
          Runtime.InterceptSpec) = ⟨slabId, opName, direction, source,
            if layer = "" then "sequential" else layer, f.toNat, o.toNat⟩
        rw [← hsame]

theorem inventsNone_read (p : PyPolicy)
    (h : c.intercepts = p.intercepts.filterMap PyIntercept.read) : InventsNone p c := by
  intro i hi
  rw [h] at hi
  obtain ⟨j, hj, hread⟩ := mem_filterMap.1 hi
  have hindex : ∀ {index : Option Int} {n : Nat}, readIndex index = some n →
      index = some (n : Int) := by
    intro index n hn
    obtain ⟨m, rfl, hm⟩ := Option.bind_eq_some_iff.1 hn
    split at hm
    case isTrue hfit =>
      have hn : m.toNat = n := Option.some.inj hm
      rw [← hn, Int.toNat_of_nonneg hfit.1]
    case isFalse => cases hm
  rw [PyIntercept.read] at hread
  cases hf : readIndex j.funcIndex with
  | none =>
    rw [hf] at hread
    cases hread
  | some =>
    cases ho : readIndex j.outputIndex with
    | none =>
      rw [hf, ho] at hread
      cases hread
    | some =>
      rw [hf, ho] at hread
      cases hread
      exact ⟨j, hj, rfl, rfl, hindex hf, hindex ho⟩

theorem readIndex_size (hpos : 0 < n) (hfit : InU32 n) (default : Nat) :
    (readIndex (some n)).getD default = if 0 < n.toNat then n.toNat else default := by
  rw [readIndex_some (inU64_of_inU32 hfit), Option.getD_some, if_pos (by omega)]

theorem samePolicy_iff (hfits : p.Fits) (hblock : 0 < p.blockSize) (hrequests : 0 < p.maxRequests)
    (h : CachePolicy.fromDict p.toDict = .ok c) :
    SamePolicy c (CachePolicy.fromProto p.message) ↔
      (∀ s ∈ p.slabs, s.Carried) ∧ ∀ i ∈ p.intercepts, i.Carried := by
  obtain ⟨hslabs, hintercepts, hsize, hmax⟩ := fromDict_spec h
  have hsame : Forall₂ SameSlab c.slabs (CachePolicy.fromProto p.message).slabs ↔
      ∀ s ∈ p.slabs, s.Carried := by
    show Forall₂ SameSlab c.slabs
      ((p.slabs.map (PySlab.message p.blockSize)).map slabFromProto) ↔ _
    rw [map_map, forall₂_map_right_iff]
    exact forall₂_sameSlab_iff hslabs p.blockSize
  have hbound : c.intercepts = (CachePolicy.fromProto p.message).intercepts ↔
      ∀ i ∈ p.intercepts, i.Carried := by
    show c.intercepts = (p.intercepts.map PyIntercept.message).map interceptFromProto ↔ _
    rw [hintercepts, map_map, filterMap_eq_map_iff]
    exact forall₂_congr fun i hi => read_eq_message_iff (hfits.intercepts i hi)
  constructor
  · intro hpolicy
    exact ⟨hsame.1 hpolicy.slabs, hbound.1 hpolicy.intercepts⟩
  · rintro ⟨hs, hi⟩
    exact ⟨hsame.2 hs, hbound.2 hi, hsize.trans (readIndex_size hblock hfits.blockSize 16),
      hmax.trans (readIndex_size hrequests hfits.maxRequests 256)⟩

theorem readable_of_carried (hfits : p.Fits) (h : ∀ s ∈ p.slabs, s.Carried) :
    p.Readable := by
  intro s hs e he
  have hlookup : s.dims.lookup e.1 = some e.2 := mem_dlookup s.dims.nodupKeys he
  have hkey : e.1 ∈ messageDims := by
    rw [← (h s hs).dims, ← AList.lookup_isSome, hlookup]
    rfl
  have hfit := hfits.slabs s hs e.1 hkey
  rw [PySlab.dim, hlookup] at hfit
  exact inU64_of_inU32 hfit

/-- The two transports agree exactly if the message carries the whole policy, or both refuse it. -/
theorem transportsAgree_iff {p : PyPolicy} (hblock : 0 < p.blockSize)
    (hrequests : 0 < p.maxRequests) : p.TransportsAgree ↔ p.Transportable := by
  rw [PyPolicy.TransportsAgree, PyPolicy.Transportable]
  cases hdict : CachePolicy.fromDict p.toDict with
  | error =>
    have hunreadable : ¬ p.Readable := by
      rw [← fromDict_ok_iff]
      rintro ⟨c, hc⟩
      rw [hdict] at hc
      cases hc
    cases hproto : p.serialize with
    | none =>
      have hunfit : ¬ p.Fits := fun hfits => by
        rw [PyPolicy.serialize_eq_some.2 ⟨hfits, rfl⟩] at hproto
        cases hproto
      exact iff_of_true trivial (.inl ⟨hunreadable, hunfit⟩)
    | some =>
      have hfits := (PyPolicy.serialize_eq_some.1 hproto).1
      refine iff_of_false (fun h => h) ?_
      rintro (⟨-, hunfit⟩ | ⟨-, hcarried, -⟩)
      · exact hunfit hfits
      · exact hunreadable (readable_of_carried hfits hcarried)
  | ok c =>
    have hreadable : p.Readable := (fromDict_ok_iff p).1 ⟨c, hdict⟩
    cases hproto : p.serialize with
    | none =>
      have hunfit : ¬ p.Fits := fun hfits => by
        rw [PyPolicy.serialize_eq_some.2 ⟨hfits, rfl⟩] at hproto
        cases hproto
      refine iff_of_false (fun h => h) ?_
      rintro (⟨hunreadable, -⟩ | ⟨hfits, -⟩)
      · exact hunreadable hreadable
      · exact hunfit hfits
    | some =>
      obtain ⟨hfits, rfl⟩ := PyPolicy.serialize_eq_some.1 hproto
      have hsame := samePolicy_iff hfits hblock hrequests hdict
      have hnone := inventsNone_read p (fromDict_spec hdict).2.1
      show SamePolicy c (CachePolicy.fromProto p.message) ∧ InventsNone p c ∧
        InventsNone p (CachePolicy.fromProto p.message) ↔ _
      constructor
      · rintro ⟨hpolicy, -, -⟩
        exact .inr ⟨hfits, hsame.1 hpolicy⟩
      · rintro (⟨hunreadable, -⟩ | ⟨-, hcarried⟩)
        · exact absurd hreadable hunreadable
        · have hpolicy := hsame.2 hcarried
          refine ⟨hpolicy, hnone, ?_⟩
          rw [InventsNone, ← hpolicy.intercepts]
          exact hnone

def llamaPolicy : PyPolicy where
  slabs := [⟨"k", "paged", ((∅ : AList fun _ : String => Int).insert "dim" 2).insert "heads" 1
    |>.insert "layers" 1, "BNLD", "float32"⟩]
  intercepts := [⟨"k", "scaled_dot_product_attention", "read_write", "operand[1]", "sequential",
    none, none⟩]
  blockSize := 16
  maxRequests := 256

theorem transportsAgree_iff_llama : llamaPolicy.TransportsAgree ↔ llamaPolicy.Transportable :=
  transportsAgree_iff (by decide) (by decide)

/-- The message adds the dim `blocks` and binds the intercept to output 0 of function 0. -/
theorem transportsAgree_fails : ¬ llamaPolicy.TransportsAgree := by
  intro h
  have hinvents : InventsNone llamaPolicy (CachePolicy.fromProto llamaPolicy.message) := h.2.2
  obtain ⟨j, hj, -, -, hf, -⟩ := hinvents _ mem_cons_self
  obtain rfl := mem_singleton.1 hj
  cases hf

/-! ## The policies of the compiler -/

def PySlab.ofCompiler (s : Compiler.SlabSpec) : PySlab :=
  ⟨s.slabId, s.storage, (s.dims.map fun e => ⟨e.1, (e.2 : Int)⟩).toAList, s.layout, s.dtype⟩

def PyIntercept.ofCompiler (i : Compiler.InterceptSpec) : PyIntercept :=
  ⟨i.slabId, i.opName, i.direction, i.source, i.layer, i.funcIndex.map fun n : Nat => (n : Int),
    i.outputIndex.map fun n : Nat => (n : Int)⟩

/-- A policy of the compiler's model, whose numbers are not negative. -/
def PyPolicy.ofCompiler (policy : Compiler.CachePolicy) : PyPolicy :=
  ⟨policy.slabs.map PySlab.ofCompiler, policy.intercepts.map PyIntercept.ofCompiler,
    policy.blockSize, policy.maxRequests⟩

theorem uint32Field_natCast (n : Nat) : uint32Field (n : Int) = Compiler.uint32 n := by
  rw [uint32Field, Compiler.uint32, Int.toNat_natCast]
  by_cases h : n < 2 ^ 32
  · rw [if_pos h, if_pos (by omega)]
  · rw [if_neg h, if_neg (by omega)]

theorem dim_ofCompiler (s : Compiler.SlabSpec) (key : String) :
    (PySlab.ofCompiler s).dim key = (s.dim key : Int) := by
  have hlookup : (PySlab.ofCompiler s).dims.lookup key =
      (s.dims.lookup key).map fun n : Nat => (n : Int) := by
    rw [PySlab.ofCompiler, AList.lookup_to_alist]
    induction s.dims with
    | nil => rfl
    | cons e dims ih =>
      rw [map_cons]
      by_cases hkey : key = e.1
      · rw [hkey, dlookup_cons_eq, lookup_cons_self]
        rfl
      · rw [dlookup_cons_ne _ _ hkey, ih, lookup_cons, beq_false_of_ne hkey]
  rw [PySlab.dim, hlookup, Compiler.SlabSpec.dim]
  cases s.dims.lookup key with
  | none => rfl
  | some => rfl

theorem serialize_ofCompiler (policy : Compiler.CachePolicy) :
    (PyPolicy.ofCompiler policy).serialize = Compiler.serializeCachePolicy policy := by
  have hslab : ∀ s, (PySlab.ofCompiler s).serialize policy.blockSize =
      Compiler.serializeSlab policy s := by
    intro s
    simp only [PySlab.serialize, Compiler.serializeSlab, dim_ofCompiler, uint32Field_natCast]
    rfl
  have hintercept : ∀ i, (PyIntercept.ofCompiler i).serialize = Compiler.serializeIntercept i := by
    intro i
    have hindices : (PyIntercept.ofCompiler i).funcIndex.toList ++
        (PyIntercept.ofCompiler i).outputIndex.toList =
          (i.funcIndex.toList ++ i.outputIndex.toList).map fun n : Nat => (n : Int) := by
      rw [map_append, PyIntercept.ofCompiler, Option.toList_map, Option.toList_map]
    rw [PyIntercept.serialize, hindices, mapM_map, Compiler.serializeIntercept]
    simp only [Function.comp_def, uint32Field_natCast]
    rfl
  rw [PyPolicy.serialize, PyPolicy.ofCompiler, mapM_map, mapM_map]
  simp only [Function.comp_def, hslab, hintercept, uint32Field_natCast]
  rfl

end CompileForge.Abi
