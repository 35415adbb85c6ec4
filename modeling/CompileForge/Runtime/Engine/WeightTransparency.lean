/-
  When the weight caches of an executor cannot be noticed.
-/

import CompileForge.Runtime.Engine.WeightLoads

namespace CompileForge.Runtime.Weights

open Abi Lib List

variable {p : WeightProvider} {c : Caches} {r r' : WeightLoad} {rs : List WeightLoad}

def dtypeOf : Value → Dtype
  | .f32 _ => .f32
  | .half dtype _ _ => dtype
  | .i64 _ => .i64
  | .other dtype _ => dtype

variable (p rs)

/-- Every load gives what it gives with empty caches, and each cache holds its own form. -/
structure CacheTransparent : Prop where
  loads : ∀ (k : Nat) (r : WeightLoad), rs[k]? = some r →
    loaded p (cachesAfter p (rs.take k)) r = loaded p .empty r
  weight : ∀ (k : Nat) (name : String) (v : Value),
    (cachesAfter p (rs.take k)).weight.lookup name = some v → dtypeOf v = .f32
  raw : ∀ (k : Nat) (name : String) (v : Value),
    (cachesAfter p (rs.take k)).raw.lookup name = some v → isHalf (dtypeOf v) = true

inductive CacheSlot where
  | weight
  | raw
deriving DecidableEq, Repr

def accepts (mode : WeightDtypeMode) (dtype : Dtype) : Bool :=
  match mode with
  | .auto => true
  | .f32 => true
  | .f16 => dtype = .f16
  | .bf16 => dtype = .bf16

/-- `run_function_graph` puts 16-bit weights where the promoted ones are kept. -/
def slotOf (site : LoadSite) (dtype : Dtype) : CacheSlot :=
  match site with
  | .functionGraph => .weight
  | .promoted => .weight
  | .forMode .f32 => .weight
  | .forMode .f16 => .raw
  | .forMode .bf16 => .raw
  | .forMode .auto => if isHalf dtype then .raw else .weight

def admits (site : LoadSite) (dtype : Dtype) : Bool :=
  match site with
  | .functionGraph => true
  | .promoted => true
  | .forMode mode => accepts mode dtype

/-- The ABI shape holds the elements of the source. -/
def ShapeFits (desc : WeightMemref) (ioDef : GraphTensorDef) : Prop :=
  (ioDef.loadedShape desc.sizes).prod = desc.sizes.prod
deriving Decidable

/-- No 16-bit weight is bound by `run_function_graph`, and loads of one weight have one shape. -/
structure LoadsAgree : Prop where
  promoted : ∀ r ∈ rs, r.site = .functionGraph → ∀ desc ∈ p.getWeightMemref r.key,
    ShapeFits desc r.ioDef → isHalf desc.dtype = false
  shapes : ∀ (i j : Nat) (r r' : WeightLoad), i < j → rs[i]? = some r → rs[j]? = some r' →
    r.key = r'.key → ∀ desc ∈ p.getWeightMemref r.key,
    admits r.site desc.dtype = true → admits r'.site desc.dtype = true →
    slotOf r.site desc.dtype = slotOf r'.site desc.dtype → ShapeFits desc r.ioDef →
    r.ioDef.loadedShape desc.sizes = r'.ioDef.loadedShape desc.sizes

/-! ## The caches as one table -/

/-- `load_weight_tensor_u16` is the loader of the load. -/
def usesHalf (site : LoadSite) (dtype : Dtype) : Bool :=
  match site with
  | .functionGraph => isHalf dtype
  | .promoted => false
  | .forMode .f32 => false
  | .forMode .f16 => true
  | .forMode .bf16 => true
  | .forMode .auto => isHalf dtype

/-- The source dtype, as `run_function_graph` reads it. -/
def sourceDtype (key : String) : Dtype :=
  ((p.getWeightMemref key).map (·.dtype)).getD .f32

variable {p rs}

variable (p r)

def loaderOf (cache : WeightTable) : Except String (Value × WeightTable) :=
  if usesHalf r.site (sourceDtype p r.key) then loadWeightTensorU16 p cache r.key r.ioDef
  else loadWeightTensor p cache r.key r.ioDef

/-- What is checked before a cache is asked. -/
def modeGuard : Except String Unit :=
  match r.site with
  | .functionGraph => .ok ()
  | .promoted => .ok ()
  | .forMode mode => do
      let desc ← okOr s!"weight not found: {r.key}" (p.getWeightMemref r.key)
      match mode with
      | .auto => .ok ()
      | .f32 => .ok ()
      | .f16 =>
        ensure (desc.dtype = .f16)
          s!"weight {r.key}: --weight-dtype f16 requires F16 source, got {desc.dtype}"
      | .bf16 =>
        ensure (desc.dtype = .bf16)
          s!"weight {r.key}: --weight-dtype bf16 requires BF16 source, got {desc.dtype}"

variable {p r}

/-- The two caches are one table keyed by the cache and the name.  Neither the shape of the ABI nor
    the form of the tensor is part of the key. -/
def loadMemo (p : WeightProvider) : Memo WeightLoad (CacheSlot × String) String Value where
  guard := modeGuard p
  key r := (slotOf r.site (sourceDtype p r.key), r.key)
  compute r := (loaderOf p r ∅).map Prod.fst

section Slots

variable (c : Caches) (slot : CacheSlot)

def Caches.get : CacheSlot → WeightTable
  | .weight => c.weight
  | .raw => c.raw

def Caches.set (cache : WeightTable) : Caches :=
  match slot with
  | .weight => { c with weight := cache }
  | .raw => { c with raw := cache }

def tableOfCaches (key : CacheSlot × String) : Option Value :=
  (c.get key.1).lookup key.2

def Caches.on (load : WeightTable → Except String (Value × WeightTable)) :
    Except String (Value × Caches) := do
  let (v, cache) ← load (c.get slot)
  .ok (v, c.set slot cache)

end Slots

theorem runLoad_eq : runLoad p c r = match modeGuard p r with
    | .error e => .error e
    | .ok () => c.on (slotOf r.site (sourceDtype p r.key)) (loaderOf p r) := by
  obtain ⟨site, key, ioDef⟩ := r
  cases site with
  | functionGraph =>
    show bindFunctionGraphWeight p c key ioDef = c.onWeight _
    rw [bindFunctionGraphWeight]
    by_cases hhalf : isHalf (sourceDtype p key)
    · have hloader : loaderOf p ⟨.functionGraph, key, ioDef⟩ =
          fun cache => loadWeightTensorU16 p cache key ioDef :=
        funext fun cache => if_pos hhalf
      rw [hloader]
      exact if_pos hhalf
    · have hloader : loaderOf p ⟨.functionGraph, key, ioDef⟩ =
          fun cache => loadWeightTensor p cache key ioDef :=
        funext fun cache => if_neg hhalf
      rw [hloader]
      exact if_neg hhalf
  | promoted => rfl
  | forMode mode =>
    show loadWeightTensorForMode p c key ioDef mode = _
    rw [loadWeightTensorForMode, modeGuard]
    cases hdesc : p.getWeightMemref key with
    | none => rfl
    | some desc =>
      have hsource : sourceDtype p key = desc.dtype := by
        rw [sourceDtype, hdesc]
        rfl
      cases mode with
      | f32 => rfl
      | f16 =>
        show (ensure _ _ >>= fun _ => _) = match ensure _ _ with | .error e => _ | .ok () => _
        cases ensure (desc.dtype = .f16)
          s!"weight {key}: --weight-dtype f16 requires F16 source, got {desc.dtype}" <;> rfl
      | bf16 =>
        show (ensure _ _ >>= fun _ => _) = match ensure _ _ with | .error e => _ | .ok () => _
        cases ensure (desc.dtype = .bf16)
          s!"weight {key}: --weight-dtype bf16 requires BF16 source, got {desc.dtype}" <;> rfl
      | auto =>
        show (if isHalf desc.dtype then c.onRaw _ else c.onWeight _) =
          c.on (slotOf (.forMode .auto) (sourceDtype p key))
            (loaderOf p ⟨.forMode .auto, key, ioDef⟩)
        by_cases hhalf : isHalf desc.dtype
        · have hloader : loaderOf p ⟨.forMode .auto, key, ioDef⟩ =
              fun cache => loadWeightTensorU16 p cache key ioDef :=
            funext fun cache => if_pos (by rw [hsource]; exact hhalf)
          rw [hloader, if_pos hhalf, hsource, slotOf, if_pos hhalf]
          rfl
        · have hloader : loaderOf p ⟨.forMode .auto, key, ioDef⟩ =
              fun cache => loadWeightTensor p cache key ioDef :=
            funext fun cache => if_neg (by rw [hsource]; exact hhalf)
          rw [hloader, if_neg hhalf, hsource, slotOf, if_neg hhalf]
          rfl

theorem loaderOf_eq (cache : WeightTable) : loaderOf p r cache = match cache.lookup r.key with
    | some v => .ok (v, cache)
    | none => ((loaderOf p r ∅).map Prod.fst).map fun v => (v, cache.insert r.key v) := by
  have hempty : (∅ : WeightTable).lookup r.key = none := AList.lookup_empty r.key
  by_cases hhalf : usesHalf r.site (sourceDtype p r.key)
  · rw [loaderOf, loaderOf, if_pos hhalf, if_pos hhalf, loadWeightTensorU16, loadWeightTensorU16,
      hempty]
    cases cache.lookup r.key with
    | some => rfl
    | none =>
      simp only
      cases p.getWeightMemref r.key with
      | none => rfl
      | some desc =>
        simp only [okOr, bind, Except.bind]
        cases ensure (isHalf desc.dtype = true)
          s!"raw weight {r.key}: expected F16/BF16 source dtype, got {desc.dtype}" with
        | error e => rfl
        | ok u =>
          simp only
          split <;> rfl
  · rw [loaderOf, loaderOf, if_neg hhalf, if_neg hhalf, loadWeightTensor, loadWeightTensor, hempty]
    cases cache.lookup r.key with
    | some => rfl
    | none =>
      simp only
      cases p.getWeightMemref r.key with
      | none => rfl
      | some =>
        simp only [okOr, bind, Except.bind]
        split <;> rfl

theorem Caches.set_get (c : Caches) (slot : CacheSlot) : c.set slot (c.get slot) = c := by
  cases slot <;> rfl

theorem tableOfCaches_set (c : Caches) (slot : CacheSlot) (name : String) (v : Value) :
    tableOfCaches (c.set slot ((c.get slot).insert name v)) =
      Function.update (tableOfCaches c) (slot, name) (some v) := by
  funext ⟨slot', name'⟩
  rw [Function.update_apply, tableOfCaches, tableOfCaches]
  by_cases hslot : slot' = slot
  · subst hslot
    have hget : (c.set slot' ((c.get slot').insert name v)).get slot' =
        (c.get slot').insert name v := by
      cases slot' <;> rfl
    rw [hget]
    by_cases hname : name' = name
    · rw [hname, AList.lookup_insert, if_pos rfl]
    · rw [AList.lookup_insert_ne hname, if_neg fun h => hname (Prod.mk.inj h).2]
  · have hget : (c.set slot ((c.get slot).insert name v)).get slot' = c.get slot' := by
      cases slot <;> cases slot'
      · exact absurd rfl hslot
      · rfl
      · rfl
      · exact absurd rfl hslot
    rw [hget, if_neg fun h => hslot (Prod.mk.inj h).1]

theorem runLoad_serve : loaded p c r = ((loadMemo p).serve (tableOfCaches c) r).1 ∧
    tableOfCaches (afterLoad p c r) = ((loadMemo p).serve (tableOfCaches c) r).2 := by
  rw [loaded, afterLoad, runLoad_eq]
  cases hguard : modeGuard p r with
  | error =>
    rw [(loadMemo p).serve_refused hguard]
    exact ⟨rfl, rfl⟩
  | ok =>
    simp only [Caches.on]
    rw [loaderOf_eq]
    cases hentry : (c.get (slotOf r.site (sourceDtype p r.key))).lookup r.key with
    | some =>
      rw [(loadMemo p).serve_hit hguard hentry]
      simp only [bind, Except.bind, Caches.set_get]
      exact ⟨rfl, trivial⟩
    | none =>
      cases hcompute : (loaderOf p r ∅).map Prod.fst with
      | error =>
        rw [(loadMemo p).serve_failed hguard hentry hcompute]
        exact ⟨rfl, rfl⟩
      | ok =>
        rw [(loadMemo p).serve_computed hguard hentry hcompute]
        exact ⟨rfl, tableOfCaches_set c _ _ _⟩

theorem tableOfCaches_cachesAfter :
    tableOfCaches (cachesAfter p rs) = (loadMemo p).tableAfter rs := by
  have hrun : ∀ (rs : List WeightLoad) (c : Caches), tableOfCaches (rs.foldl (afterLoad p) c) =
      rs.foldl (fun t r => ((loadMemo p).serve t r).2) (tableOfCaches c) := by
    intro rs
    induction rs with
    | nil => exact fun c => rfl
    | cons r rs ih =>
      intro c
      rw [foldl_cons, foldl_cons, ih, runLoad_serve.2]
  have hempty : tableOfCaches .empty = fun _ => none := by
    funext ⟨slot, name⟩
    cases slot <;> exact AList.lookup_empty name
  rw [cachesAfter, hrun, hempty, Memo.tableAfter]

/-! ## What a load computes -/

variable {desc : WeightMemref} {site : LoadSite} {dtype : Dtype} {v : Value}

theorem modeGuard_eq_ok (hdesc : p.getWeightMemref r.key = some desc) :
    modeGuard p r = .ok () ↔ admits r.site desc.dtype = true := by
  obtain ⟨site, key, ioDef⟩ := r
  cases site with
  | functionGraph => exact iff_of_true rfl rfl
  | promoted => exact iff_of_true rfl rfl
  | forMode mode =>
    have hdesc : p.getWeightMemref key = some desc := hdesc
    rw [modeGuard]
    simp only [hdesc]
    cases mode with
    | auto => exact iff_of_true rfl rfl
    | f32 => exact iff_of_true rfl rfl
    | f16 => exact ensure_eq_ok.trans decide_eq_true_iff.symm
    | bf16 => exact ensure_eq_ok.trans decide_eq_true_iff.symm

theorem sourceDtype_eq {key : String}
    (hdesc : p.getWeightMemref key = some desc) : sourceDtype p key = desc.dtype := by
  rw [sourceDtype, hdesc]
  rfl

theorem isHalf_of_usesHalf (hadmits : admits site dtype = true)
    (huses : usesHalf site dtype = true) : isHalf dtype = true := by
  cases site with
  | functionGraph => exact huses
  | promoted => cases huses
  | forMode mode =>
    cases mode with
    | auto => exact huses
    | f32 => cases huses
    | f16 => rw [isHalf, of_decide_eq_true hadmits]; rfl
    | bf16 => rw [isHalf, of_decide_eq_true hadmits]; rfl

/-- What a load computes of a weight. -/
def sourceTensor (p : WeightProvider) (r : WeightLoad) (desc : WeightMemref) : Value :=
  if usesHalf r.site desc.dtype then .half desc.dtype (r.ioDef.loadedShape desc.sizes) desc.halves
  else .f32 ⟨r.ioDef.loadedShape desc.sizes, convertWeightToF32 p desc⟩

theorem compute_eq_ok (hguard : modeGuard p r = .ok ()) :
    (loadMemo p).compute r = .ok v ↔
      ∃ desc, p.getWeightMemref r.key = some desc ∧ ShapeFits desc r.ioDef ∧
        v = sourceTensor p r desc := by
  have hempty : (∅ : WeightTable).lookup r.key = none := AList.lookup_empty r.key
  show (loaderOf p r ∅).map Prod.fst = .ok v ↔ _
  cases hdesc : p.getWeightMemref r.key with
  | none =>
    have hfails : (loaderOf p r ∅).map Prod.fst = .error s!"weight not found: {r.key}" := by
      rw [loaderOf, loadWeightTensorU16, loadWeightTensor, hempty]
      simp only [hdesc]
      split_ifs <;> rfl
    rw [hfails]
    exact iff_of_false (fun h => by cases h) fun ⟨_, h, _⟩ => by cases h
  | some desc =>
    have hsource := sourceDtype_eq hdesc
    have hadmits := (modeGuard_eq_ok hdesc).1 hguard
    have hcond : (∃ desc', some desc = some desc' ∧ ShapeFits desc' r.ioDef ∧
        v = sourceTensor p r desc') ↔ ShapeFits desc r.ioDef ∧ v = sourceTensor p r desc := by
      simp only [Option.some_inj, exists_eq_left']
    rw [hcond, loaderOf, sourceTensor, hsource]
    by_cases huses : usesHalf r.site desc.dtype
    · rw [if_pos huses, if_pos huses, loadWeightTensorU16, hempty]
      simp only [hdesc, okOr, bind, Except.bind, ensure, isHalf_of_usesHalf hadmits huses, if_true]
      by_cases hfits : ShapeFits desc r.ioDef
      · have hprod : (r.ioDef.loadedShape desc.sizes).prod = desc.sizes.prod := hfits
        simp only [hprod, if_true, Except.map, Except.ok.injEq]
        rw [and_iff_right hfits, eq_comm]
      · have hprod : ¬ (r.ioDef.loadedShape desc.sizes).prod = desc.sizes.prod := hfits
        simp only [hprod, if_false, Except.map]
        exact iff_of_false (fun h => by cases h) fun h => hfits h.1
    · rw [if_neg huses, if_neg huses, loadWeightTensor, hempty]
      simp only [hdesc, okOr, bind, Except.bind, ensure]
      by_cases hfits : ShapeFits desc r.ioDef
      · have hprod : (r.ioDef.loadedShape desc.sizes).prod = desc.sizes.prod := hfits
        simp only [hprod, if_true, Except.map, Except.ok.injEq]
        rw [and_iff_right hfits, eq_comm]
      · have hprod : ¬ (r.ioDef.loadedShape desc.sizes).prod = desc.sizes.prod := hfits
        simp only [hprod, if_false, Except.map]
        exact iff_of_false (fun h => by cases h) fun h => hfits h.1

theorem dtypeOf_sourceTensor :
    dtypeOf (sourceTensor p r desc) = if usesHalf r.site desc.dtype then desc.dtype else .f32 := by
  rw [sourceTensor]
  split_ifs <;> rfl

theorem usesHalf_iff :
    usesHalf site dtype = true ↔
      slotOf site dtype = .raw ∨ site = .functionGraph ∧ isHalf dtype = true := by
  cases site with
  | functionGraph =>
    show isHalf dtype = true ↔ CacheSlot.weight = .raw ∨ _
    constructor
    · exact fun h => .inr ⟨rfl, h⟩
    · rintro (h | ⟨-, h⟩)
      · cases h
      · exact h
  | promoted =>
    exact iff_of_false (nofun) fun h => by rcases h with h | ⟨h, -⟩ <;> cases h
  | forMode mode =>
    rw [or_iff_left fun h => by cases h.1]
    cases mode with
    | f32 => exact iff_of_false (nofun) nofun
    | f16 => exact iff_of_true rfl rfl
    | bf16 => exact iff_of_true rfl rfl
    | auto =>
      show isHalf dtype = true ↔ (if isHalf dtype then CacheSlot.raw else .weight) = .raw
      split_ifs with hhalf
      · exact iff_of_true hhalf rfl
      · exact iff_of_false hhalf nofun

/-! ## Transparency -/

theorem loads_iff_transparent :
    (∀ (k : Nat) (r : WeightLoad), rs[k]? = some r →
      loaded p (cachesAfter p (rs.take k)) r = loaded p .empty r) ↔
      (loadMemo p).Transparent rs := by
  have hfresh : ∀ r, loaded p .empty r = (loadMemo p).fresh r := by
    intro r
    have hempty : tableOfCaches .empty = fun _ => none := by
      funext ⟨slot, name⟩
      cases slot <;> exact AList.lookup_empty name
    rw [runLoad_serve.1, hempty, Memo.fresh]
    cases hguard : (loadMemo p).guard r with
    | error => rw [Memo.serve_refused hguard]
    | ok =>
      cases hcompute : (loadMemo p).compute r with
      | error => rw [Memo.serve_failed hguard rfl hcompute]
      | ok => rw [Memo.serve_computed hguard rfl hcompute]
  refine forall_congr' fun k => forall_congr' fun r => imp_congr_right fun _ => ?_
  rw [hfresh, runLoad_serve.1, tableOfCaches_cachesAfter]

theorem LoadsAgree.consistent (h : LoadsAgree p rs) : (loadMemo p).Consistent rs := by
  intro i j r r' hij hi hj hguard hguard' hkey v hcompute
  obtain ⟨hslot, hname⟩ := Prod.mk.inj hkey
  obtain ⟨desc, hdesc, hfits, rfl⟩ := (compute_eq_ok hguard).1 hcompute
  have hdesc' : p.getWeightMemref r'.key = some desc := by rw [← hname, hdesc]
  rw [sourceDtype_eq hdesc, sourceDtype_eq hdesc'] at hslot
  have hshape := h.shapes i j r r' hij hi hj hname desc hdesc ((modeGuard_eq_ok hdesc).1 hguard)
    ((modeGuard_eq_ok hdesc').1 hguard') hslot hfits
  have hfits' : ShapeFits desc r'.ioDef := by
    rw [ShapeFits, ← hshape]
    exact hfits
  have hplain : ∀ r'' ∈ rs, p.getWeightMemref r''.key = some desc → ShapeFits desc r''.ioDef →
      ¬ (r''.site = .functionGraph ∧ isHalf desc.dtype = true) := by
    rintro r'' hmem hdesc'' hfits'' ⟨hsite, hhalf⟩
    rw [h.promoted r'' hmem hsite desc hdesc'' hfits''] at hhalf
    cases hhalf
  have huses : usesHalf r.site desc.dtype = usesHalf r'.site desc.dtype := by
    rw [Bool.eq_iff_iff, usesHalf_iff, usesHalf_iff,
      or_iff_left (hplain r (mem_of_getElem? hi) hdesc hfits),
      or_iff_left (hplain r' (mem_of_getElem? hj) hdesc' hfits'), hslot]
  refine (compute_eq_ok hguard').2 ⟨desc, hdesc', hfits', ?_⟩
  rw [sourceTensor, sourceTensor, huses, hshape]

theorem cachesAfter_entry {k : Nat} (slot : CacheSlot) {name : String}
    (h : ((cachesAfter p (rs.take k)).get slot).lookup name = some v) :
    ∃ r ∈ rs, ∃ desc, p.getWeightMemref r.key = some desc ∧ admits r.site desc.dtype = true ∧
      ShapeFits desc r.ioDef ∧ slotOf r.site desc.dtype = slot ∧ v = sourceTensor p r desc := by
  have hentry : (loadMemo p).tableAfter (rs.take k) (slot, name) = some v := by
    rw [← tableOfCaches_cachesAfter]
    exact h
  obtain ⟨i, r, -, hi, hguard, hkey, hcompute⟩ := Memo.tableAfter_entry hentry
  obtain ⟨desc, hdesc, hfits, rfl⟩ := (compute_eq_ok hguard).1 hcompute
  have hslot := (Prod.mk.inj hkey).1
  rw [sourceDtype_eq hdesc] at hslot
  exact ⟨r, mem_of_getElem? hi, desc, hdesc, (modeGuard_eq_ok hdesc).1 hguard, hfits, hslot,
    rfl⟩

theorem cacheTransparent_iff_agree : CacheTransparent p rs ↔ LoadsAgree p rs := by
  constructor
  · intro h
    have htransparent := loads_iff_transparent.1 h.loads
    have hconsistent := Memo.transparent_iff.1 htransparent
    constructor
    case promoted =>
      intro r hmem hsite desc hdesc hfits
      by_contra hhalf
      have hhalf : isHalf desc.dtype = true := by
        cases hd : isHalf desc.dtype with
        | true => rfl
        | false => exact absurd hd hhalf
      obtain ⟨k, hk⟩ := mem_iff_getElem?.mp hmem
      have hguard : modeGuard p r = .ok () := by
        rw [modeGuard, hsite]
      have huses : usesHalf r.site desc.dtype = true := usesHalf_iff.2 (.inr ⟨hsite, hhalf⟩)
      have hcompute := (compute_eq_ok hguard).2 ⟨desc, hdesc, hfits, rfl⟩
      have hanswer : ((loadMemo p).serve ((loadMemo p).tableAfter (rs.take k)) r).1 =
          .ok (sourceTensor p r desc) := by
        rw [htransparent k r hk, Memo.fresh]
        have hguard : (loadMemo p).guard r = .ok () := hguard
        rw [hguard]
        exact hcompute
      have hentry := Memo.serve_remembers hguard hanswer
      rw [← Memo.tableAfter_succ hk, ← tableOfCaches_cachesAfter] at hentry
      have hslot : slotOf r.site (sourceDtype p r.key) = .weight := by rw [hsite, slotOf]
      have hweight : (cachesAfter p (rs.take (k + 1))).weight.lookup r.key =
          some (sourceTensor p r desc) := by
        have hkey : (loadMemo p).key r = (.weight, r.key) := congrArg (·, r.key) hslot
        rw [hkey] at hentry
        exact hentry
      have hdtype := h.weight (k + 1) r.key _ hweight
      rw [dtypeOf_sourceTensor, if_pos huses] at hdtype
      rw [hdtype] at hhalf
      cases hhalf
    case shapes =>
      intro i j r r' hij hi hj hname desc hdesc hadmits hadmits' hslot hfits
      have hdesc' : p.getWeightMemref r'.key = some desc := by
        rw [← hname]
        exact hdesc
      have hguard := (modeGuard_eq_ok hdesc).2 hadmits
      have hguard' := (modeGuard_eq_ok hdesc').2 hadmits'
      have hkey : (loadMemo p).key r = (loadMemo p).key r' := by
        show (slotOf r.site (sourceDtype p r.key), r.key) = (slotOf _ (sourceDtype p _), _)
        rw [sourceDtype_eq hdesc, sourceDtype_eq hdesc', hslot, hname]
      have hcompute := (compute_eq_ok hguard).2 ⟨desc, hdesc, hfits, rfl⟩
      have hcompute' := hconsistent i j r r' hij hi hj hguard hguard' hkey _ hcompute
      obtain ⟨desc', hsame, -, htensor⟩ := (compute_eq_ok hguard').1 hcompute'
      have hsame : desc' = desc := Option.some_inj.1 (hsame.symm.trans hdesc')
      subst hsame
      rw [sourceTensor, sourceTensor] at htensor
      split_ifs at htensor
      · exact (Value.half.inj htensor).2.1
      · exact (Tensor.mk.inj (Value.f32.inj htensor)).1
  · intro h
    refine ⟨loads_iff_transparent.2 (Memo.transparent_iff.2 h.consistent), ?_, ?_⟩
    · intro k name v hv
      obtain ⟨r, hmem, desc, hdesc, -, hfits, hslot, rfl⟩ := cachesAfter_entry .weight hv
      rw [dtypeOf_sourceTensor, if_neg]
      rw [usesHalf_iff, hslot]
      rintro (hraw | ⟨hsite, hhalf⟩)
      · cases hraw
      · rw [h.promoted r hmem hsite desc hdesc hfits] at hhalf
        cases hhalf
    · intro k name v hv
      obtain ⟨r, hmem, desc, hdesc, hadmits, hfits, hslot, rfl⟩ := cachesAfter_entry .raw hv
      have huses : usesHalf r.site desc.dtype = true := usesHalf_iff.2 (.inl hslot)
      rw [dtypeOf_sourceTensor, if_pos huses]
      exact isHalf_of_usesHalf hadmits huses

/-- A checkpoint with one `F16` weight of two elements. -/
def halfProvider : WeightProvider where
  getWeightMemref key :=
    if key = "w" then some { sizes := [2, 1], dtype := .f16, halves := [0x3C00, 0], singles := [] }
    else none
  toF32 h := ⟨h.toUInt32⟩

def weightGraph : ComputeGraph where
  functions :=
    [{ index := 0
       symbol := "main_0"
       numInputs := 1
       numOutputs := 1
       inputs :=
         [(.weight "w", { consumedInternally := false, rank := 1, shape := [2], dtype := .f16 })]
       outputs := [{ consumedInternally := false, rank := 1, shape := [2], dtype := .f32 }]
       consumedSubOutputFlags := [] }]
  globalInput := (0, 0)
  globalOutput := (0, 0)

end CompileForge.Runtime.Weights
