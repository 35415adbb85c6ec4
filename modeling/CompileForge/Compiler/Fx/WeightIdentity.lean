/-
  Which tensor a placeholder or a get_attr stands for behind a conversion.
-/

import CompileForge.Compiler.Fx.Emits

namespace CompileForge.Compiler.Fx

open Lib List

variable {V : Type} {ctx : Context V} {st st' : State V} {node : Node} {halOp : String}
  {program : ExportedProgram V}

section Names

variable (program : ExportedProgram V) (node : Node)

/-- `hf_key_map`: all names share one name space without dots. -/
def hfKeyMap : List (String × String) :=
  updateKeys [] (program.stateDict.map fun e => (cleanName e.1, e.1))

def storedUnder (target : String) : Option (Tensor V) :=
  (program.stateDict.lookup target).or (program.constants.lookup target)

def weightTarget : Option String :=
  match node.op with
  | .placeholder =>
    dictGet ((program.inputSpecs.filter fun s => s.kind ∈ [2, 3, 4] ∧ s.target ≠ "").map fun s =>
      (s.argName, s.target)) node.name
  | .getAttr target => some target
  | _ => none

def mappedName : Option String :=
  match node.op with
  | .placeholder => some ((weightNameMap program.inputSpecs node.name).getD node.name)
  | .getAttr target => some (cleanName target)
  | _ => none

def IsUserInput : Prop :=
  node.op = .placeholder ∧ node.name ∈ program.userInputs

end Names

/-- The tensor, converted any number of times. -/
def ConvertedFrom (torch : Torch V) : Tensor V → Tensor V → Prop :=
  Relation.ReflTransGen fun t t' => ∃ dtype, t' = t.to torch dtype

/-- The SSA name of the node is the result of the weight op of the entry, and of no other. -/
def ResolvesTo (st : State V) (name : String) (e : String × Tensor V) : Prop :=
  ∃ ssa, st.ssaMap.lookup name = some ssa ∧
    ∀ e', e' ∈ st.weights ∧ ssa ∈ (weightOp e').results ↔ e' = e

/-- Every node of a weight has its own tensor, behind the conversion. -/
structure KeepsIdentity (ctx : Context V) (st : State V) : Prop where
  weights : ∀ node ∈ ctx.program.nodes, ∀ target t, weightTarget ctx.program node = some target →
    storedUnder ctx.program target = some t →
    (initialWeights ctx.program).lookup (cleanName target) = some t ∧
      ∃ t', ConvertedFrom ctx.torch t t' ∧ ResolvesTo st node.name (cleanName target, t')
  /-- A constant has no key. -/
  keys : ∀ node ∈ ctx.program.nodes, ∀ target t, weightTarget ctx.program node = some target →
    storedUnder ctx.program target = some t →
    (hfKeyMap ctx.program).lookup (cleanName target) =
      (ctx.program.stateDict.lookup target).map fun _ => target
  inputs : ∀ node ∈ ctx.program.nodes, IsUserInput ctx.program node →
    ∃ ssa, st.ssaMap.lookup node.name = some ssa ∧ ∀ e ∈ st.weights, ssa ∉ (weightOp e).results
  /-- No constant that was made has replaced a tensor. -/
  kept : ∀ w t, (initialWeights ctx.program).lookup w = some t →
    ∃ t', st.weights.lookup w = some t' ∧ ConvertedFrom ctx.torch t t'

/-! ## The condition -/

/-- The names of a program differ where they must, also without their dots. -/
structure NamesApart (program : ExportedProgram V) : Prop where
  /-- No name behind it in the state dict becomes that of a parameter or buffer. -/
  params : ∀ node ∈ program.nodes, ∀ target, weightTarget program node = some target →
    ∀ before t after, program.stateDict = before ++ (target, t) :: after →
      ∀ e ∈ after, cleanName e.1 ≠ cleanName target
  /-- No weight's name becomes that of a constant, and the first constant with it has its tensor. -/
  constants : ∀ node ∈ program.nodes, ∀ target t, weightTarget program node = some target →
    program.stateDict.lookup target = none → program.constants.lookup target = some t →
    (∀ e ∈ program.stateDict, cleanName e.1 ≠ cleanName target) ∧
      (program.constants.find? fun e => cleanName e.1 = cleanName target).map Prod.snd = some t
  /-- No name of a tensor becomes that of a user input. -/
  inputs : ∀ node ∈ program.nodes, IsUserInput program node →
    ∀ e ∈ program.stateDict ++ program.constants, mappedName program node ≠ some (cleanName e.1)

/-- The constants made for a node are named neither like a tensor nor like a user input. -/
def ConstGuard (ctx : Context V) (st : State V) (node : Node) : Prop :=
  ∀ halOp c, Calls node halOp → collectArgs ctx st node halOp = .ok c →
    ∀ k, st.nameCounter ≤ k → k < c.nameCounter →
      constName k ∉ (initialWeights ctx.program).map Prod.fst ∧
        ∀ n ∈ ctx.program.nodes, IsUserInput ctx.program n →
          mappedName ctx.program n ≠ some (constName k)

/-- Nodes and tensors have names of their own, as PyTorch gives them. -/
structure Exported (program : ExportedProgram V) : Prop where
  nodes : (program.nodes.map Node.name).Nodup
  stateDict : (program.stateDict.map Prod.fst).Nodup

section Tables

variable {β γ : Type} {w target : String}

theorem lookup_updateKeys (d new : List (String × β)) :
    (updateKeys d new).lookup w = (new.reverse.lookup w).or (d.lookup w) := by
  induction new using reverseRecOn with
  | nil => rfl
  | append_singleton new e ih =>
    rw [updateKeys, foldl_append, reverse_append]
    show (setKey (updateKeys d new) e.1 e.2).lookup w = ((e :: new.reverse).lookup w).or _
    by_cases hw : w = e.1
    · rw [hw, lookup_setKey_self, lookup_cons_self, Option.some_or]
    · rw [lookup_setKey_ne hw, ih, lookup_cons, beq_eq_false_iff_ne.2 hw]

theorem lookup_setDefaults (f : String → String) (new : List (String × β)) (d : List (String × β)) :
    (new.foldl (fun d e => setDefault d (f e.1) e.2) d).lookup w =
      (d.lookup w).or ((new.find? fun e => f e.1 = w).map Prod.snd) := by
  induction new generalizing d with
  | nil => rw [foldl_nil, find?_nil, Option.map_none, Option.or_none]
  | cons e new ih =>
    rw [foldl_cons, ih, setDefault, find?_cons]
    by_cases hin : (d.lookup (f e.1)).isSome = true
    · rw [if_pos hin]
      by_cases hw : f e.1 = w
      · rw [← hw, Option.or_of_isSome hin, Option.or_of_isSome hin]
      · rw [decide_eq_false hw]
    · rw [if_neg hin, lookup_append]
      by_cases hw : f e.1 = w
      · rw [← hw, Option.not_isSome_iff_eq_none.1 hin, decide_eq_true rfl]
        simp
      · rw [decide_eq_false hw, lookup_cons, beq_eq_false_iff_ne.2 (Ne.symm hw)]
        simp

theorem lookup_cleaned (l : List (String × β)) (g : String × β → γ) :
    (l.map fun e => (cleanName e.1, g e)).lookup w =
      (l.find? fun e => cleanName e.1 = w).map g := by
  induction l with
  | nil => rfl
  | cons e l ih =>
    rw [map_cons, lookup_cons, find?_cons]
    by_cases hw : cleanName e.1 = w
    · rw [decide_eq_true hw, hw, beq_self_eq_true]
      rfl
    · rw [decide_eq_false hw, beq_eq_false_iff_ne.2 (Ne.symm hw)]
      exact ih

theorem lookup_hfKeyMap : (hfKeyMap program).lookup w =
    (program.stateDict.reverse.find? fun e => cleanName e.1 = w).map Prod.fst := by
  rw [hfKeyMap, lookup_updateKeys, ← map_reverse, lookup_cleaned]
  exact Option.or_none

theorem lookup_initialWeights : (initialWeights program).lookup w =
    ((program.stateDict.reverse.find? fun e => cleanName e.1 = w).map Prod.snd).or
      ((program.constants.find? fun e => cleanName e.1 = w).map Prod.snd) := by
  rw [initialWeights, lookup_setDefaults, lookup_updateKeys, ← map_reverse, lookup_cleaned]
  exact congrArg (fun o => Option.or o _) Option.or_none

theorem mem_initialWeights : w ∈ (initialWeights program).map Prod.fst ↔
    ∃ e ∈ program.stateDict ++ program.constants, cleanName e.1 = w := by
  rw [← isSome_lookup, lookup_initialWeights, Option.isSome_or, Option.isSome_map,
    Option.isSome_map, Bool.or_eq_true, find?_isSome, find?_isSome]
  simp only [mem_reverse, decide_eq_true_eq, mem_append, or_and_right, exists_or]

theorem find?_reverse_cases {l before after : List (String × β)} {t : β}
    (hnodup : (l.map Prod.fst).Nodup) (hl : l = before ++ (target, t) :: after) :
    (∀ e ∈ after, cleanName e.1 ≠ cleanName target) ∧
        l.reverse.find? (fun e => cleanName e.1 = cleanName target) = some (target, t) ∨
      ¬ (∀ e ∈ after, cleanName e.1 ≠ cleanName target) ∧ ∃ e ∈ l, e.1 ≠ target ∧
          l.reverse.find? (fun e => cleanName e.1 = cleanName target) = some e := by
  have hreverse : l.reverse = after.reverse ++ (target, t) :: before.reverse := by
    rw [hl, reverse_append, reverse_cons, append_assoc, singleton_append]
  rw [hreverse, find?_append]
  cases hfind : after.reverse.find? fun e => cleanName e.1 = cleanName target with
  | none =>
    refine .inl ⟨fun e he => ?_, ?_⟩
    · simpa using find?_eq_none.1 hfind e (mem_reverse.2 he)
    · rw [Option.none_or, find?_cons_of_pos (by simp)]
  | some e =>
    have hmem := mem_reverse.1 (mem_of_find?_eq_some hfind)
    have hclean : cleanName e.1 = cleanName target := by simpa using find?_some hfind
    refine .inr ⟨fun h => h e hmem hclean, e, ?_, ?_, rfl⟩
    · exact hl ▸ mem_append_right _ (mem_cons_of_mem _ hmem)
    · rintro htarget
      rw [hl, map_append, map_cons] at hnodup
      exact (nodup_cons.1 (nodup_append.1 hnodup).2.1).1
        (mem_map.2 ⟨e, hmem, htarget⟩)

end Tables

theorem mappedName_of_weightTarget {target : String} (h : weightTarget program node = some target) :
    mappedName program node = some (cleanName target) := by
  rw [weightTarget] at h
  rw [mappedName]
  cases hop : node.op with
  | placeholder =>
    rw [hop] at h
    have hmap : weightNameMap program.inputSpecs node.name = some (cleanName target) := by
      have hget := congrArg (Option.map cleanName) h
      rw [← dictGet_map_snd, map_map] at hget
      exact hget
    rw [hmap]
    rfl
  | getAttr =>
    rw [hop] at h
    cases h
    rfl
  | callFunction => rw [hop] at h; cases h
  | output => rw [hop] at h; cases h

/-- The weights behind a node: those in front of it, or those its arguments leave, converted. -/
theorem Converts.weights (h : Converts ctx st node st') : st'.weights = st.weights ∨
    ∃ halOp c, Calls node halOp ∧ collectArgs ctx st node halOp = .ok c ∧
      st'.weights.map Prod.fst = c.weights.map Prod.fst ∧
      ∀ w t, c.weights.lookup w = some t →
        ∃ t', st'.weights.lookup w = some t' ∧ ConvertedFrom ctx.torch t t' := by
  cases h with
  | op hcall hgeneric hc hemit =>
    rename_i halOp c
    obtain ⟨r, e⟩ := emitted_of_ok hemit
    obtain ⟨p, out, hres⟩ := resolves_of_ok e.resolve
    refine .inr ⟨halOp, c, hcall, hc, ?_, ?_⟩
    · rw [e.weights, hres.weights, (promote_onOperands hres.promoted).1]
    · rw [e.weights, hres.weights]
      refine promote_invariant (Q := fun p => ∀ w t, c.weights.lookup w = some t →
        ∃ t', p.weights.lookup w = some t' ∧ ConvertedFrom ctx.torch t t')
        (fun w t ht => ⟨t, ht, .refl⟩) ?_ ?_ hres.promoted
      · intro p i key dtype elt hp w t ht
        obtain ⟨t', ht', hconv⟩ := hp w t ht
        show ∃ t', (castWeight ctx.torch p.weights key dtype).lookup w = some t' ∧ _
        rw [castWeight]
        cases hkey : p.weights.lookup key with
        | none => exact ⟨t', ht', hconv⟩
        | some =>
          by_cases hw : w = key
          · obtain rfl := Option.some.inj (ht'.symm.trans (hw ▸ hkey))
            exact ⟨_, hw ▸ lookup_setKey_self, hconv.tail ⟨dtype, rfl⟩⟩
          · exact ⟨t', (lookup_setKey_ne hw).trans ht', hconv⟩
      · intro p i _ hp
        rw [promoteOperand]
        split <;> exact hp
  | placeholder hop hval => exact .inl rfl
  | getAttr hop hval => exact .inl rfl
  | unmapped hop hmap hval => exact .inl rfl
  | skipWrap hcall => exact .inl rfl
  | element hcall hargs hssa hshape => exact .inl rfl
  | sized hcall hargs hssa => exact .inl rfl
  | sliced hcall hkind hnode hargs htensor htypes => exact .inl rfl
  | dropped hcall => exact .inl rfl
  | returned hop => exact .inl rfl

/-- A node is mapped itself, and no other one. -/
theorem Converts.mapped (h : Converts ctx st node st') :
    (∀ n, n ≠ node.name → st'.ssaMap.lookup n = st.ssaMap.lookup n) ∧
      ∀ name, mappedName ctx.program node = some name →
        st'.ssaMap.lookup node.name = some ("%" ++ name) := by
  have hcall : ∀ halOp, Calls node halOp → ∀ name, mappedName ctx.program node ≠ some name := by
    rintro halOp ⟨target, hop, -⟩ name h
    rw [mappedName, hop] at h
    cases h
  cases h with
  | placeholder hop hval =>
    refine ⟨fun n hn => lookup_setKey_ne hn, fun name hname => ?_⟩
    rw [mappedName, hop] at hname
    cases hname
    exact lookup_setKey_self
  | getAttr hop hval =>
    refine ⟨fun n hn => lookup_setKey_ne hn, fun name hname => ?_⟩
    rw [mappedName, hop] at hname
    cases hname
    exact lookup_setKey_self
  | unmapped hop hmap hval =>
    refine ⟨fun n _ => rfl, fun name hname => ?_⟩
    rw [mappedName, hop] at hname
    cases hname
  | skipWrap h =>
    exact ⟨fun n hn => lookup_setKey_ne hn, fun name hname => absurd hname (hcall _ h name)⟩
  | element h hargs hssa hshape =>
    exact ⟨fun n hn => lookup_setKey_ne hn, fun name hname => absurd hname (hcall _ h name)⟩
  | sized h hargs hssa =>
    exact ⟨fun n hn => lookup_setKey_ne hn, fun name hname => absurd hname (hcall _ h name)⟩
  | sliced h hkind hnode hargs htensor htypes =>
    subst hnode
    exact ⟨fun n hn => lookup_setKey_ne hn, fun name hname => absurd hname (hcall _ h name)⟩
  | dropped h =>
    obtain ⟨hal, -, h⟩ := h
    exact ⟨fun n _ => rfl, fun name hname => absurd hname (hcall _ h name)⟩
  | op h hgeneric hc hemit =>
    obtain ⟨r, e⟩ := emitted_of_ok hemit
    rw [e.ssaMap]
    exact ⟨fun n hn => lookup_setKey_ne hn, fun name hname => absurd hname (hcall _ h name)⟩
  | returned hop =>
    refine ⟨fun n _ => rfl, fun name hname => ?_⟩
    rw [mappedName, hop] at hname
    cases hname

/-! ## Whole conversions -/

/-- What holds behind the nodes `done`. -/
structure IdentityInv (ctx : Context V) (done : List Node) (st : State V) : Prop where
  mapped : ∀ node ∈ done, ∀ name, mappedName ctx.program node = some name →
    st.ssaMap.lookup node.name = some ("%" ++ name)
  kept : ∀ w t, (initialWeights ctx.program).lookup w = some t →
    ∃ t', st.weights.lookup w = some t' ∧ ConvertedFrom ctx.torch t t'
  keys : ∀ w ∈ st.weights.map Prod.fst, w ∈ (initialWeights ctx.program).map Prod.fst ∨
    ∀ n ∈ ctx.program.nodes, IsUserInput ctx.program n → mappedName ctx.program n ≠ some w
  nodup : (st.weights.map Prod.fst).Nodup

theorem nodup_initialWeights : ((initialWeights program).map Prod.fst).Nodup := by
  have hparams : ∀ l d : List (String × Tensor V), (d.map Prod.fst).Nodup →
      ((updateKeys d l).map Prod.fst).Nodup := by
    intro l
    induction l with
    | nil => exact fun d hd => hd
    | cons e l ih => exact fun d hd => ih _ (nodup_keys_setKey hd)
  have hconsts : ∀ l d : List (String × Tensor V), (d.map Prod.fst).Nodup →
      ((l.foldl (fun d e => setDefault d (cleanName e.1) e.2) d).map Prod.fst).Nodup := by
    intro l
    induction l with
    | nil => exact fun d hd => hd
    | cons e l ih =>
      refine fun d hd => ih _ ?_
      show (map Prod.fst (if _ then _ else _)).Nodup
      split
      · exact hd
      · rename_i hnew
        rw [isSome_lookup] at hnew
        rw [map_append, nodup_append]
        refine ⟨hd, nodup_singleton _, fun a ha b hb hab => hnew ?_⟩
        obtain rfl : b = cleanName e.1 := mem_singleton.1 hb
        exact hab ▸ ha
  exact hconsts _ _ (hparams _ _ nodup_nil)

theorem IdentityInv.converts {done : List Node} (h : IdentityInv ctx done st)
    (hnames : ∀ n ∈ done, n.name ≠ node.name) (hguard : ConstGuard ctx st node)
    (hconv : Converts ctx st node st') : IdentityInv ctx (done ++ [node]) st' := by
  obtain ⟨hframe, hself⟩ := hconv.mapped
  have hmapped : ∀ n ∈ done ++ [node], ∀ name, mappedName ctx.program n = some name →
      st'.ssaMap.lookup n.name = some ("%" ++ name) := by
    intro n hn name hname
    rcases mem_append.1 hn with hn | hn
    · rw [hframe _ (hnames n hn)]
      exact h.mapped n hn name hname
    · rw [mem_singleton.1 hn] at hname ⊢
      exact hself name hname
  rcases hconv.weights with hsame | ⟨halOp, c, hcall, hc, hkeys, hconverted⟩
  · exact ⟨hmapped, hsame ▸ h.kept, hsame ▸ h.keys, hsame ▸ h.nodup⟩
  · have hcollects := collectArgs_spec hc
    have hapart := hguard halOp c hcall hc
    refine ⟨hmapped, fun w t ht => ?_, fun w hw => ?_, hkeys ▸ hcollects.nodup h.nodup⟩
    · -- the new constants have other names
      obtain ⟨s, hs, hconv⟩ := h.kept w t ht
      have hw : c.weights.lookup w = some s := by
        rw [hcollects.frame w fun k hk hk' hwk => (hapart k hk hk').1 ?_, hs]
        rw [← hwk]
        exact isSome_lookup.1 (Option.isSome_of_eq_some ht)
      obtain ⟨t', ht', hconv'⟩ := hconverted w s hw
      exact ⟨t', ht', hconv.trans hconv'⟩
    · rw [hkeys] at hw
      rcases hcollects.keys_new hw with hw | ⟨k, hk, hk', rfl⟩
      · exact h.keys w hw
      · exact .inr (hapart k hk hk').2

theorem identityInv_of_ok (hnodes : (ctx.program.nodes.map Node.name).Nodup)
    (hevery : EveryStep ctx (ConstGuard ctx))
    (h : convertNodes ctx (initialState ctx.program) ctx.program.nodes = .ok st) :
    IdentityInv ctx ctx.program.nodes st := by
  have hsplit : ctx.program.nodes = ctx.program.nodes ++ [] := (append_nil _).symm
  refine convertNodes_invariant hevery ?_ ?_ hsplit h
  · exact ⟨nofun, fun w t ht => ⟨t, ht, .refl⟩,
      fun w hw => .inl hw, nodup_initialWeights⟩
  · intro done node rest s s' hsplit hinv hguard hconv
    refine hinv.converts (fun n hn hname => ?_) hguard hconv
    rw [hsplit, map_append, map_cons] at hnodes
    exact (nodup_append.1 hnodes).2.2 _ (mem_map_of_mem hn) _ mem_cons_self hname

theorem resolvesTo_of_lookup {name w : String} {t : Tensor V}
    (hnodup : (st.weights.map Prod.fst).Nodup) (hmap : st.ssaMap.lookup name = some ("%" ++ w))
    (ht : st.weights.lookup w = some t) : ResolvesTo st name (w, t) := by
  refine ⟨_, hmap, fun e => ⟨fun ⟨he, hres⟩ => ?_, ?_⟩⟩
  · have hw : "%" ++ w = "%" ++ e.1 := mem_singleton.1 hres
    obtain rfl : w = e.1 := (String.append_right_inj _).1 hw
    rw [lookup_of_mem hnodup he] at ht
    exact Prod.ext rfl (Option.some.inj ht)
  · rintro rfl
    exact ⟨mem_of_lookup ht, mem_singleton.2 rfl⟩

/-- Where no constant takes a name, identity is kept exactly if the names are apart. -/
theorem keepsIdentity_iff (hprogram : Exported ctx.program)
    (hevery : EveryStep ctx (ConstGuard ctx))
    (h : convertNodes ctx (initialState ctx.program) ctx.program.nodes = .ok st) :
    KeepsIdentity ctx st ↔ NamesApart ctx.program := by
  have hinv := identityInv_of_ok hprogram.nodes hevery h
  constructor
  · intro hkeeps
    refine ⟨?_, ?_, ?_⟩
    · intro node hnode target htarget before t after hdict
      have hparam : ctx.program.stateDict.lookup target = some t :=
        lookup_of_mem hprogram.stateDict (hdict ▸ mem_append_right _ mem_cons_self)
      have hlookup : storedUnder ctx.program target = some t := by
        rw [storedUnder, hparam]
        rfl
      have hkey := hkeeps.keys node hnode target t htarget hlookup
      rw [hparam, lookup_hfKeyMap] at hkey
      obtain ⟨hlast, -⟩ | ⟨-, e, he, hne, hfind⟩ := find?_reverse_cases hprogram.stateDict hdict
      · exact hlast
      · rw [hfind] at hkey
        exact absurd (Option.some.inj hkey) hne
    · intro node hnode target t htarget hparam hconst
      have hlookup : storedUnder ctx.program target = some t := by
        rw [storedUnder, hparam, hconst]
        rfl
      have hkey := hkeeps.keys node hnode target t htarget hlookup
      rw [hparam, lookup_hfKeyMap, Option.map_none, Option.map_eq_none_iff, find?_eq_none] at hkey
      have hfree : ∀ e ∈ ctx.program.stateDict, cleanName e.1 ≠ cleanName target := fun e he =>
        by simpa using hkey e (mem_reverse.2 he)
      have hweight := (hkeeps.weights node hnode target t htarget hlookup).1
      rw [lookup_initialWeights, find?_eq_none.2 (by simpa using hfree), Option.map_none,
        Option.none_or] at hweight
      exact ⟨hfree, hweight⟩
    · intro node hnode hinput e he hname
      obtain ⟨ssa, hssa, hnone⟩ := hkeeps.inputs node hnode hinput
      rw [hinv.mapped node hnode _ hname] at hssa
      obtain rfl := Option.some.inj hssa
      obtain ⟨t, ht⟩ := Option.isSome_iff_exists.1
        (isSome_lookup.2 (mem_initialWeights.2 ⟨e, he, rfl⟩))
      obtain ⟨t', ht', -⟩ := hinv.kept _ t ht
      exact hnone _ (mem_of_lookup ht') (mem_singleton.2 rfl)
  · intro hapart
    -- the tables before the conversion
    have htables : ∀ node ∈ ctx.program.nodes, ∀ target t,
        weightTarget ctx.program node = some target → storedUnder ctx.program target = some t →
        (initialWeights ctx.program).lookup (cleanName target) = some t ∧
          (hfKeyMap ctx.program).lookup (cleanName target) =
            (ctx.program.stateDict.lookup target).map fun _ => target := by
      intro node hnode target t htarget hstored
      rw [lookup_initialWeights, lookup_hfKeyMap]
      cases hparam : ctx.program.stateDict.lookup target with
      | some s =>
        rw [storedUnder, hparam] at hstored
        obtain rfl := Option.some.inj hstored
        obtain ⟨before, after, hdict⟩ := append_of_mem (mem_of_lookup hparam)
        have hlast := hapart.params node hnode target htarget before s after hdict
        obtain ⟨-, hfind⟩ | ⟨hnot, -⟩ := find?_reverse_cases hprogram.stateDict hdict
        · rw [hfind]
          exact ⟨rfl, rfl⟩
        · exact absurd hlast hnot
      | none =>
        rw [storedUnder, hparam, Option.none_or] at hstored
        obtain ⟨hfree, hfirst⟩ := hapart.constants node hnode target t htarget hparam hstored
        rw [find?_eq_none.2 (by simpa using hfree)]
        exact ⟨hfirst, rfl⟩
    refine ⟨fun node hnode target t htarget hstored => ?_,
      fun node hnode target t htarget hstored =>
      (htables node hnode target t htarget hstored).2, fun node hnode hinput => ?_, hinv.kept⟩
    · have hinitial := (htables node hnode target t htarget hstored).1
      obtain ⟨t', ht', hconv⟩ := hinv.kept _ t hinitial
      exact ⟨hinitial, t', hconv, resolvesTo_of_lookup hinv.nodup
        (hinv.mapped node hnode _ (mappedName_of_weightTarget htarget)) ht'⟩
    · obtain ⟨name, hname⟩ : ∃ name, mappedName ctx.program node = some name := by
        rw [mappedName, hinput.1]
        exact ⟨_, rfl⟩
      refine ⟨_, hinv.mapped node hnode _ hname, fun e he hres => ?_⟩
      have heq : "%" ++ name = "%" ++ e.1 := mem_singleton.1 hres
      obtain rfl : name = e.1 := (String.append_right_inj _).1 heq
      rcases hinv.keys e.1 (mem_map_of_mem he) with hkey | hfree
      · obtain ⟨e', he', hclean⟩ := mem_initialWeights.1 hkey
        exact hapart.inputs node hnode hinput e' he' (hclean ▸ hname)
      · exact hfree node hnode hinput hname

section Clash

variable (names : List String)

def loading : ExportedProgram Unit where
  nodes := [⟨"x", .placeholder, [], [], none⟩] ++
    (names.zipIdx.map fun e => ⟨"p_" ++ Nat.repr e.2, .placeholder, [], [], none⟩)
  userInputs := ["x"]
  inputSpecs := names.zipIdx.map fun e => ⟨2, "p_" ++ Nat.repr e.2, e.1⟩
  stateDict := names.zipIdx.map fun e => (e.1, ⟨[e.2], "float32", replicate e.2 ()⟩)
  constants := []

def loadingContext : Context Unit where
  torch := ⟨fun _ => (), fun _ => (), fun _ _ => (), fun _ => none, fun _ _ => none, fun _ => ""⟩
  infer := fun _ _ _ => .ok []
  program := loading names

theorem constGuard_of_placeholder {st : State V} (hop : node.op = .placeholder) :
    ConstGuard ctx st node := by
  rintro halOp c ⟨target, hcall, -⟩
  rw [hop] at hcall
  cases hcall

theorem everyStep_loading :
    EveryStep (loadingContext names) (ConstGuard (loadingContext names)) := by
  intro k node st hk _
  have hnode : node ∈ (loading names).nodes := mem_of_getElem? hk
  rcases mem_append.1 hnode with hnode | hnode
  · rw [mem_singleton.1 hnode]
    exact constGuard_of_placeholder rfl
  · obtain ⟨e, -, rfl⟩ := mem_map.1 hnode
    exact constGuard_of_placeholder rfl

/-- Two parameters that are apart. -/
theorem keepsIdentity_iff_loading : ∃ st, convertNodes (loadingContext ["fc.weight", "fc.bias"])
        (initialState (loading ["fc.weight", "fc.bias"]))
        (loading ["fc.weight", "fc.bias"]).nodes = .ok st ∧
      KeepsIdentity (loadingContext ["fc.weight", "fc.bias"]) st := by
  obtain ⟨st, hst⟩ : ∃ st, convertNodes (loadingContext ["fc.weight", "fc.bias"])
      (initialState (loading ["fc.weight", "fc.bias"]))
      (loading ["fc.weight", "fc.bias"]).nodes = .ok st := ⟨_, rfl⟩
  refine ⟨st, hst, (keepsIdentity_iff ⟨by decide, by decide⟩ (everyStep_loading _) hst).2
    ⟨fun node _ target _ before t after hdict e he hclean => ?_,
      fun node _ target t _ _ hconst => ?_, ?_⟩⟩
  · have hnames : ((loading ["fc.weight", "fc.bias"]).stateDict.map fun e =>
        cleanName e.1).Nodup := by decide +kernel
    have hdict' : (loading ["fc.weight", "fc.bias"]).stateDict =
        before ++ (target, t) :: after := hdict
    rw [hdict', map_append, map_cons] at hnames
    exact (nodup_cons.1 (nodup_append.1 hnames).2.1).1
      (mem_map.2 ⟨e, he, hclean⟩)
  · cases hconst
  · have hapart : ∀ node ∈ (loading ["fc.weight", "fc.bias"]).nodes,
        node.name ∈ (loading ["fc.weight", "fc.bias"]).userInputs →
        ∀ e ∈ (loading ["fc.weight", "fc.bias"]).stateDict ++
          (loading ["fc.weight", "fc.bias"]).constants,
          mappedName (loading ["fc.weight", "fc.bias"]) node ≠ some (cleanName e.1) := by
      decide +kernel
    exact fun node hnode hinput => hapart node hnode hinput.2

/-- The tensor of `a_b` is loaded for `a.b` as well. -/
theorem clash_loads_one_tensor : ∃ st,
    convertNodes (loadingContext ["a.b", "a_b"]) (initialState (loading ["a.b", "a_b"]))
        (loading ["a.b", "a_b"]).nodes = .ok st ∧
      st.ssaMap.lookup "p_0" = st.ssaMap.lookup "p_1" ∧
      ¬ KeepsIdentity (loadingContext ["a.b", "a_b"]) st := by
  refine ⟨_, rfl, by decide +kernel, fun h => ?_⟩
  have hkey := h.keys ⟨"p_0", .placeholder, [], [], none⟩ (by decide) "a.b" ⟨[0], "float32", []⟩
    (by decide +kernel) rfl
  revert hkey
  decide +kernel

end Clash

end CompileForge.Compiler.Fx
