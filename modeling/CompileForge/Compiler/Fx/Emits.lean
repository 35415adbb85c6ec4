/-
  What is emitted for one node: the op with its casts in front of it, or the slices of a split.
  Of the promotion of operands this needs the names only.
-/

import CompileForge.Compiler.Fx.Names
import CompileForge.Compiler.Fx.Steps
import CompileForge.Compiler.SplitWiring

namespace CompileForge.Compiler.Fx

open Lib Lib.StraightLine List
open Shape (TensorTy)

variable {V : Type} {ctx : Context V} {st st' : State V} {node : Node} {halOp : String}
  {c : Collected V}

theorem keys_castWeight (torch : Torch V) (weights : List (String × Tensor V))
    (key dtype : String) :
    (castWeight torch weights key dtype).map Prod.fst = weights.map Prod.fst := by
  rw [castWeight]
  cases h : weights.lookup key with
  | none => rfl
  | some => exact keys_setKey.trans (if_pos (isSome_lookup.1 (Option.isSome_of_eq_some h)))

/-- Casts are of operands there are, and a weight that is converted keeps its key. -/
def Promoting.OnOperands (weights : List (String × Tensor V)) (n : Nat) (p : Promoting V) : Prop :=
  p.weights.map Prod.fst = weights.map Prod.fst ∧ ∀ q ∈ p.promotions, q.1 < n

section Promotion

variable {torch : Torch V} {weights : List (String × Tensor V)} {n i : Nat} {p : Promoting V}

variable {sourceNode : String} {inputNames : List String} {inputs : List TensorTy}

theorem promote_invariant {Q : Promoting V → Prop}
    (hstart : Q ⟨inputs.map fun ty => pytorchToMlir ty.elt, weights, []⟩)
    (hweight : ∀ p i key dtype elt, Q p → Q (p.castTo torch i key dtype elt))
    (hoperand : ∀ p i, i < inputs.length → Q p → Q (promoteOperand (inputs.map TensorTy.shape) p i))
    (h : promote torch halOp sourceNode inputNames inputs weights = .ok p) : Q p := by
  have hconst : ∀ p name first elt i, Q p → Q (promoteConst torch name first elt i p) := by
    intro p name first elt i hp
    rw [promoteConst]
    split
    · exact hweight p i _ _ _ hp
    · split
      · exact hweight p i _ _ _ hp
      · split
        · exact hweight p i _ _ _ hp
        · split
          · exact hweight p i _ _ _ hp
          · exact hp
  rw [promote] at h
  split at h
  · refine (foldlM_eq_ok (P := fun _ p => Q p) hstart ?_ h).1
    intro k i p p' hk hp hturn
    have hi : i < inputs.length :=
      mem_range.1 (mem_of_mem_drop (mem_of_getElem? hk))
    rw [promoteTurn] at hturn
    split at hturn
    · exact Except.ok.inj hturn ▸ hp
    · split at hturn
      · exact Except.ok.inj hturn ▸ hconst p _ _ _ i hp
      · split at hturn
        · exact Except.ok.inj hturn ▸ hweight p i _ _ _ hp
        · split at hturn
          · exact Except.ok.inj hturn ▸ hoperand _ i hi (hoperand p 0 (Nat.zero_lt_of_lt hi) hp)
          · cases hturn
  · exact Except.ok.inj h ▸ hstart

theorem Promoting.OnOperands.promoteOperand (h : p.OnOperands weights n)
    (shapes : List (List Shape.Dim)) (hi : i < n) :
    (promoteOperand shapes p i).OnOperands weights n := by
  rw [Fx.promoteOperand]
  split
  · exact h
  · refine ⟨h.1, fun q hq => ?_⟩
    rcases mem_append.1 hq with hq | hq
    · exact h.2 q hq
    · rw [mem_singleton.1 hq]
      exact hi

theorem promote_onOperands (h : promote torch halOp sourceNode inputNames inputs weights = .ok p) :
    p.OnOperands weights inputs.length :=
  promote_invariant ⟨rfl, nofun⟩
    (fun p _ key dtype _ hp => ⟨(keys_castWeight torch p.weights key dtype).trans hp.1, hp.2⟩)
    (fun _ _ hi hp => hp.promoteOperand _ hi) h

end Promotion

/-! ## An op -/

variable (node c ctx st halOp)

/-- The casts of an op, the operands and the counter behind them. -/
def castsOf (r : ResolvedTypes V) : List MlirOp × List String × Nat :=
  emitCasts node r.inputTypes r.promotions c.inputNames (c.nameCounter + 1)

structure Emitted (r : ResolvedTypes V) (st' : State V) : Prop where
  resolve : resolveOpTypes ctx.torch ctx.infer halOp node.name c.inputNames
    (setKey st.ssaMap node.name (outputName ctx st node halOp c)) st.shapeMap c.weights
    (setKey (opKwargs node halOp c) "source_node" (.item (.str node.name))) = .ok r
  shapeMap : recordOutput st.shapeMap node.name r.outputTypes = .ok st'.shapeMap
  ops : st'.mlirOps = st.mlirOps ++
    ((castsOf node c r).1 ++ [nodeOp ctx st node halOp c r (castsOf node c r).2.1])
  ssaMap : st'.ssaMap = setKey st.ssaMap node.name (outputName ctx st node halOp c)
  weights : st'.weights = r.weights
  counter : st'.nameCounter = (castsOf node c r).2.2
  tuples : st'.tupleOutputs = st.tupleOutputs
  outputs : st'.funcOutputs = st.funcOutputs

variable {node c ctx st halOp}

theorem emitted_of_ok (h : emitOp ctx st node halOp c = .ok st') :
    ∃ r, Emitted ctx st node halOp c r st' := by
  obtain ⟨r, hr, h⟩ := bind_eq_ok h
  obtain ⟨shapeMap, hshape, h⟩ := bind_eq_ok h
  cases h
  exact ⟨r, hr, hshape, append_assoc .., rfl, rfl, rfl, rfl, rfl⟩

structure Resolves (torch : Torch V) (infer : InferOutputShape) (halOp sourceNode : String)
    (inputNames : List String) (inputs : List TensorTy) (weights : List (String × Tensor V))
    (kwargs : List (String × Arg)) (r : ResolvedTypes V) (p : Promoting V)
    (out : List TensorTy) : Prop where
  promoted : promote torch halOp sourceNode inputNames inputs weights = .ok p
  checked : checkElts halOp sourceNode inputNames p.elts = .ok ()
  inputTypes : r.inputTypes =
    (zipWith TensorTy.mk (inputs.map TensorTy.shape) p.elts).map fun ty =>
      shapeToMlirType ty.shape ty.elt
  outputTypes : applyDtypeHook halOp p.elts kwargs
    (out.map fun ty => shapeToMlirType ty.shape ty.elt) = .ok r.outputTypes
  promotions : r.promotions = p.promotions
  weights : r.weights = p.weights

theorem resolves_of_ok {torch : Torch V} {infer : InferOutputShape} {sourceNode : String}
    {inputNames : List String} {ssaMap : List (String × String)}
    {shapeMap : List (String × TensorTy)} {weights : List (String × Tensor V)}
    {kwargs : List (String × Arg)} {r : ResolvedTypes V}
    (h : resolveOpTypes torch infer halOp sourceNode inputNames ssaMap shapeMap weights kwargs =
      .ok r) :
    ∃ p out, Resolves torch infer halOp sourceNode inputNames
      (inputNames.map (operandTy ssaMap shapeMap weights)) weights kwargs r p out := by
  rw [resolveOpTypes] at h
  obtain ⟨p, hp, h⟩ := bind_eq_ok h
  obtain ⟨_, hcheck, h⟩ := bind_eq_ok h
  dsimp only at h
  split at h
  · obtain ⟨out, -, h⟩ := bind_eq_ok h
    obtain ⟨outputTypes, hout, h⟩ := bind_eq_ok h
    cases h
    exact ⟨p, out, hp, hcheck, rfl, hout, rfl, rfl⟩
  · obtain ⟨out, -, h⟩ := bind_eq_ok h
    obtain ⟨outputTypes, hout, h⟩ := bind_eq_ok h
    cases h
    exact ⟨p, out, hp, hcheck, rfl, hout, rfl, rfl⟩
  · cases h

/-! ## Casts -/

structure Casts (names : List String) (counter : Nat) (count : Nat)
    (e : List MlirOp × List String × Nat) : Prop where
  next : e.2.2 = counter + count
  length : e.2.1.length = names.length
  results : blockResults e.1 =
    (range' counter count).map fun k => (MadeUp.counted "promote" k).render
  inScope : ∀ K : String → Prop, (∀ n ∈ names, K (ssaKey n)) → Scoped K (program e.1)
  operands : ∀ n ∈ e.2.1, n ∈ names ∨ ssaKey n ∈ blockResults e.1

theorem ssaKey_promote (k : Nat) :
    ssaKey ("%promote_" ++ Nat.repr k) = (MadeUp.counted "promote" k).render := by
  have hlist : ("%promote_" ++ Nat.repr k).toList =
      '%' :: 'p' :: ("romote_" ++ Nat.repr k).toList := by
    simp only [String.toList_append]
    rfl
  have hrender : (MadeUp.counted "promote" k).render.toList =
      'p' :: ("romote_" ++ Nat.repr k).toList := by
    simp only [MadeUp.render, String.toList_append]
    rfl
  apply String.ext
  rw [toList_ssaKey, hlist, hrender, dropWhile_cons_of_pos (by decide),
    dropWhile_cons_of_neg (by decide)]

theorem casts_emitCasts (node : Node) (inputTypes : List String)
    (promotions : List (Nat × String × String)) (names : List String) (counter : Nat)
    (h : ∀ q ∈ promotions, q.1 < names.length) :
    Casts names counter promotions.length (emitCasts node inputTypes promotions names counter) := by
  induction promotions generalizing names counter with
  | nil =>
    exact ⟨rfl, rfl, rfl, fun _ _ => trivial, fun n hn => .inl hn⟩
  | cons q promotions ih =>
    have hq := h q mem_cons_self
    have hrest := ih (names.set q.1 ("%promote_" ++ Nat.repr counter)) (counter + 1)
      (fun q' hq' => by
        rw [length_set]
        exact h q' (mem_cons_of_mem _ hq'))
    have hoperand : names.getD q.1 "" ∈ names := by
      rw [getD_eq_getElem _ _ hq]
      exact getElem_mem hq
    have hname : ∀ n ∈ names.set q.1 ("%promote_" ++ Nat.repr counter),
        n ∈ names ∨ n = "%promote_" ++ Nat.repr counter := by
      intro n hn
      exact (mem_or_eq_of_mem_set hn)
    have hresults : blockResults (emitCasts node inputTypes (q :: promotions) names counter).1 =
        (MadeUp.counted "promote" counter).render ::
          (range' (counter + 1) promotions.length).map fun k =>
            (MadeUp.counted "promote" k).render := by
      rw [← hrest.results, ← ssaKey_promote]
      rfl
    refine ⟨?_, ?_, hresults, fun K hK => ⟨?_, ?_⟩, fun n hn => ?_⟩
    · rw [emitCasts, hrest.next, length_cons]
      omega
    · rw [emitCasts, hrest.length, length_set]
    · intro a ha
      rw [mem_singleton.1 ha]
      exact hK _ hoperand
    · refine hrest.inScope _ fun n hn => ?_
      rcases hname n hn with hn | rfl
      · exact .inl (hK n hn)
      · exact .inr (mem_singleton.2 rfl)
    · rw [hresults]
      rcases hrest.operands n hn with hn | hn
      · rcases hname n hn with hn | rfl
        · exact .inl hn
        · exact .inr (ssaKey_promote counter ▸ mem_cons_self)
      · exact .inr (mem_cons_of_mem _ (hrest.results ▸ hn))

end CompileForge.Compiler.Fx
