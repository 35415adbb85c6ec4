/-
  How the result of an op is named: after its node, or by a name made up for it.
-/

import CompileForge.Compiler.Fx.Emits

namespace CompileForge.Compiler.Fx

open Lib Lib.StraightLine List

variable {V : Type} {ctx : Context V} {st : State V} {node : Node} {halOp : String}
  {c : Collected V}

/-- Ops whose results are named by their kind. -/
def schemeOps : List String := ["sym_size", "arange", "le", "expand", "logical_and", "view"]

/-- The result is named after its node. -/
def namesItself (node : Node) : Bool :=
  match node.op with
  | .callFunction target =>
    match mapAtenOp target with
    | some halOp => halOp ∉ schemeOps ∧ halOp ∉ ["_skip_wrap", "split", "chunk"]
    | none => false
  | _ => false

/-- The names a program brings along: those of the inputs, the weights and the nodes. -/
def outsideNames (program : ExportedProgram V) : List String :=
  program.userInputs ++ (initialWeights program).map Prod.fst ++
    (program.nodes.filter namesItself).map Node.name

theorem namesItself_of_calls (h : Calls node halOp) (hscheme : halOp ∉ schemeOps)
    (hother : halOp ∉ ["_skip_wrap", "split", "chunk"]) : namesItself node = true := by
  obtain ⟨target, hop, hmap⟩ := h
  rw [namesItself, hop]
  simp only [hmap]
  exact decide_eq_true ⟨hscheme, hother⟩

/-! ## Names made up -/

def numberedOps : List (String × String) :=
  [("expand", "attn_mask"), ("logical_and", "mask_and"), ("view", "reshape")]

def arangeText (key : String) : String := String.ofList (key.toList.filter (· ≠ '%'))

/-- The made-up names that a node may get. -/
inductive Makes (st : State V) (node : Node) : MadeUp → Prop
  | causalMask (hcall : Calls node "le") : Makes st node .causalMask
  | size {source : String} {dim : Int} (hcall : Calls node "sym_size")
      (hargs : node.args = [.item (.node source), .item (.int dim)]) :
      Makes st node (.size (ssaKey (ssaName st.ssaMap source)) dim)
  | numbered {halOp base : String} {k : Nat} (hcall : Calls node halOp)
      (hbase : (halOp, base) ∈ numberedOps) (hk : st.nameCounter ≤ k) :
      Makes st node (.counted base k)
  | promote {halOp : String} {k : Nat} (hcall : Calls node halOp) (hop : halOp ∈ sameTypeOps)
      (hk : st.nameCounter ≤ k) : Makes st node (.counted "promote" k)
  | const {halOp : String} {k : Nat} (hcall : Calls node halOp) (hop : halOp ∉ handledOps)
      (hk : st.nameCounter ≤ k) : Makes st node (.counted "_const" k)
  | arange {key : String} {k : Nat} (hcall : Calls node "arange")
      (hkey : firstArgKey st.ssaMap node.args = some key) (hk : st.nameCounter ≤ k) :
      Makes st node (.arange (arangeText key) k)
  | arangeNumbered {k : Nat} (hcall : Calls node "arange")
      (hkey : firstArgKey st.ssaMap node.args = none) (hk : st.nameCounter ≤ k) :
      Makes st node (.arange (Nat.repr k) k)
  | piece {kind : String} {i : Nat} (hcall : Calls node kind) (hkind : kind ∈ ["split", "chunk"]) :
      Makes st node (.piece node.name kind i)

/-- A name of a result: the node's, or one that is made up. -/
inductive NameTag where
  | own (name : String)
  | made (t : MadeUp)

def NameTag.render : NameTag → String
  | own name => name
  | made t => t.render

inductive ResultTag (st : State V) (node : Node) (halOp : String) (nameCounter : Nat) :
    NameTag → Prop
  | own (hscheme : halOp ∉ schemeOps) : ResultTag st node halOp nameCounter (.own node.name)
  | causalMask (hop : halOp = "le") : ResultTag st node halOp nameCounter (.made .causalMask)
  | size {source : String} {dim : Int} (hop : halOp = "sym_size")
      (hargs : node.args = [.item (.node source), .item (.int dim)]) :
      ResultTag st node halOp nameCounter (.made (.size (ssaKey (ssaName st.ssaMap source)) dim))
  | numbered {base : String} (hbase : (halOp, base) ∈ numberedOps) :
      ResultTag st node halOp nameCounter (.made (.counted base nameCounter))
  | arange {key : String} (hop : halOp = "arange")
      (hkey : firstArgKey st.ssaMap node.args = some key) :
      ResultTag st node halOp nameCounter (.made (.arange (arangeText key) nameCounter))
  | arangeNumbered (hop : halOp = "arange") (hkey : firstArgKey st.ssaMap node.args = none) :
      ResultTag st node halOp nameCounter (.made (.arange (Nat.repr nameCounter) nameCounter))

theorem collectArgs_size {source : String} {dim : Int}
    (hargs : node.args = [.item (.node source), .item (.int dim)]) :
    collectArgs ctx st node "sym_size" =
      .ok ⟨[ssaName st.ssaMap source], st.nameCounter, st.weights,
        [("dim", .item (.int dim))]⟩ := by
  have hnames : scalarKwargNames "sym_size" = [(1, "dim")] := by decide
  have hpositions : scalarIntPositions "sym_size" = [1] := by decide
  rw [collectArgs, if_neg (by decide), hargs]
  simp only [collectInputArgs, zipIdx_cons, zipIdx_nil, foldl_cons,
    foldl_nil, collectItem, Collected.push, Collected.keyword, hnames, hpositions]
  rfl

theorem opKwargs_size {inputNames : List String} {nameCounter : Nat}
    {weights : List (String × Tensor V)} {dim : Int} :
    opKwargs node "sym_size" ⟨inputNames, nameCounter, weights, [("dim", .item (.int dim))]⟩ =
      setKey node.kwargs "dim" (.item (.int dim)) := by
  have hfirst : ¬ ("sym_size" = "ones_like" ∧ inputNames = []) := fun h =>
    absurd h.1 (by decide)
  have hsecond : ¬ ("sym_size" = "full_like" ∧ inputNames = []) := fun h =>
    absurd h.1 (by decide)
  rw [opKwargs, applyPostKwargs, if_neg hfirst, if_neg hsecond,
    if_neg fun h => absurd h.1 (by decide)]
  rfl

/-! ## The name of a result -/

theorem percent_counted {base : String} (k : Nat) {literal : String}
    (h : "%" ++ base ++ "_" = literal) :
    literal ++ Nat.repr k = "%" ++ (MadeUp.counted base k).render := by
  rw [← h, MadeUp.render]
  simp only [String.append_assoc]

theorem percent_arange (key : String) (k : Nat) :
    "%arange_" ++ key ++ "_" ++ Nat.repr k = "%" ++ (MadeUp.arange key k).render := by
  have hliteral : "%arange_" = "%" ++ "arange_" := by decide
  rw [hliteral, MadeUp.render]
  simp only [String.append_assoc]

theorem outputName_eq (hname : node.name ≠ "") (hc : collectArgs ctx st node halOp = .ok c)
    (hsize : halOp = "sym_size" →
      ∃ source dim, node.args = [.item (.node source), .item (.int dim)]) :
    ∃ tag, ResultTag st node halOp c.nameCounter tag ∧
      outputName ctx st node halOp c = "%" ++ tag.render := by
  rw [outputName, semanticSsaName]
  split
  case isTrue hop =>
    subst hop
    obtain ⟨source, dim, hargs⟩ := hsize rfl
    obtain rfl := Except.ok.inj ((collectArgs_size hargs).symm.trans hc)
    refine ⟨_, .size rfl hargs, ?_⟩
    rw [opKwargs_size, lookup_setKey_self, hargs]
    simp only [NameTag.render, MadeUp.render, firstArgKey, argText, Option.map_some,
      Option.getD_some, String.append_assoc, Int.toString_eq_repr]
  case isFalse hsize =>
    split
    case isTrue hop =>
      cases hkey : firstArgKey st.ssaMap node.args with
      | some key => exact ⟨_, .arange hop hkey, percent_arange (arangeText key) c.nameCounter⟩
      | none =>
        exact ⟨_, .arangeNumbered hop hkey, percent_arange (Nat.repr c.nameCounter) c.nameCounter⟩
    case isFalse harange =>
      split
      case isTrue hop => exact ⟨_, .causalMask hop, rfl⟩
      case isFalse hle =>
        split
        case isTrue hop =>
          have hbase : ("expand", "attn_mask") ∈ numberedOps := by decide
          exact ⟨_, .numbered (hop ▸ hbase), percent_counted _ (by decide)⟩
        case isFalse hexpand =>
          split
          case isTrue hop =>
            have hbase : ("logical_and", "mask_and") ∈ numberedOps := by decide
            exact ⟨_, .numbered (hop ▸ hbase), percent_counted _ (by decide)⟩
          case isFalse hand =>
            split
            case isTrue hop =>
              have hbase : ("view", "reshape") ∈ numberedOps := by decide
              exact ⟨_, .numbered (hop ▸ hbase), percent_counted _ (by decide)⟩
            case isFalse hview =>
              refine ⟨_, .own ?_, rfl⟩
              simp only [schemeOps, mem_cons, not_mem_nil, or_false, not_or]
              exact ⟨hsize, harange, hle, hexpand, hand, hview⟩

/-! ## Keys -/

theorem ssaKey_eq_self_iff {name : String} : ssaKey name = name ↔ name.toList.head? ≠ some '%' := by
  rw [← String.toList_inj, toList_ssaKey]
  cases name.toList with
  | nil => simp
  | cons x l =>
    rw [head?_cons, ne_eq, Option.some_inj]
    by_cases hx : x = '%'
    · subst hx
      rw [dropWhile_cons_of_pos (by decide)]
      refine iff_of_false (fun h => ?_) (fun h => h rfl)
      have hle := (dropWhile_sublist (l := l) fun c => decide (c = '%')).length_le
      rw [h, length_cons] at hle
      omega
    · rw [dropWhile_cons_of_neg (by simpa using hx)]
      exact iff_of_true rfl hx

theorem ssaKey_append {a b : String} (ha : ssaKey a = a) (hb : ssaKey b = b) :
    ssaKey (a ++ b) = a ++ b := by
  rw [ssaKey_eq_self_iff] at ha hb ⊢
  rw [String.toList_append, head?_append]
  cases h : a.toList.head? with
  | none => exact hb
  | some =>
    rw [h] at ha
    exact ha

theorem ssaKey_append_left {a b : String} (ha : ssaKey a = a) (hne : a ≠ "") :
    ssaKey (a ++ b) = a ++ b := by
  rw [ssaKey_eq_self_iff] at ha ⊢
  rw [String.toList_append, head?_append_of_ne_nil]
  · exact ha
  · exact fun h => hne (String.toList_eq_nil_iff.1 h)

theorem ssaKey_digits (k : Nat) : ssaKey (Nat.repr k) = Nat.repr k := by
  rw [ssaKey_eq_self_iff, Nat.toList_repr]
  intro h
  exact notMem_digits (by decide) k (mem_of_head? h)

def MadeUp.HasKeys : MadeUp → Prop
  | size key _ => ssaKey key = key
  | piece node _ _ => ssaKey node = node
  | _ => True

theorem MadeUp.ssaKey_render {t : MadeUp} (ht : t.Admissible) (hkeys : t.HasKeys) :
    ssaKey t.render = t.render := by
  cases t with
  | causalMask => decide
  | size =>
    rw [render, String.append_assoc]
    exact ssaKey_append hkeys (ssaKey_append_left (by decide) (by decide))
  | counted base k =>
    have hbases : ∀ base ∈ countedBases, ssaKey base = base := by decide
    exact ssaKey_append (ssaKey_append (hbases base ht) (by decide)) (ssaKey_digits k)
  | arange =>
    rw [render, String.append_assoc, String.append_assoc]
    exact ssaKey_append_left (by decide) (by decide)
  | piece node kind i =>
    have hkinds : ∀ kind ∈ ["split", "chunk"], ssaKey kind = kind := by decide
    exact ssaKey_append (ssaKey_append (ssaKey_append (ssaKey_append hkeys (by decide))
      (hkinds kind ht)) (by decide)) (ssaKey_digits i)

end CompileForge.Compiler.Fx
