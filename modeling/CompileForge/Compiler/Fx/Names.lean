/-
  The names the converter makes up for results: those of `_semantic_ssa_name` that are not
  the node's own, the casts, the constants, and the pieces of `split` and `chunk`.
-/

import CompileForge.Compiler.Fx.Convert

namespace CompileForge.Compiler.Fx

open Lib List

/-- Two of them differ unless they are of one kind and made from the same parts. -/
inductive MadeUp where
  | causalMask
  /-- A dim of a value. -/
  | size (key : String) (dim : Int)
  /-- A name of `countedBases`. -/
  | counted (base : String) (k : Nat)
  | arange (key : String) (k : Nat)
  | piece (node kind : String) (i : Nat)

def countedBases : List String := ["attn_mask", "mask_and", "reshape", "promote", "_const"]

namespace MadeUp

/-- The name without its `%`. -/
def render : MadeUp → String
  | causalMask => "causal_mask"
  | size key dim => key ++ "_dim_" ++ dim.repr
  | counted base k => base ++ "_" ++ Nat.repr k
  | arange key k => "arange_" ++ key ++ "_" ++ Nat.repr k
  | piece node kind i => node ++ "__" ++ kind ++ "_" ++ Nat.repr i

theorem underscore_mem_render (t : MadeUp) : '_' ∈ t.render.toList := by
  cases t <;> simp [render]

/-- What stands before the last `_`. -/
def stem : MadeUp → String
  | causalMask => "causal"
  | size key _ => key ++ "_dim"
  | counted base _ => base
  | arange key _ => "arange_" ++ key
  | piece node kind _ => node ++ ("__" ++ kind)

/-- What stands behind the last `_`. -/
def suffix : MadeUp → String
  | causalMask => "mask"
  | size _ dim => dim.repr
  | counted _ k => Nat.repr k
  | arange _ k => Nat.repr k
  | piece _ _ i => Nat.repr i

/-- The kind that the end of a name shows, before its number. -/
def endKind (l : List Char) : Option Nat :=
  if "_dim".toList <:+ l then some 1
  else if "__split".toList <:+ l then some 2
  else if "__chunk".toList <:+ l then some 3
  else none

/-- What the kinds are made of, so that no two of them can have one name. -/
def Admissible : MadeUp → Prop
  | counted base _ => base ∈ countedBases
  | arange key _ => endKind ("arange_" ++ key).toList = none
  | piece _ kind _ => kind ∈ ["split", "chunk"]
  | _ => True

theorem render_eq (t : MadeUp) : t.render = t.stem ++ ("_" ++ t.suffix) := by
  cases t with
  | causalMask => decide
  | size => simp only [render, stem, suffix, String.append_assoc]; rfl
  | counted => simp only [render, stem, suffix, String.append_assoc]
  | arange => simp only [render, stem, suffix, String.append_assoc]
  | piece => simp only [render, stem, suffix, String.append_assoc]

theorem notMem_suffix (t : MadeUp) : '_' ∉ t.suffix.toList := by
  have hnat : ∀ k : Nat, '_' ∉ (Nat.repr k).toList := by
    intro k
    rw [Nat.toList_repr]
    exact notMem_digits (by decide) k
  cases t with
  | causalMask => decide
  | size key dim => exact notMem_intRepr (by decide) (by decide) dim
  | counted base k => exact hnat k
  | arange key k => exact hnat k
  | piece node kind i => exact hnat i

theorem toList_render (t : MadeUp) : t.render.toList = t.stem.toList ++ '_' :: t.suffix.toList := by
  rw [render_eq, String.toList_append, String.toList_append]
  rfl

variable {s t : MadeUp} {a b c : String}

theorem stem_suffix_of_render_eq (h : s.render = t.render) :
    s.stem = t.stem ∧ s.suffix = t.suffix := by
  have hlist := congrArg String.toList h
  rw [toList_render, toList_render] at hlist
  obtain ⟨hstem, hsuffix⟩ := append_cons_inj_of_last s.notMem_suffix t.notMem_suffix hlist
  exact ⟨String.ext hstem, String.ext hsuffix⟩

/-! ## Kinds -/

/-- The kind a name is of, read off what stands before its last `_`. -/
def kindOf (stem : List Char) : Nat :=
  match endKind stem with
  | some kind => kind
  | none =>
    if "arange_".toList <+: stem then 4 else if stem = "causal".toList then 5 else 0

def kindClass (kind : Nat) : Nat := if kind = 3 then 2 else kind

def kind : MadeUp → Nat
  | counted _ _ => 0
  | size _ _ => 1
  | piece _ _ _ => 2
  | arange _ _ => 4
  | causalMask => 5

theorem endKind_append_dim (key : String) : endKind (key ++ "_dim").toList = some 1 := by
  rw [String.toList_append, endKind, if_pos (suffix_append _ _)]

theorem not_suffix_append {a b l : List Char} (hlen : a.length ≤ b.length) (h : ¬ a <:+ b) :
    ¬ a <:+ l ++ b :=
  fun hsuffix => h (suffix_of_suffix_length_le hsuffix (suffix_append l b) hlen)

theorem endKind_piece (node : String) {kind : String} (h : kind ∈ ["split", "chunk"]) :
    endKind (node ++ ("__" ++ kind)).toList = some 2 ∨
      endKind (node ++ ("__" ++ kind)).toList = some 3 := by
  rw [String.toList_append]
  rcases mem_pair.1 h with rfl | rfl
  · rw [endKind, if_neg (not_suffix_append (by decide) (by decide))]
    exact .inl (if_pos (suffix_append _ _))
  · rw [endKind, if_neg (not_suffix_append (by decide) (by decide)),
      if_neg (not_suffix_append (by decide) (by decide))]
    exact .inr (if_pos (suffix_append _ _))

theorem endKind_digits (l : List Char) (k : Nat) : endKind (l ++ Nat.toDigits 10 k) = none := by
  have hne : Nat.toDigits 10 k ≠ [] := Nat.toDigits_ne_nil
  have hlast : ∀ (ending : List Char) (hend : ending ≠ []), (ending.getLast hend).isDigit = false →
      ¬ ending <:+ l ++ Nat.toDigits 10 k := by
    rintro ending hend hletter ⟨before, hbefore⟩
    have hsame : ending.getLast hend = (Nat.toDigits 10 k).getLast hne := by
      have hbehind : ∀ (front back : List Char) (h : back ≠ []),
          (front ++ back).getLast (append_ne_nil_of_right_ne_nil front h) = back.getLast h :=
        fun _ _ h => getLast_append_right h
      rw [← hbehind before ending hend, ← hbehind l _ hne]
      exact getLast_congr _ _ hbefore
    exact notMem_digits hletter k (hsame ▸ getLast_mem hne)
  rw [endKind, if_neg (hlast _ (by decide) (by decide)), if_neg (hlast _ (by decide) (by decide)),
    if_neg (hlast _ (by decide) (by decide))]

theorem kindClass_kindOf (ht : t.Admissible) :
    kindClass (kindOf t.stem.toList) = t.kind := by
  cases t with
  | causalMask => decide
  | size =>
    rw [stem, kindOf, endKind_append_dim]
    rfl
  | counted base =>
    have hbases : ∀ base ∈ countedBases, kindClass (kindOf base.toList) = 0 := by decide
    exact hbases base ht
  | arange key =>
    have hend : endKind ("arange_" ++ key).toList = none := ht
    rw [stem, kindOf, hend, String.toList_append]
    exact congrArg kindClass (if_pos (prefix_append _ _))
  | piece node =>
    rcases endKind_piece node ht with hend | hend
    · rw [stem, kindOf, hend]
      rfl
    · rw [stem, kindOf, hend]
      rfl

/-! ## Injectivity -/

theorem piece_stem_injective {node node' kind kind' : String} (hkind : kind ∈ ["split", "chunk"])
    (hkind' : kind' ∈ ["split", "chunk"]) (h : node ++ ("__" ++ kind) = node' ++ ("__" ++ kind')) :
    node = node' ∧ kind = kind' := by
  have hlen : ∀ kind ∈ ["split", "chunk"], ("__".toList ++ kind.toList).length = 7 := by decide
  have hlist := congrArg String.toList h
  simp only [String.toList_append] at hlist
  obtain ⟨hnode, hrest⟩ := append_inj' hlist (by rw [hlen kind hkind, hlen kind' hkind'])
  exact ⟨String.ext hnode, String.ext (append_cancel_left hrest)⟩

theorem append_left_injective (h : a ++ b = a ++ c) : b = c := by
  have hlist := congrArg String.toList h
  rw [String.toList_append, String.toList_append] at hlist
  exact String.ext (append_cancel_left hlist)

theorem append_right_injective (h : a ++ c = b ++ c) : a = b := by
  have hlist := congrArg String.toList h
  rw [String.toList_append, String.toList_append] at hlist
  exact String.ext (append_cancel_right hlist)

theorem render_injective (hs : s.Admissible) (ht : t.Admissible)
    (h : s.render = t.render) : s = t := by
  obtain ⟨hstem, hsuffix⟩ := stem_suffix_of_render_eq h
  have hkind : s.kind = t.kind := by
    rw [← kindClass_kindOf hs, ← kindClass_kindOf ht, hstem]
  have hnat : ∀ {i j : Nat}, i.repr = j.repr → i = j := fun h =>
    append_repr_injective "" (congrArg ("" ++ ·) h)
  cases s with
  | causalMask =>
    cases t with
    | causalMask => rfl
    | _ => cases hkind
  | size =>
    cases t with
    | size => rw [append_right_injective hstem, intRepr_injective hsuffix]
    | _ => cases hkind
  | counted base =>
    cases t with
    | counted base' =>
      have hbase : base = base' := hstem
      rw [hbase, hnat hsuffix]
    | _ => cases hkind
  | arange =>
    cases t with
    | arange => rw [append_left_injective hstem, hnat hsuffix]
    | _ => cases hkind
  | piece =>
    cases t with
    | piece =>
      obtain ⟨rfl, rfl⟩ := piece_stem_injective hs ht hstem
      rw [hnat hsuffix]
    | _ => cases hkind

end MadeUp

end CompileForge.Compiler.Fx
