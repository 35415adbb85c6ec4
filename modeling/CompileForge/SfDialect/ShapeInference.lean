/-
  `computeBroadcastShape` (`sf-dialect/lib/Sf/SfShapeInference.cpp`) folded over a list of shapes
  in any grouping is `_broadcast_shapes` on the list.  A static dim is `some`,
  `ShapedType::kDynamic` is `none`.
-/

import CompileForge.Compiler.Shape.Broadcast

namespace CompileForge.SfDialect

open Lib Compiler.Shape List

/-- The result dim where both operands have one. -/
def broadcastDims (lhsDim rhsDim : Dim) : Option Dim :=
  match lhsDim, rhsDim with
  | some m, some n =>
    if m = n ∨ m = 1 then some (some n) else if n = 1 then some (some m) else none
  | none, none => some none
  | none, some n => some (if n = 1 then none else some n)
  | some m, none => some (if m = 1 then none else some m)

/-- A column's answer is a fold of an associative operation on what is known of a dim. -/
def broadcastPlace (lhs rhs : List Dim) (i : Nat) : Option Dim :=
  let lhsHas := i ≤ lhs.length
  let rhsHas := i ≤ rhs.length
  let lhsDim := lhs.getD (lhs.length - i) none
  let rhsDim := rhs.getD (rhs.length - i) none
  if ¬ lhsHas then some rhsDim
  else if ¬ rhsHas then some lhsDim
  else broadcastDims lhsDim rhsDim

def computeBroadcastShape (lhs rhs : List Dim) : Option (List Dim) :=
  let outRank := max lhs.length rhs.length
  (range outRank).mapM fun k => broadcastPlace lhs rhs (outRank - k)

/-- The order in which the shapes are folded. -/
inductive Grouping where
  | shape (s : List Dim)
  | pair (l r : Grouping)

def Grouping.shapes : Grouping → List (List Dim)
  | shape s => [s]
  | pair l r => l.shapes ++ r.shapes

def Grouping.fold : Grouping → Option (List Dim)
  | shape s => some s
  | pair l r => do
    let lhs ← l.fold
    let rhs ← r.fold
    computeBroadcastShape lhs rhs

/-! ## A column as a fold -/

/-- The rule on what is known of a column, where `none` is a conflict. -/
def meetDims (a b : Option Dim) : Option Dim := do
  let m ← a
  let n ← b
  broadcastDims m n

def meetAll (dims : List Dim) : Option Dim :=
  dims.foldr (fun d m => meetDims (some d) m) (some (some 1))

section Column

variable {m n : Int} {d : Dim} {a b c : Option Dim} {dims : List Dim}

@[simp] theorem broadcastDims_one_left (d : Dim) : broadcastDims (some 1) d = some d := by
  cases d with
  | none => rfl
  | some => exact if_pos (.inr rfl)

@[simp] theorem broadcastDims_one_right (d : Dim) : broadcastDims d (some 1) = some d := by
  cases d with
  | none => rfl
  | some m =>
    by_cases hm : m = 1
    · rw [hm, broadcastDims_one_left]
    · exact (if_neg (by rwa [or_self])).trans (if_pos rfl)

theorem broadcastDims_unknown : broadcastDims none none = some none := rfl

theorem broadcastDims_unknown_left (hn : n ≠ 1) :
    broadcastDims none (some n) = some (some n) :=
  congrArg some (if_neg hn)

theorem broadcastDims_unknown_right (hm : m ≠ 1) :
    broadcastDims (some m) none = some (some m) :=
  congrArg some (if_neg hm)

theorem broadcastDims_sizes (hm : m ≠ 1) (hn : n ≠ 1) :
    broadcastDims (some m) (some n) = if m = n then some (some n) else none := by
  rw [broadcastDims, if_neg hn]
  simp only [hm, or_false]

theorem dim_cases (d : Dim) : d = some 1 ∨ d = none ∨ ∃ m, d = some m ∧ m ≠ 1 := by
  rcases d with _ | m
  · exact .inr (.inl rfl)
  · by_cases hm : m = 1
    · exact .inl (congrArg some hm)
    · exact .inr (.inr ⟨m, rfl, hm⟩)

theorem meetDims_one (a : Option Dim) : meetDims (some (some 1)) a = a := by
  cases a with
  | none => rfl
  | some d => exact broadcastDims_one_left d

theorem meetDims_none (a : Option Dim) : meetDims a none = none := by
  cases a with
  | none => rfl
  | some => rfl

theorem meetDims_assoc (a b c : Option Dim) :
    meetDims (meetDims a b) c = meetDims a (meetDims b c) := by
  cases a with
  | none => rfl
  | some x =>
  cases b with
  | none => rfl
  | some y =>
  cases c with
  | none => rw [meetDims_none, meetDims_none, meetDims_none]
  | some z =>
    show (broadcastDims x y).bind (broadcastDims · z) = (broadcastDims y z).bind (broadcastDims x)
    obtain rfl | rfl | ⟨l, rfl, hl⟩ := dim_cases x
    · rw [broadcastDims_one_left, Option.bind_some]
      cases broadcastDims y z <;> simp
    all_goals obtain rfl | rfl | ⟨m, rfl, hm⟩ := dim_cases y
    all_goals obtain rfl | rfl | ⟨n, rfl, hn⟩ := dim_cases z
    all_goals try simp only [*, broadcastDims_one_left, broadcastDims_one_right,
      broadcastDims_unknown, broadcastDims_unknown_left, broadcastDims_unknown_right,
      broadcastDims_sizes, Option.bind_some, ne_eq, not_false_eq_true]
    all_goals
      split_ifs <;> simp_all [broadcastDims_unknown_left, broadcastDims_unknown_right,
        broadcastDims_sizes]

theorem meetAll_append (xs ys : List Dim) :
    meetAll (xs ++ ys) = meetDims (meetAll xs) (meetAll ys) := by
  induction xs with
  | nil => exact (meetDims_one _).symm
  | cons d xs ih =>
    show meetDims (some d) (meetAll (xs ++ ys)) = meetDims (meetDims (some d) (meetAll xs)) _
    rw [ih, meetDims_assoc]

theorem meetAll_ones (h : ∀ d ∈ dims, d = some 1) : meetAll dims = some (some 1) := by
  induction dims with
  | nil => rfl
  | cons d dims ih =>
    obtain ⟨rfl, hrest⟩ := forall_mem_cons.1 h
    show meetDims (some (some 1)) (meetAll dims) = _
    rw [meetDims_one, ih hrest]

/-- The fold in closed form: the sizes other than one decide, then an unknown dim. -/
theorem meetAll_eq (dims : List Dim) :
    meetAll dims = match (dims.filterMap id).filter (· ≠ 1) with
      | [] => some (if dims.any Option.isNone then none else some 1)
      | n :: rest => if rest.all (· = n) then some (some n) else none := by
  induction dims with
  | nil => rfl
  | cons d dims ih =>
    show meetDims (some d) (meetAll dims) = _
    rw [ih]
    have hsize : ∀ n rest, (dims.filterMap id).filter (· ≠ 1) = n :: rest → n ≠ 1 := by
      intro n rest hknown
      have hmem : n ∈ (dims.filterMap id).filter (· ≠ 1) := hknown ▸ mem_cons_self
      simpa using (mem_filter.1 hmem).2
    obtain rfl | rfl | ⟨m, rfl, hm⟩ := dim_cases d
    · rw [meetDims_one]
      simp
    · rw [filterMap_cons_none rfl, any_cons]
      cases hknown : (dims.filterMap id).filter (· ≠ 1) with
      | nil => cases dims.any Option.isNone <;> rfl
      | cons n rest =>
        dsimp only
        split
        · exact broadcastDims_unknown_left (hsize n rest hknown)
        · rfl
    · rw [filterMap_cons_some (f := id) (b := m) rfl, filter_cons_of_pos (by simpa using hm)]
      cases hknown : (dims.filterMap id).filter (· ≠ 1) with
      | nil =>
        cases dims.any Option.isNone with
        | false => exact broadcastDims_one_right (some m)
        | true => exact broadcastDims_unknown_right hm
      | cons n rest =>
        have hmn := broadcastDims_sizes hm (hsize n rest hknown)
        by_cases heq : m = n
        · subst heq
          simp only [all_cons, decide_true, Bool.true_and]
          split
          · exact hmn.trans (if_pos rfl)
          · rfl
        · rw [if_neg heq] at hmn
          simp only [all_cons, Ne.symm heq, decide_false, Bool.false_and]
          rw [if_neg Bool.false_ne_true]
          split
          · exact hmn
          · rfl

theorem broadcastDim_eq_ok {d : Dim} (hne : dims ≠ []) :
    broadcastDim dims = .ok d ↔ meetAll dims = some d := by
  rw [meetAll_eq, broadcastDim]
  cases hknown : (dims.filterMap id).filter (· ≠ 1) with
  | nil =>
    by_cases hany : dims.any Option.isNone
    · simp only [if_pos hany, Except.ok.injEq, Option.some_inj]
    · -- no dim is unknown, and none is another size than one
      obtain ⟨x, rest, rfl⟩ := exists_cons_of_ne_nil hne
      have hx : x = some 1 := by
        cases x with
        | none => exact absurd rfl hany
        | some n =>
          by_contra hn
          rw [filterMap_cons_some (f := id) (b := n) rfl,
            filter_cons_of_pos (by simpa using fun h => hn (congrArg some h))] at hknown
          cases hknown
      simp only [headD_cons, hx, Except.ok.injEq, Option.some_inj]
  | cons =>
    dsimp only
    split
    · rw [Except.ok.injEq, Option.some_inj]
    · exact iff_of_false (fun h => by cases h) fun h => by cases h

end Column

/-! ## Shapes -/

def Folded (S : List (List Dim)) (out : List Dim) : Prop :=
  out.length = maxRank S ∧ ∀ j < maxRank S,
    meetAll (S.map (fromRight (some 1) · j)) = some (fromRight (some 1) out j)

section Shapes

variable {lhs rhs out : List Dim} {S T : List (List Dim)}

theorem broadcastShapes_eq_ok_iff (hne : S ≠ []) :
    broadcastShapes S = .ok out ↔ Folded S out := by
  rw [broadcastShapes_eq_ok, Folded]
  exact and_congr_right fun _ => forall₂_congr fun j _ =>
    broadcastDim_eq_ok (mt map_eq_nil_iff.1 hne)

theorem broadcastPlace_eq {j : Nat} (hj : j < max lhs.length rhs.length) :
    broadcastPlace lhs rhs (j + 1) =
      broadcastDims (fromRight (some 1) lhs j) (fromRight (some 1) rhs j) := by
  have hget : ∀ s : List Dim, j < s.length →
      s.getD (s.length - (j + 1)) none = fromRight (some 1) s j := by
    intro s hs
    have hback : s.length - 1 - (s.length - 1 - j) = j := by omega
    rw [Nat.sub_add_eq, Nat.sub_right_comm, getD_eq_getElem _ _ (by omega),
      ← fromRight_eq_getElem (some 1) (by omega), hback]
  simp only [broadcastPlace]
  by_cases hl : j < lhs.length
  · by_cases hr : j < rhs.length
    · rw [if_neg (by omega), if_neg (by omega), hget lhs hl, hget rhs hr]
    · rw [if_neg (by omega), if_pos (by omega), hget lhs hl,
        fromRight_of_le (some 1) (not_lt.1 hr), broadcastDims_one_right]
  · rw [if_pos (by omega), fromRight_of_le (some 1) (not_lt.1 hl), broadcastDims_one_left,
      hget rhs (by omega)]

theorem computeBroadcastShape_eq_some :
    computeBroadcastShape lhs rhs = some out ↔
      out.length = max lhs.length rhs.length ∧ ∀ j < max lhs.length rhs.length,
        broadcastDims (fromRight (some 1) lhs j) (fromRight (some 1) rhs j) =
          some (fromRight (some 1) out j) := by
  rw [computeBroadcastShape, mapM_eq_some_forall₂, forall₂_range_iff (some 1)]
  refine and_congr_right fun _ => forall₂_congr fun j hj => ?_
  rw [show max lhs.length rhs.length - (max lhs.length rhs.length - 1 - j) = j + 1 by omega,
    broadcastPlace_eq hj]

theorem maxRank_append : maxRank (S ++ T) = max (maxRank S) (maxRank T) := by
  induction S with
  | nil => exact (Nat.zero_max _).symm
  | cons s S ih =>
    show max s.length (maxRank (S ++ T)) = max (max s.length (maxRank S)) _
    rw [ih, Nat.max_assoc]

theorem Folded.column (h : Folded S out) (j : Nat) :
    meetAll (S.map (fromRight (some 1) · j)) = some (fromRight (some 1) out j) := by
  by_cases hj : j < maxRank S
  · exact h.2 j hj
  · rw [fromRight_of_le (some 1) (by rw [h.1]; omega)]
    refine meetAll_ones (forall_mem_map.2 fun s hs => ?_)
    have hle := le_maxRank hs
    exact fromRight_of_le (some 1) (by omega)

theorem exists_folded (h : ∀ j, meetAll (S.map (fromRight (some 1) · j)) ≠ none) :
    ∃ out, Folded S out := by
  choose d hd using fun j => Option.ne_none_iff_exists'.1 (h j)
  refine ⟨((range (maxRank S)).map d).reverse, by simp, fun j hj => ?_⟩
  rw [hd, fromRight, reverse_reverse, getD_eq_getElem _ _ (by simpa using hj), getElem_map,
    getElem_range]

theorem folded_append :
    Folded (S ++ T) out ↔
      ∃ lhs rhs, Folded S lhs ∧ Folded T rhs ∧ computeBroadcastShape lhs rhs = some out := by
  constructor
  · intro h
    have hcolumn := fun j => h.column j
    simp only [map_append, meetAll_append] at hcolumn
    obtain ⟨lhs, hlhs⟩ := exists_folded (S := S) fun j hnone => by
      have := hcolumn j
      rw [hnone] at this
      cases this
    obtain ⟨rhs, hrhs⟩ := exists_folded (S := T) fun j hnone => by
      have := hcolumn j
      rw [hnone, meetDims_none] at this
      cases this
    refine ⟨lhs, rhs, hlhs, hrhs, computeBroadcastShape_eq_some.2 ⟨?_, fun j _ => ?_⟩⟩
    · rw [h.1, maxRank_append, hlhs.1, hrhs.1]
    · have hj := hcolumn j
      rwa [hlhs.column, hrhs.column] at hj
  · rintro ⟨lhs, rhs, hlhs, hrhs, h⟩
    obtain ⟨hlen, hdims⟩ := computeBroadcastShape_eq_some.1 h
    rw [hlhs.1, hrhs.1, ← maxRank_append] at hlen hdims
    refine ⟨hlen, fun j hj => ?_⟩
    rw [map_append, meetAll_append, hlhs.column, hrhs.column]
    exact hdims j hj

theorem Grouping.shapes_ne_nil : ∀ t : Grouping, t.shapes ≠ []
  | shape _ => cons_ne_nil _ _
  | pair l _ => append_ne_nil_of_left_ne_nil l.shapes_ne_nil _

theorem Grouping.fold_eq_some (t : Grouping) : t.fold = some out ↔ Folded t.shapes out := by
  induction t generalizing out with
  | shape s =>
    have hcolumn : ∀ j, meetAll ([s].map (fromRight (some 1) · j)) =
        some (fromRight (some 1) s j) := fun j => broadcastDims_one_right _
    constructor
    · intro h
      cases h
      exact ⟨(Nat.max_zero _).symm, fun j _ => hcolumn j⟩
    · rintro ⟨hlen, h⟩
      refine congrArg some (ext_fromRight (some 1) ?_ fun j hj => ?_)
      · rw [hlen]
        exact (Nat.max_zero _).symm
      · have hj' := h j (lt_of_lt_of_le hj (Nat.le_max_left _ _))
        rw [shapes, hcolumn] at hj'
        exact Option.some.inj hj'
  | pair l r ihl ihr =>
    rw [shapes, folded_append]
    simp only [fold, Option.bind_eq_bind, Option.bind_eq_some_iff, ihl, ihr]
    exact ⟨fun ⟨lhs, hl, rhs, hr, h⟩ => ⟨lhs, rhs, hl, hr, h⟩,
      fun ⟨lhs, rhs, hl, hr, h⟩ => ⟨lhs, hl, rhs, hr, h⟩⟩

/-- However the shapes are grouped, folding the verifier's rule gives what inference gives. -/
theorem computeBroadcastShape_fold (t : Grouping) :
    t.fold = (broadcastShapes t.shapes).toOption := by
  refine Option.ext fun out => ?_
  rw [t.fold_eq_some, ← broadcastShapes_eq_ok_iff t.shapes_ne_nil]
  cases broadcastShapes t.shapes with
  | error => exact iff_of_false nofun nofun
  | ok => rw [Except.ok.injEq, Except.toOption, Option.some_inj]

example : (Grouping.pair (.pair (.shape [none, some 1]) (.shape [some 4])) (.shape [none])).fold =
    some [none, some 4] := by decide

end Shapes

end CompileForge.SfDialect
