/-
  The HAL kernels of an op plan (`runtime/src/engine/op_plan/kernels.rs`), as far as they
  read the node.  The shapes and the elements are the business of the kernels, which are
  parameters of the executor.
-/

import CompileForge.Runtime.Engine.GraphRunner
import CompileForge.Lib.Outcome

namespace CompileForge.Runtime

open Lib

inductive HalOp where
  | layerNorm
  | linearTransb
  | attentionCausal
  | add
  | relu
  | mul
  | view
  | transpose
  | identity
deriving DecidableEq, Repr

def HalOp.name : HalOp → String
  | layerNorm => "layer_norm"
  | linearTransb => "linear_transb"
  | attentionCausal => "attention_causal"
  | add => "add"
  | relu => "relu"
  | mul => "mul"
  | view => "view"
  | transpose => "transpose"
  | identity => "identity"

def planOpCatalog : List HalOp :=
  [.layerNorm, .linearTransb, .attentionCausal, .add, .relu, .mul, .view, .transpose, .identity]

/-- The registry of the kernels. -/
def HalOp.ofName? (name : String) : Option HalOp :=
  planOpCatalog.find? fun op => op.name = name

/-! ## Parsing attributes -/

def isWhitespace (c : Char) : Bool :=
  let n := c.toNat
  (9 ≤ n && n ≤ 13) || n == 0x20 || n == 0x85 || n == 0xA0 || n == 0x1680 ||
    (0x2000 ≤ n && n ≤ 0x200A) || n == 0x2028 || n == 0x2029 || n == 0x202F || n == 0x205F ||
    n == 0x3000

def trimStart (p : Char → Bool) (cs : List Char) : List Char := cs.dropWhile p

def trimEnd (p : Char → Bool) (cs : List Char) : List Char := (cs.reverse.dropWhile p).reverse

def trim (cs : List Char) : List Char := trimEnd isWhitespace (trimStart isWhitespace cs)

/-- The digits of an integer up to `bound`, with the messages of `ParseIntError`. -/
def parseDigits (bound : Nat) (overflow : String) : List Char → Except String Nat
  | [] => .error "invalid digit found in string"
  | cs =>
    cs.foldlM (fun n c =>
      if c.isDigit = false then .error "invalid digit found in string"
      else if bound < 10 * n + (c.toNat - 48) then .error overflow
      else .ok (10 * n + (c.toNat - 48))) 0

def tooLarge : String := "number too large to fit in target type"

def tooSmall : String := "number too small to fit in target type"

def parseI64 : List Char → Except String Int
  | [] => .error "cannot parse integer from empty string"
  | '-' :: cs => (parseDigits (2 ^ 63) tooSmall cs).map fun n => -(n : Int)
  | '+' :: cs => (parseDigits (2 ^ 63 - 1) tooLarge cs).map fun n => (n : Int)
  | cs => (parseDigits (2 ^ 63 - 1) tooLarge cs).map fun n => (n : Int)

def parseUsize : List Char → Except String Nat
  | [] => .error "cannot parse integer from empty string"
  | '+' :: cs => parseDigits (2 ^ 64 - 1) tooLarge cs
  | cs => parseDigits (2 ^ 64 - 1) tooLarge cs

/-- The list of integers of an attribute's text. -/
def parseI64List (s : String) : Except String (List Int) :=
  let inner := trimEnd (· == ']') (trimStart (· == '[') (trim s.toList))
  if inner = [] then .ok []
  else
    (inner.splitOn ',').mapM fun p =>
      (parseI64 (trim p)).mapError fun e => s!"bad int list {s.quote}: {e}"

/-- What follows the digits of a float: nothing, or an exponent. -/
def isExponent : List Char → Bool
  | [] => true
  | c :: cs =>
    let digits :=
      match cs with
      | '+' :: rest => rest
      | '-' :: rest => rest
      | rest => rest
    (c == 'e' || c == 'E') && !digits.isEmpty && digits.all Char.isDigit

def isDecimal (cs : List Char) : Bool :=
  let whole := cs.takeWhile Char.isDigit
  match cs.dropWhile Char.isDigit with
  | '.' :: rest =>
    (!whole.isEmpty || !(rest.takeWhile Char.isDigit).isEmpty) &&
      isExponent (rest.dropWhile Char.isDigit)
  | rest => !whole.isEmpty && isExponent rest

/-- The strings that `parse::<f32>` accepts. -/
def isFloat (cs : List Char) : Bool :=
  let body :=
    match cs with
    | '+' :: rest => rest
    | '-' :: rest => rest
    | rest => rest
  let word := body.map Char.toLower
  word = "inf".toList || word = "infinity".toList || word = "nan".toList || isDecimal body

variable (attrs : List (String × String))

def attr (key : String) : Except Failure String :=
  orError s!"missing required attribute {key.quote}" (attrs.lookup key)

def attrI64List (key : String) : Except Failure (List Int) := do
  let s ← attr attrs key
  (parseI64List s).mapError .error

def attrUsize (key : String) : Except Failure Nat := do
  let s ← attr attrs key
  (parseUsize s.toList).mapError .error

/-- `attrs.get("scale").map(|s| s.parse::<f32>()).transpose()?`. -/
def checkScale : Except Failure Unit :=
  match attrs.lookup "scale" with
  | none => .ok ()
  | some s =>
    ensureOr (isFloat s.toList)
      (if s.toList = [] then "cannot parse float from empty string" else "invalid float literal")

/-! ## Operands -/

/-- How many operands an op insists on.  Where it would fail for its shapes and for its node, the
    node's failure is the one given. -/
def indexOperands (n numInputs : Nat) : Except Failure Unit :=
  if n ≤ numInputs then .ok () else .error .panic

/-- The operand that an entry of the `shape` attribute names. -/
def checkViewEntry (numInputs : Nat) (entry : Int) : Except Failure Unit :=
  if entry < -1 then
    let idx := (-entry - 2).toNat
    ensureOr (idx + 1 < numInputs)
      s!"view references dyn operand {idx}, only {numInputs - 1} provided"
  else .ok ()

variable (op : HalOp) (numInputs : Nat) (attrs : List (String × String))

/-- What `resolve_output_shape` reads of a node. -/
def shapeOperands : Except Failure Unit :=
  match op with
  | .layerNorm | .relu | .identity | .attentionCausal => indexOperands 1 numInputs
  | .linearTransb | .add | .mul => indexOperands 2 numInputs
  | .transpose => do
      let _ ← attrUsize attrs "dim0"
      let _ ← attrUsize attrs "dim1"
      indexOperands 1 numInputs
  | .view => do
      let entries ← attrI64List attrs "shape"
      indexOperands 1 numInputs
      entries.forM (checkViewEntry numInputs)

/-- What `execute` reads of a node, beyond the operands of its shape. -/
def kernelOperands : Except Failure Unit :=
  match op with
  | .layerNorm => do
      ensureOr (numInputs = 3) "layer_norm expects [x, weight, bias]"
      let _ ← attrI64List attrs "normalized_shape"
      .ok ()
  | .linearTransb => ensureOr (numInputs = 3) "linear_transb expects [x, weight, bias]"
  | .attentionCausal => do
      ensureOr (numInputs = 4) "attention_causal expects [q, k, v, mask]"
      checkScale attrs
  | .add | .mul | .relu | .identity | .view | .transpose => .ok ()

/-- A node's operands and attributes are those its op reads. -/
def HalOp.Fits : Prop :=
  match op with
  | .layerNorm =>
    numInputs = 3 ∧ ∃ s dims, attrs.lookup "normalized_shape" = some s ∧ parseI64List s = .ok dims
  | .linearTransb => numInputs = 3
  | .attentionCausal => numInputs = 4 ∧ ∀ s, attrs.lookup "scale" = some s → isFloat s.toList
  | .add | .mul => 2 ≤ numInputs
  | .relu | .identity => 1 ≤ numInputs
  | .transpose =>
    1 ≤ numInputs ∧ (∃ s n, attrs.lookup "dim0" = some s ∧ parseUsize s.toList = .ok n) ∧
      ∃ s n, attrs.lookup "dim1" = some s ∧ parseUsize s.toList = .ok n
  | .view =>
    1 ≤ numInputs ∧ ∃ s entries, attrs.lookup "shape" = some s ∧ parseI64List s = .ok entries ∧
      ∀ e ∈ entries, e < -1 → (-e - 2).toNat + 1 < numInputs

section Fits

variable {α : Type} {n : Nat} {attrs : List (String × String)} {key s : String}

theorem ensureOr_eq_ok {c : Prop} [Decidable c] {message : String} :
    ensureOr c message = .ok () ↔ c := by
  by_cases hc : c
  · rw [ensureOr, if_pos hc]
    exact iff_of_true rfl hc
  · rw [ensureOr, if_neg hc]
    exact iff_of_false (nofun) hc

theorem attrI64List_eq_ok {dims : List Int} :
    attrI64List attrs key = .ok dims ↔
      ∃ s, attrs.lookup key = some s ∧ parseI64List s = .ok dims := by
  constructor
  · intro h
    obtain ⟨s, hs, h⟩ := bind_eq_ok h
    exact ⟨s, orError_eq_ok.1 hs, mapError_eq_ok.1 h⟩
  · rintro ⟨s, hs, h⟩
    rw [attrI64List, attr, orError_eq_ok.2 hs]
    exact mapError_eq_ok.2 h

theorem attrUsize_eq_ok {d : Nat} :
    attrUsize attrs key = .ok d ↔ ∃ s, attrs.lookup key = some s ∧ parseUsize s.toList = .ok d := by
  constructor
  · intro h
    obtain ⟨s, hs, h⟩ := bind_eq_ok h
    exact ⟨s, orError_eq_ok.1 hs, mapError_eq_ok.1 h⟩
  · rintro ⟨s, hs, h⟩
    rw [attrUsize, attr, orError_eq_ok.2 hs]
    exact mapError_eq_ok.2 h

theorem checkScale_eq_ok :
    checkScale attrs = .ok () ↔ ∀ s, attrs.lookup "scale" = some s → isFloat s.toList := by
  cases hs : attrs.lookup "scale" with
  | none =>
    rw [checkScale, hs]
    exact iff_of_true rfl fun s h => by cases h
  | some s =>
    rw [checkScale, hs]
    show ensureOr _ _ = .ok () ↔ _
    rw [ensureOr_eq_ok]
    constructor
    · rintro h s' hs'
      cases hs'
      exact h
    · exact fun h => h s rfl

theorem indexOperands_eq_ok {m : Nat} : indexOperands m n = .ok () ↔ m ≤ n := by
  by_cases h : m ≤ n
  · rw [indexOperands, if_pos h]
    exact iff_of_true rfl h
  · rw [indexOperands, if_neg h]
    exact iff_of_false (nofun) h

theorem checkViewEntry_eq_ok {e : Int} :
    checkViewEntry n e = .ok () ↔ (e < -1 → (-e - 2).toNat + 1 < n) := by
  by_cases he : e < -1
  · rw [checkViewEntry, if_pos he]
    show ensureOr _ _ = .ok () ↔ _
    rw [ensureOr_eq_ok]
    exact ⟨fun h _ => h, fun h => h he⟩
  · rw [checkViewEntry, if_neg he]
    exact iff_of_true rfl fun h => absurd h he

/-- The two halves of a kernel find what they read exactly if the operands fit. -/
theorem operands_eq_ok {op : HalOp} :
    shapeOperands op n attrs = .ok () ∧ kernelOperands op n attrs = .ok () ↔ op.Fits n attrs := by
  cases op with
  | layerNorm =>
    show indexOperands 1 n = .ok () ∧ _ ↔ _
    rw [indexOperands_eq_ok]
    constructor
    · rintro ⟨-, h⟩
      obtain ⟨_, hn, h⟩ := bind_eq_ok h
      obtain ⟨dims, hdims, -⟩ := bind_eq_ok h
      obtain ⟨s, hs, hparse⟩ := attrI64List_eq_ok.1 hdims
      exact ⟨ensureOr_eq_ok.1 hn, s, dims, hs, hparse⟩
    · rintro ⟨hn, s, dims, hs, hparse⟩
      have hlist : attrI64List attrs "normalized_shape" = .ok dims :=
        attrI64List_eq_ok.2 ⟨s, hs, hparse⟩
      have hcount : ensureOr (n = 3) "layer_norm expects [x, weight, bias]" = .ok () :=
        ensureOr_eq_ok.2 hn
      refine ⟨by omega, ?_⟩
      rw [kernelOperands, hcount, hlist]
      rfl
  | linearTransb =>
    show indexOperands 2 n = .ok () ∧ ensureOr _ _ = .ok () ↔ n = 3
    rw [indexOperands_eq_ok, ensureOr_eq_ok]
    omega
  | attentionCausal =>
    show indexOperands 1 n = .ok () ∧ _ ↔ _
    rw [indexOperands_eq_ok]
    constructor
    · rintro ⟨-, h⟩
      obtain ⟨_, hn, hscale⟩ := bind_eq_ok h
      exact ⟨ensureOr_eq_ok.1 hn, checkScale_eq_ok.1 hscale⟩
    · rintro ⟨hn, hscale⟩
      have hcount : ensureOr (n = 4) "attention_causal expects [q, k, v, mask]" = .ok () :=
        ensureOr_eq_ok.2 hn
      refine ⟨by omega, ?_⟩
      rw [kernelOperands, hcount]
      exact checkScale_eq_ok.2 hscale
  | add | mul =>
    show indexOperands 2 n = .ok () ∧ Except.ok () = .ok () ↔ 2 ≤ n
    rw [indexOperands_eq_ok, and_iff_left rfl]
  | relu | identity =>
    show indexOperands 1 n = .ok () ∧ Except.ok () = .ok () ↔ 1 ≤ n
    rw [indexOperands_eq_ok, and_iff_left rfl]
  | transpose =>
    show _ ∧ Except.ok () = .ok () ↔ _
    rw [and_iff_left rfl]
    constructor
    · intro h
      obtain ⟨a, ha, h⟩ := bind_eq_ok h
      obtain ⟨b, hb, h⟩ := bind_eq_ok h
      obtain ⟨s, hs, hpa⟩ := attrUsize_eq_ok.1 ha
      obtain ⟨s', hs', hpb⟩ := attrUsize_eq_ok.1 hb
      exact ⟨indexOperands_eq_ok.1 h, ⟨s, a, hs, hpa⟩, s', b, hs', hpb⟩
    · rintro ⟨hn, ⟨s, a, hs, hpa⟩, s', b, hs', hpb⟩
      have ha : attrUsize attrs "dim0" = .ok a := attrUsize_eq_ok.2 ⟨s, hs, hpa⟩
      have hb : attrUsize attrs "dim1" = .ok b := attrUsize_eq_ok.2 ⟨s', hs', hpb⟩
      rw [shapeOperands, ha, hb]
      exact indexOperands_eq_ok.2 hn
  | view =>
    show _ ∧ Except.ok () = .ok () ↔ _
    rw [and_iff_left rfl]
    constructor
    · intro h
      obtain ⟨entries, hentries, h⟩ := bind_eq_ok h
      obtain ⟨_, hn, h⟩ := bind_eq_ok h
      obtain ⟨s, hs, hparse⟩ := attrI64List_eq_ok.1 hentries
      exact ⟨indexOperands_eq_ok.1 hn, s, entries, hs, hparse, fun e he =>
        checkViewEntry_eq_ok.1 (forM_eq_ok.1 h e he)⟩
    · rintro ⟨hn, s, entries, hs, hparse, hall⟩
      have hlist : attrI64List attrs "shape" = .ok entries :=
        attrI64List_eq_ok.2 ⟨s, hs, hparse⟩
      rw [shapeOperands, hlist]
      show (indexOperands 1 n >>= fun _ => entries.forM (checkViewEntry n)) = .ok ()
      rw [indexOperands_eq_ok.2 hn]
      exact forM_eq_ok.2 fun e he => checkViewEntry_eq_ok.2 (hall e he)

end Fits

end CompileForge.Runtime
