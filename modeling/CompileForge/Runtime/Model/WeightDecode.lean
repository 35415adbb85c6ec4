/-
  The decoders of weight bytes: the promotion to `f32`
  (`runtime/src/model/weight_loader.rs`), the raw half-precision storage
  (`runtime/src/engine/compute_graph_runner.rs`, `runtime/src/model/tensor.rs`) and the
  conversions of the GEMV kernels (`runtime/src/engine/gemv.rs`).
-/

import CompileForge.Lib.BinaryFloat
import CompileForge.Runtime.Engine.Gemv
import Mathlib.Data.Nat.Digits.Lemmas

namespace CompileForge.Runtime

open Lib List

def Dtype.elementSize : Dtype → Nat
  | .f32 => 4
  | .f16 => 2
  | .bf16 => 2
  | .i64 => 8
  | .i32 => 4
  | .i8 => 1
  | .u8 => 1

/-- The little-endian number in the `size` bytes from `off` on. -/
def leNat (size : Nat) (mem : Nat → UInt8) (off : Nat) : Nat :=
  Nat.ofDigits 256 ((range size).map fun i => (mem (off + i)).toNat)

/-- A `from_raw_parts` slice, with the number of bytes that it spans. -/
structure RawSlice (α : Type) where
  elements : List α
  bytes : Nat

def RawSlice.map {α β : Type} (f : α → β) (s : RawSlice α) : RawSlice β :=
  ⟨s.elements.map f, s.bytes⟩

/-- Memory is little-endian. -/
def fromRawParts (size : Nat) (mem : Nat → UInt8) (numel : Nat) : RawSlice Nat :=
  ⟨(range numel).map fun i => leNat size mem (i * size), numel * size⟩

/-- The value that a dtype gives to a bit pattern. -/
def Dtype.assigns : Dtype → Nat → FloatValue
  | .f32, bits => binary32.value bits
  | .f16, bits => binary16.value bits
  | .bf16, bits => binary32.value (bits * 2 ^ 16)
  | .i64, bits => .ofInt (BitVec.ofNat 64 bits).toInt
  | .i32, bits => .ofInt (BitVec.ofNat 32 bits).toInt
  | .i8, bits => .ofInt (BitVec.ofNat 8 bits).toInt
  | .u8, bits => .ofInt bits

/-! ## Decoders -/

/-- `half::f16::to_f32` and `half::bf16::to_f32`. -/
structure HalfCrate where
  f16 : UInt16 → FloatValue
  bf16 : UInt16 → FloatValue

/-- Every half-precision number is an `f32`, which the conversions return. -/
def HalfCrate.Lossless (half : HalfCrate) : Prop :=
  (∀ h, half.f16 h = binary16.value h.toNat) ∧ ∀ h, half.bf16 h = bfloat16.value h.toNat

/-- The conversions of the `half` crate are parameters, which are lossless. -/
def convertWeightToF32 (half : HalfCrate) (aligned : Nat → UInt8) (numel : Nat) (dtype : Dtype) :
    RawSlice FloatValue :=
  match dtype with
  | .f16 | .bf16 => (fromRawParts 2 aligned numel).map fun h => half.f16 (UInt16.ofNat h)
  | .f32 => (fromRawParts 4 aligned numel).map binary32.value
  | _ => (fromRawParts 2 aligned numel).map fun h => half.f16 (UInt16.ofNat h)

def saturatingMul (a b : Nat) : Nat := min (a * b) (2 ^ 64 - 1)

/-- Of a loaded tensor, its elements; shape and cache are left out. -/
def loadWeightTensorU16 (aligned : Nat → UInt8) (n : Nat) (dtype : Dtype) :
    Option (RawSlice UInt16) :=
  if dtype = .f16 ∨ dtype = .bf16 then
    let bytes := saturatingMul n 2
    some ⟨(range (bytes / 2)).map fun i => UInt16.ofNat (leNat 2 aligned (i * 2)), bytes⟩
  else none

/-- `Tensor::to_f32` on an element of raw storage. -/
def toF32 (half : HalfCrate) (dtype : Dtype) : UInt16 → FloatValue :=
  match dtype with
  | .f16 => half.f16
  | .bf16 => half.bf16
  | _ => half.f16

def bf16ToF32 (bits : UInt16) : FloatValue := binary32.value (bits.toUInt32 <<< 16).toNat

def gemvDecoders (half : HalfCrate) : Gemv.HalfDecoders FloatValue := ⟨half.f16, bf16ToF32⟩

/-! ## Weights -/

/-- `numel` elements from an address on, fewer than `2 ^ 63` bytes. -/
structure Weight where
  dtype : Dtype
  numel : Nat
  mem : Nat → UInt8
  fits : numel * dtype.elementSize < 2 ^ 63

def Weight.bits (w : Weight) (i : Nat) : Nat :=
  leNat w.dtype.elementSize w.mem (i * w.dtype.elementSize)

def Weight.values (w : Weight) : List FloatValue :=
  (range w.numel).map fun i => w.dtype.assigns (w.bits i)

/-- The promotion reads the weight as it is, and the 16-bit paths agree with it. -/
structure DecodesAgree (half : HalfCrate) (w : Weight) : Prop where
  bytes : (convertWeightToF32 half w.mem w.numel w.dtype).bytes = w.numel * w.dtype.elementSize
  values : (convertWeightToF32 half w.mem w.numel w.dtype).elements = w.values
  raw : ∀ raw, loadWeightTensorU16 w.mem w.numel w.dtype = some raw →
    raw.elements.map (toF32 half w.dtype) =
        (convertWeightToF32 half w.mem w.numel w.dtype).elements ∧
      raw.elements.map ((gemvDecoders half).decode w.dtype) =
        (convertWeightToF32 half w.mem w.numel w.dtype).elements

def Weight.Promotes (w : Weight) : Prop :=
  w.numel = 0 ∨ w.dtype = .f32 ∨ w.dtype = .f16 ∨
    w.dtype = .bf16 ∧ ∀ i < w.numel, CommonPattern (w.bits i)

theorem leNat_lt (size : Nat) (mem : Nat → UInt8) (off : Nat) :
    leNat size mem off < 256 ^ size := by
  have hlt := Nat.ofDigits_lt_base_pow_length (b := 256)
    (l := (range size).map fun i => (mem (off + i)).toNat) (by norm_num) ?_
  · simpa [leNat] using hlt
  · intro x hx
    obtain ⟨i, -, rfl⟩ := mem_map.1 hx
    exact (mem (off + i)).toNat_lt

theorem toNat_leNat (mem : Nat → UInt8) (off : Nat) :
    (UInt16.ofNat (leNat 2 mem off)).toNat = leNat 2 mem off :=
  UInt16.toNat_ofNat_of_lt' (leNat_lt 2 mem off)

theorem bf16ToF32_eq (bits : UInt16) : bf16ToF32 bits = bfloat16.value bits.toNat := by
  have hlt : bits.toNat < 2 ^ 16 := bits.toNat_lt
  have hshift : (bits.toUInt32 <<< 16).toNat = bits.toNat * 2 ^ 16 := by
    simp [UInt32.toNat_shiftLeft, Nat.shiftLeft_eq]
    omega
  rw [bf16ToF32, hshift, value_bfloat16]

/-! ## Which weights are read alike -/

section Agreement

variable {half : HalfCrate} (hhalf : half.Lossless)

include hhalf

theorem halfElements_eq (mem : Nat → UInt8) (numel : Nat) :
    ((fromRawParts 2 mem numel).map fun h => half.f16 (UInt16.ofNat h)).elements =
      (range numel).map fun i => binary16.value (leNat 2 mem (i * 2)) := by
  rw [RawSlice.map, fromRawParts, map_map]
  refine map_congr_left fun i _ => ?_
  rw [Function.comp_apply, hhalf.1, toNat_leNat]

theorem raw_values (w : Weight) {raw : RawSlice UInt16}
    (h : loadWeightTensorU16 w.mem w.numel w.dtype = some raw) :
    raw.elements.map (toF32 half w.dtype) = w.values ∧
      raw.elements.map ((gemvDecoders half).decode w.dtype) = w.values := by
  obtain ⟨hbf, hdtype⟩ : raw.elements = (range w.numel).map (fun i =>
      UInt16.ofNat (leNat 2 w.mem (i * 2))) ∧ (w.dtype = .f16 ∨ w.dtype = .bf16) := by
    by_cases hd : w.dtype = .f16 ∨ w.dtype = .bf16
    · have hsize : w.dtype.elementSize = 2 := by
        rcases hd with hd | hd <;> rw [hd] <;> rfl
      -- the multiplication does not saturate
      have hfits := w.fits
      rw [hsize] at hfits
      have hcount : saturatingMul w.numel 2 / 2 = w.numel := by
        unfold saturatingMul
        omega
      rw [loadWeightTensorU16, if_pos hd] at h
      cases h
      exact ⟨by rw [hcount], hd⟩
    · rw [loadWeightTensorU16, if_neg hd] at h
      exact absurd h nofun
  have helement : ∀ i, toF32 half w.dtype (UInt16.ofNat (leNat 2 w.mem (i * 2))) =
      w.dtype.assigns (w.bits i) ∧
      (gemvDecoders half).decode w.dtype (UInt16.ofNat (leNat 2 w.mem (i * 2))) =
        w.dtype.assigns (w.bits i) := by
    intro i
    rcases hdtype with hd | hd
    · simp only [Weight.bits, hd]
      exact ⟨(hhalf.1 _).trans (by rw [toNat_leNat]; rfl),
        (hhalf.1 _).trans (by rw [toNat_leNat]; rfl)⟩
    · simp only [Weight.bits, hd, Dtype.assigns, value_bfloat16]
      exact ⟨(hhalf.2 _).trans (by rw [toNat_leNat]; rfl),
        (bf16ToF32_eq _).trans (by rw [toNat_leNat]; rfl)⟩
  rw [hbf, map_map, map_map]
  exact ⟨map_congr_left fun i _ => (helement i).1, map_congr_left fun i _ => (helement i).2⟩

/-- The promotion reads the bytes and the values of the weight. -/
def ReadsOwnFormat (half : HalfCrate) (w : Weight) : Prop :=
  (convertWeightToF32 half w.mem w.numel w.dtype).bytes = w.numel * w.dtype.elementSize ∧
    (convertWeightToF32 half w.mem w.numel w.dtype).elements = w.values

theorem decodesAgree_iff_own (w : Weight) : DecodesAgree half w ↔ ReadsOwnFormat half w := by
  constructor
  · intro h
    exact ⟨h.bytes, h.values⟩
  · intro h
    refine ⟨h.1, h.2, fun raw hraw => ?_⟩
    rw [h.2]
    exact raw_values hhalf w hraw

omit hhalf in
theorem reads_f32 {w : Weight} (hd : w.dtype = .f32) : ReadsOwnFormat half w := by
  obtain ⟨dtype, numel, mem, fits⟩ := w
  obtain rfl : dtype = .f32 := hd
  exact ⟨rfl, map_map ..⟩

theorem reads_half_iff {w : Weight} (hd : w.dtype = .f16 ∨ w.dtype = .bf16) :
    ReadsOwnFormat half w ↔
      ∀ i < w.numel, binary16.value (w.bits i) = w.dtype.assigns (w.bits i) := by
  have hsize : w.dtype.elementSize = 2 := by
    rcases hd with hd | hd <;> rw [hd] <;> rfl
  have hconvert : convertWeightToF32 half w.mem w.numel w.dtype =
      (fromRawParts 2 w.mem w.numel).map fun h => half.f16 (UInt16.ofNat h) := by
    rcases hd with hd | hd <;> rw [hd] <;> rfl
  have hbits : ∀ i, leNat 2 w.mem (i * 2) = w.bits i := by
    intro i
    rw [Weight.bits, hsize]
  have hbytes : ((fromRawParts 2 w.mem w.numel).map fun h => half.f16 (UInt16.ofNat h)).bytes =
      w.numel * 2 := rfl
  rw [ReadsOwnFormat, hconvert, hsize, halfElements_eq hhalf, Weight.values, map_inj_left,
    and_iff_right hbytes]
  simp only [hbits, mem_range]

omit hhalf in
theorem reads_integer_iff {w : Weight} (h32 : w.dtype ≠ .f32) (h16 : w.dtype ≠ .f16)
    (hbf : w.dtype ≠ .bf16) : ReadsOwnFormat half w ↔ w.numel = 0 := by
  obtain ⟨hconvert, hsize⟩ : convertWeightToF32 half w.mem w.numel w.dtype =
      (fromRawParts 2 w.mem w.numel).map (fun h => half.f16 (UInt16.ofNat h)) ∧
      w.dtype.elementSize ≠ 2 := by
    cases hd : w.dtype with
    | f32 => exact absurd hd h32
    | f16 => exact absurd hd h16
    | bf16 => exact absurd hd hbf
    | i64 | i32 | i8 | u8 => exact ⟨rfl, by decide⟩
  rw [ReadsOwnFormat, hconvert]
  constructor
  · rintro ⟨hbytes, -⟩
    by_contra hne
    exact hsize (Nat.eq_of_mul_eq_mul_left (Nat.pos_of_ne_zero hne) hbytes).symm
  · intro hzero
    rw [Weight.values, hzero]
    exact ⟨by rw [zero_mul]; rfl, rfl⟩

/-- All decoders agree exactly on the weights that the promotion reads in their own format. -/
theorem decodesAgree_iff (w : Weight) : DecodesAgree half w ↔ w.Promotes := by
  rw [decodesAgree_iff_own hhalf, Weight.Promotes]
  by_cases h32 : w.dtype = .f32
  · exact iff_of_true (reads_f32 h32) (.inr (.inl h32))
  by_cases h16 : w.dtype = .f16
  · refine iff_of_true ((reads_half_iff hhalf (.inl h16)).2 fun i _ => ?_) (.inr (.inr (.inl h16)))
    rw [h16]
    rfl
  by_cases hbf : w.dtype = .bf16
  · -- here the two formats have to read the pattern alike
    have hpatterns : ReadsOwnFormat half w ↔ ∀ i < w.numel, CommonPattern (w.bits i) := by
      rw [reads_half_iff hhalf (.inr hbf)]
      simp only [hbf, Dtype.assigns, value_bfloat16, value_half_eq_iff]
    have hempty : w.numel = 0 → ∀ i < w.numel, CommonPattern (w.bits i) := by
      intro hzero i hi
      omega
    rw [hpatterns, or_iff_right h32, or_iff_right h16, and_iff_right hbf]
    exact ⟨.inr, fun h => h.elim hempty id⟩
  · rw [reads_integer_iff h32 h16 hbf]
    simp only [h32, h16, hbf, false_and, or_false]

end Agreement

/-- The conversions as the formats define them. -/
def exactHalf : HalfCrate := ⟨fun h => binary16.value h.toNat, fun h => bfloat16.value h.toNat⟩

/-- One element, with the bits of `1.0` in `bfloat16`. -/
def oneBf16 : Weight where
  dtype := .bf16
  numel := 1
  mem := fun i => if i = 1 then 0x3f else 0x80
  fits := by decide

/-- Two elements `1.0` and `-2.0` in `binary16`. -/
def pairF16 : Weight where
  dtype := .f16
  numel := 2
  mem := fun i => if i = 1 then 0x3c else if i = 3 then 0xc0 else 0
  fits := by decide

theorem decodesAgree_iff_pairF16 :
    DecodesAgree exactHalf pairF16 ∧ pairF16.values = [.finite false 1, .finite true 2] :=
  ⟨(decodesAgree_iff ⟨fun _ => rfl, fun _ => rfl⟩ pairF16).2 (.inr (.inr (.inl rfl))),
    by decide +kernel⟩

/-- The promotion returns `1.875` for `1.0`. -/
theorem decodes_differ : ¬ DecodesAgree exactHalf oneBf16 := by
  intro h
  have hvalues : [FloatValue.finite false (15 / 8)] = [FloatValue.finite false 1] := by
    have hconvert : (convertWeightToF32 exactHalf oneBf16.mem 1 .bf16).elements =
        [FloatValue.finite false (15 / 8)] := by decide +kernel
    have hown : oneBf16.values = [FloatValue.finite false 1] := by decide +kernel
    rw [← hconvert, ← hown]
    exact h.values
  exact absurd hvalues (by decide +kernel)

end CompileForge.Runtime
