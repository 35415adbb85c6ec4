/-
  The reader of the legacy constants blob (`load_registry_from_dylib` in
  `runtime/src/model/weight_loader.rs`): what it accepts and where it panics.
-/

import CompileForge.Lib.Cursor
import CompileForge.Runtime.Model.SafetensorsIndex

namespace CompileForge.Runtime

open Lib List

def Dtype.code : Dtype → Nat
  | .f32 => 0
  | .f16 => 1
  | .bf16 => 2
  | .i64 => 3
  | .i32 => 4
  | .i8 => 5
  | .u8 => 6

def Dtype.fromCode : Nat → Option Dtype
  | 0 => some .f32
  | 1 => some .f16
  | 2 => some .bf16
  | 3 => some .i64
  | 4 => some .i32
  | 5 => some .i8
  | 6 => some .u8
  | _ => none

theorem fromCode_eq_some {code : Nat} {dtype : Dtype} :
    Dtype.fromCode code = some dtype ↔ code = dtype.code := by
  constructor
  · intro h
    unfold Dtype.fromCode at h
    split at h <;> cases h <;> rfl
  · rintro rfl
    cases dtype <;> rfl

namespace Sfcf

open Safetensors (ConstantTensor memory)

/-- The blob is the bytes between the two symbols of the dylib. -/
abbrev Bytes := Safetensors.ByteSlice

inductive Failure where
  | panic
  | error (message : String)
  | fromUtf8Error
deriving DecidableEq, Repr

/-! ## The reader -/

/-- `usize` addition wraps, as in a release build; a sum of a position and a `u32` does not reach
    that far. -/
def readLe (width : Nat) (what : String) (data : Bytes) : Reader Failure Nat := fun pos =>
  if data.bytes.length < pos + width then
    .error (.error s!"truncated at pos {pos} (need {what})")
  else .ok (leNat width (memory data.bytes) pos, pos + width)

variable (data : Bytes)

def readU32 : Reader Failure Nat := readLe 4 "u32" data

def readU64 : Reader Failure Nat := readLe 8 "u64" data

def readText (len : Nat) : Reader Failure String := fun pos =>
  if data.bytes.length < pos + len then
    .error (.error s!"truncated string at pos {pos} (need {len} bytes)")
  else
    match fromUtf8 (slice data.bytes pos len) with
    | some s => .ok (s, pos + len)
    | none => .error .fromUtf8Error

def readString : Reader Failure String := do
  let len ← readU32 data
  readText data len

def readEntry : Reader Failure (String × String) := do
  let compiled ← readString data
  let hfKey ← readString data
  return (compiled, hfKey)

def readDtype (name : String) : Reader Failure Dtype := fun pos =>
  match data.bytes[pos]? with
  | none => .error (.error s!"SFCF parse error: truncated constant: {name}")
  | some code =>
    match Dtype.fromCode code.toNat with
    | none => .error (.error s!"unknown dtype code {code} for constant {name}")
    | some dtype => .ok (dtype, pos + 1)

def readNdim : Reader Failure Nat := fun pos =>
  match data.bytes[pos]? with
  | none => .error .panic
  | some ndim => .ok (ndim.toNat, pos + 1)

def readShape : Reader Failure (List Nat) := do
  let ndim ← readNdim data
  readMany (readU64 data) (fun shape d => shape ++ [d]) ndim []

theorem length_slice_le (l : List UInt8) (off len : Nat) : (slice l off len).length ≤ l.length := by
  rw [slice, length_take, length_drop]
  omega

/-- `data[pos..end].to_vec()` behind the length. -/
def readBytes (name : String) (len : Nat) : Reader Failure Bytes :=
  fun pos =>
    -- the check compares the sum after it has wrapped
    let stop := (pos + len) % 2 ^ 64
    if data.bytes.length < stop then
      .error (.error s!"SFCF parse error: truncated constant data: {name} (need {len} bytes)")
    -- a slice that ends before it begins
    else if stop < pos then .error .panic
    else
      .ok (⟨slice data.bytes pos (stop - pos), (length_slice_le ..).trans_lt data.fits⟩, stop)

def readData (name : String) : Reader Failure Bytes := do
  let len ← readU64 data
  readBytes data name len

def readConstant : Reader Failure (String × ConstantTensor) := do
  let name ← readString data
  let dtype ← readDtype data name
  let shape ← readShape data
  let tensorData ← readData data name
  return (name, ⟨dtype, shape, tensorData⟩)

/-- There is memory for every map, whatever its count says. -/
def insertEntry {β : Type} (table : AList fun _ : String => β) (e : String × β) :
    AList fun _ : String => β :=
  table.insert e.1 e.2

/-- A count and the loop that fills a map with as many entries. -/
def readTable {β : Type} (data : Bytes) (read : Reader Failure (String × β)) :
    Reader Failure (AList fun _ : String => β) := do
  let count ← readU32 data
  readMany read insertEntry count ∅

/-- The sections behind the version. -/
def readRegistry : Reader Failure Safetensors.WeightRegistry := do
  let nameMapping ← readTable data (readEntry data)
  let constants ← readTable data (readConstant data)
  return ⟨nameMapping, constants⟩

def magic : List UInt8 := utf8 "SFCF"

def loadRegistryFromDylib : Except Failure (Safetensors.WeightRegistry × Nat × Nat) :=
  let len := data.bytes.length
  let found := data.bytes.take 4
  let version := leNat 4 (memory data.bytes) 4
  if len = 0 then .error (.error "SFCF parse error: embedded data empty or missing")
  else if len < 8 then
    .error (.error s!"SFCF parse error: embedded data too short: {len} bytes")
  else if found ≠ magic then .error (.error s!"SFCF parse error: bad magic: {found}")
  else if version < 2 ∨ 4 < version then
    .error (.error s!"SFCF parse error: unsupported binary version: {version} (expected 2..=4)")
  else (readRegistry data 8).map fun r => (r.1, r.2, version)

/-! ## The format -/

def stringFormat : Format UInt8 String where
  valid s := (utf8 s).length < 2 ^ 32
  spell s := leBytes 4 (utf8 s).length ++ utf8 s

def entryFormat : Format UInt8 (String × String) := stringFormat.pair stringFormat

def dtypeFormat : Format UInt8 Dtype where
  valid _ := True
  spell dtype := leBytes 1 dtype.code

def shapeFormat : Format UInt8 (List Nat) where
  valid shape := shape.length < 256 ∧ (numberFormat 8).many.valid shape
  spell shape := leBytes 1 shape.length ++ (numberFormat 8).many.spell shape

def bytesFormat : Format UInt8 Bytes where
  valid _ := True
  spell b := leBytes 8 b.bytes.length ++ b.bytes

def constantFormat : Format UInt8 (String × ConstantTensor) where
  valid e := stringFormat.valid e.1 ∧ shapeFormat.valid e.2.shape
  spell e := stringFormat.spell e.1 ++ dtypeFormat.spell e.2.dtype ++
    (shapeFormat.spell e.2.shape ++ bytesFormat.spell e.2.data)

def sectionFormat {α : Type} (F : Format UInt8 α) : Format UInt8 (List α) where
  valid l := l.length < 2 ^ 32 ∧ F.many.valid l
  spell l := leBytes 4 l.length ++ F.many.spell l

structure Blob where
  version : Nat
  nameMapping : List (String × String)
  constants : List (String × ConstantTensor)

def header (version : Nat) : List UInt8 := magic ++ leBytes 4 version

/-- Behind the magic and the version, the names and the constants. -/
def blobFormat : Format UInt8 Blob where
  valid b := (2 ≤ b.version ∧ b.version ≤ 4) ∧ (sectionFormat entryFormat).valid b.nameMapping ∧
    (sectionFormat constantFormat).valid b.constants
  spell b := header b.version ++ (sectionFormat entryFormat).spell b.nameMapping ++
    (sectionFormat constantFormat).spell b.constants

def Blob.registry (b : Blob) : Safetensors.WeightRegistry :=
  ⟨b.nameMapping.foldl insertEntry ∅, b.constants.foldl insertEntry ∅⟩

variable (bytes : List UInt8)

/-- The bytes start with a value of the format. -/
def WellFormed : Prop :=
  ∃ b, blobFormat.valid b ∧ Spells bytes 0 (blobFormat.spell b)

/-- A blob up to the dtype code of one of its constants. -/
structure Opening where
  version : Nat
  nameMapping : List (String × String)
  count : Nat
  constants : List (String × ConstantTensor)
  name : String
  dtype : Dtype

def openingFormat : Format UInt8 Opening where
  valid o := (2 ≤ o.version ∧ o.version ≤ 4) ∧ (sectionFormat entryFormat).valid o.nameMapping ∧
    o.count < 2 ^ 32 ∧ o.constants.length < o.count ∧ constantFormat.many.valid o.constants ∧
    stringFormat.valid o.name
  spell o := header o.version ++ ((sectionFormat entryFormat).spell o.nameMapping ++
    (leBytes 4 o.count ++ constantFormat.many.spell o.constants)) ++
    (stringFormat.spell o.name ++ dtypeFormat.spell o.dtype)

/-- The blob ends behind the dtype code of a constant. -/
def CutBehindDtype : Prop :=
  ∃ o, openingFormat.valid o ∧ bytes = openingFormat.spell o

/-- The data length of a constant goes past the last address. -/
def LengthWraps : Prop :=
  ∃ o shape len, openingFormat.valid o ∧ shapeFormat.valid shape ∧ len < 2 ^ 64 ∧
    Spells bytes 0 (openingFormat.spell o ++ (shapeFormat.spell shape ++ leBytes 8 len)) ∧
    2 ^ 64 ≤ (openingFormat.spell o ++ (shapeFormat.spell shape ++ leBytes 8 len)).length + len

/-! ## Numbers and strings -/

section Readers

variable {data : Bytes} {pos : Nat}

theorem leNat_memory (bytes : List UInt8) {width : Nat} (h : pos + width ≤ bytes.length) :
    leNat width (memory bytes) pos =
      Nat.ofDigits 256 ((slice bytes pos width).map UInt8.toNat) := by
  have hslice : slice bytes pos width = (range width).map fun i => memory bytes (pos + i) := by
    refine ext_getElem? fun i => ?_
    rw [getElem?_slice, getElem?_map]
    by_cases hi : i < width
    · have hin : pos + i < bytes.length := by omega
      rw [if_pos hi, getElem?_range hi, getElem?_eq_getElem hin, Option.map_some, memory,
        getD_eq_getElem?_getD, getElem?_eq_getElem hin, Option.getD_some]
    · rw [if_neg hi, getElem?_eq_none (by simpa using hi), Option.map_none]
  rw [hslice, leNat, map_map]
  rfl

variable {n len version : Nat}

theorem spells_leBytes (width : Nat) {bytes : List UInt8} (hpos : pos ≤ bytes.length) :
    n < 256 ^ width ∧ Spells bytes pos (leBytes width n) ↔
      pos + width ≤ bytes.length ∧ leNat width (memory bytes) pos = n := by
  constructor
  · rintro ⟨hfits, hspells⟩
    have hin := hspells.le hpos
    have hslice := hspells.slice_eq
    rw [length_leBytes] at hin hslice
    exact ⟨hin, by rw [leNat_memory _ hin, hslice, ofDigits_leBytes hfits]⟩
  · rintro ⟨hin, rfl⟩
    have hspell := leBytes_ofDigits (slice bytes pos width)
    rw [length_slice hin, ← leNat_memory bytes hin] at hspell
    exact ⟨leNat_lt .., hspell ▸ spells_slice ..⟩

theorem readLe_reads (width : Nat) (what : String) :
    Reads data.bytes (readLe width what data) (numberFormat width) := by
  intro pos hpos n pos'
  rw [← and_assoc]
  refine Iff.trans ?_ (and_congr (spells_leBytes width hpos).symm Iff.rfl)
  rw [readLe, numberFormat, length_leBytes]
  by_cases hin : pos + width ≤ data.bytes.length
  · rw [if_neg (not_lt.2 hin), and_iff_right hin, Except.ok.injEq, Prod.mk.injEq,
      eq_comm (a := pos')]
  · rw [if_pos (not_le.1 hin)]
    exact iff_of_false nofun fun h => hin h.1.1

theorem readU32_reads : Reads data.bytes (readU32 data) (numberFormat 4) :=
  readLe_reads 4 "u32"

theorem readU64_reads : Reads data.bytes (readU64 data) (numberFormat 8) :=
  readLe_reads 8 "u64"

theorem readText_ok (len : Nat) (hpos : pos ≤ data.bytes.length) (s : String) (pos' : Nat) :
    readText data len pos = .ok (s, pos') ↔ ((utf8 s).length = len ∧ True) ∧
      Spells data.bytes pos (utf8 s) ∧ pos' = pos + (utf8 s).length := by
  rw [readText]
  constructor
  · intro h
    split at h
    · cases h
    next hlen =>
      have hin : pos + len ≤ data.bytes.length := not_lt.1 hlen
      cases htext : fromUtf8 (slice data.bytes pos len) with
      | none =>
        rw [htext] at h
        cases h
      | some =>
        rw [htext] at h
        cases h
        rw [fromUtf8_eq_some.1 htext, length_slice hin]
        exact ⟨⟨rfl, trivial⟩, spells_slice .., rfl⟩
  · rintro ⟨⟨rfl, -⟩, hspells, rfl⟩
    rw [if_neg (not_lt.2 (hspells.le hpos)), hspells.slice_eq, fromUtf8_eq_some.2 rfl]

theorem readString_reads : Reads data.bytes (readString data) stringFormat := by
  intro pos hpos s pos'
  rw [readString, readU32_reads.counted (fun len _ pos hpos => readText_ok len hpos) hpos, and_true]
  rfl

theorem readEntry_reads : Reads data.bytes (readEntry data) entryFormat :=
  readString_reads.pair readString_reads

/-! ## Constants -/

theorem spells_byte :
    Spells data.bytes pos (leBytes 1 n) ↔ data.bytes[pos]? = some (UInt8.ofNat n) :=
  spells_singleton

variable (name : String)

theorem readDtype_reads : Reads data.bytes (readDtype data name) dtypeFormat := by
  intro pos _ dtype pos'
  have hspells : Spells data.bytes pos (dtypeFormat.spell dtype) ↔ _ := spells_byte
  rw [hspells]
  constructor
  · intro h
    unfold readDtype at h
    split at h
    · cases h
    next code hcode =>
      split at h
      · cases h
      next hknown =>
        cases h
        rw [hcode, ← fromCode_eq_some.1 hknown, UInt8.ofNat_toNat]
        exact ⟨trivial, rfl, rfl⟩
  · rintro ⟨-, hcode, rfl⟩
    have hknown : Dtype.fromCode (UInt8.ofNat dtype.code).toNat = some dtype := by
      cases dtype <;> rfl
    simp only [readDtype, hcode, hknown]
    rfl

theorem readNdim_reads : Reads data.bytes (readNdim data) (numberFormat 1) := by
  intro pos _ ndim pos'
  have hspells : Spells data.bytes pos ((numberFormat 1).spell ndim) ↔ _ := spells_byte
  rw [hspells]
  constructor
  · intro h
    unfold readNdim at h
    split at h
    · cases h
    next b hbyte =>
      cases h
      rw [hbyte, UInt8.ofNat_toNat]
      exact ⟨b.toNat_lt, rfl, rfl⟩
  · rintro ⟨hlt, hbyte, rfl⟩
    simp only [readNdim, hbyte, UInt8.toNat_ofNat_of_lt' hlt]
    rfl

theorem foldl_push (l acc : List Nat) : l.foldl (fun shape d => shape ++ [d]) acc = acc ++ l := by
  induction l generalizing acc with
  | nil => rw [foldl_nil, append_nil]
  | cons d l ih => rw [foldl_cons, ih, append_assoc, singleton_append]

theorem readDims_ok (ndim : Nat) (hpos : pos ≤ data.bytes.length) (shape : List Nat) (pos' : Nat) :
    readMany (readU64 data) (fun shape d => shape ++ [d]) ndim [] pos = .ok (shape, pos') ↔
      (shape.length = ndim ∧ (numberFormat 8).many.valid shape) ∧
        Spells data.bytes pos ((numberFormat 8).many.spell shape) ∧
        pos' = pos + ((numberFormat 8).many.spell shape).length := by
  rw [readU64_reads.many_ok hpos]
  constructor
  · rintro ⟨l, hl, ⟨hvalid, hspells⟩, hr⟩
    obtain ⟨rfl, rfl⟩ := Prod.mk.inj hr
    rw [foldl_push, nil_append]
    exact ⟨⟨hl, hvalid⟩, hspells, rfl⟩
  · rintro ⟨⟨hl, hvalid⟩, hspells, rfl⟩
    refine ⟨shape, hl, ⟨hvalid, hspells⟩, ?_⟩
    rw [foldl_push, nil_append]

theorem readShape_reads : Reads data.bytes (readShape data) shapeFormat := by
  intro pos hpos shape pos'
  rw [readShape, readNdim_reads.counted (fun ndim _ pos hpos => readDims_ok ndim hpos) hpos]
  rfl

theorem readBytes_eq (h : pos + len < 2 ^ 64) :
    readBytes data name len pos = if data.bytes.length < pos + len then
        .error (.error s!"SFCF parse error: truncated constant data: {name} (need {len} bytes)")
      else
        .ok (⟨slice data.bytes pos len, (length_slice_le ..).trans_lt data.fits⟩, pos + len) := by
  simp only [readBytes, Nat.mod_eq_of_lt h, Nat.add_sub_cancel_left]
  rw [if_neg (not_lt.2 (Nat.le_add_right pos len))]

theorem readBytes_panic (hpos : pos ≤ data.bytes.length)
    (hlen : len < 2 ^ 64) (h : 2 ^ 64 ≤ pos + len) :
    readBytes data name len pos = .error .panic := by
  have hfits := data.fits
  have hsum : (pos + len) % 2 ^ 64 = pos + len - 2 ^ 64 := by omega
  simp only [readBytes, hsum]
  rw [if_neg (by omega), if_pos (by omega)]

theorem readBytes_panics_iff (hpos : pos ≤ data.bytes.length) (hlen : len < 2 ^ 64) :
    readBytes data name len pos = .error .panic ↔ 2 ^ 64 ≤ pos + len := by
  refine ⟨fun h => ?_, readBytes_panic name hpos hlen⟩
  by_contra hwrap
  rw [readBytes_eq name (not_le.1 hwrap)] at h
  split at h <;> cases h

theorem readBytes_ok (hlen : len < 2 ^ 64)
    (hpos : pos ≤ data.bytes.length) (b : Bytes) (pos' : Nat) :
    readBytes data name len pos = .ok (b, pos') ↔ (b.bytes.length = len ∧ True) ∧
      Spells data.bytes pos b.bytes ∧ pos' = pos + b.bytes.length := by
  constructor
  · intro h
    have hwrap : pos + len < 2 ^ 64 := by
      by_contra hwrap
      rw [readBytes_panic name hpos hlen (not_lt.1 hwrap)] at h
      cases h
    rw [readBytes_eq name hwrap] at h
    split at h
    · cases h
    next hin =>
      cases h
      have hlength := length_slice (not_lt.1 hin)
      exact ⟨⟨hlength, trivial⟩, spells_slice .., by rw [hlength]⟩
  · rintro ⟨⟨rfl, -⟩, hspells, rfl⟩
    have hin := hspells.le hpos
    have hfits := data.fits
    rw [readBytes_eq name (by omega), if_neg (not_lt.2 hin)]
    congr 3
    exact hspells.slice_eq

theorem readData_reads : Reads data.bytes (readData data name) bytesFormat := by
  intro pos hpos b pos'
  have hlen : b.bytes.length < 2 ^ 64 := b.fits.trans (by norm_num)
  rw [readData, readU64_reads.counted (fun len hlen pos hpos => readBytes_ok name hlen hpos) hpos,
    and_iff_left trivial]
  exact and_congr_left fun _ => iff_of_true hlen trivial

theorem readConstant_reads : Reads data.bytes (readConstant data) constantFormat := by
  intro pos hpos e pos'
  rw [readConstant, readString_reads.bind_ok hpos]
  constructor
  · rintro ⟨name, ⟨hname, hsname⟩, h⟩
    have hpos₁ := hsname.le hpos
    obtain ⟨dtype, ⟨-, hsdtype⟩, h⟩ := ((readDtype_reads name).bind_ok hpos₁).1 h
    have hpos₂ := hsdtype.le hpos₁
    obtain ⟨shape, ⟨hshape, hsshape⟩, h⟩ := (readShape_reads.bind_ok hpos₂).1 h
    obtain ⟨b, ⟨-, hsdata⟩, h⟩ := ((readData_reads name).bind_ok (hsshape.le hpos₂)).1 h
    cases h
    refine ⟨⟨hname, hshape⟩, ?_, ?_⟩
    · rw [constantFormat, spells_append, spells_append, spells_append, length_append,
        ← add_assoc]
      exact ⟨⟨hsname, hsdtype⟩, hsshape, hsdata⟩
    · simp only [constantFormat, length_append, add_assoc]
  · rintro ⟨⟨hname, hshape⟩, hspells, rfl⟩
    rw [constantFormat, spells_append, spells_append, spells_append, length_append,
      ← add_assoc] at hspells
    obtain ⟨⟨hsname, hsdtype⟩, hsshape, hsdata⟩ := hspells
    have hpos₁ := hsname.le hpos
    have hpos₂ := hsdtype.le hpos₁
    refine ⟨e.1, ⟨hname, hsname⟩, ((readDtype_reads _).bind_ok hpos₁).2
      ⟨e.2.dtype, ⟨trivial, hsdtype⟩, (readShape_reads.bind_ok hpos₂).2
        ⟨e.2.shape, ⟨hshape, hsshape⟩, ((readData_reads _).bind_ok (hsshape.le hpos₂)).2
          ⟨e.2.data, ⟨trivial, hsdata⟩, ?_⟩⟩⟩⟩
    simp only [constantFormat, length_append, add_assoc]
    rfl

/-! ## Panics -/

theorem readLe_ne_panic (width : Nat) (what : String) :
    readLe width what data pos ≠ .error .panic := by
  rw [readLe]
  split <;> nofun

theorem readU32_ne_panic : readU32 data pos ≠ .error .panic := readLe_ne_panic 4 "u32"

theorem readU64_ne_panic : readU64 data pos ≠ .error .panic := readLe_ne_panic 8 "u64"

theorem readString_ne_panic (hpos : pos ≤ data.bytes.length) :
    readString data pos ≠ .error .panic := by
  rw [readString, Ne, readU32_reads.bind_error hpos]
  rintro (h | ⟨len, -, h⟩)
  · exact readU32_ne_panic h
  · rw [readText] at h
    split at h
    · cases h
    · split at h <;> cases h

theorem readEntry_ne_panic (hpos : pos ≤ data.bytes.length) :
    readEntry data pos ≠ .error .panic := by
  rw [readEntry, Ne, readString_reads.bind_error hpos]
  rintro (h | ⟨compiled, ⟨-, hspells⟩, h⟩)
  · exact readString_ne_panic hpos h
  · rcases (readString_reads.bind_error (hspells.le hpos)).1 h with h | ⟨hfKey, -, h⟩
    · exact readString_ne_panic (hspells.le hpos) h
    · cases h

theorem readDtype_ne_panic : readDtype data name pos ≠ .error .panic := by
  rw [readDtype]
  split
  · nofun
  · split <;> nofun

theorem readShape_panics_iff (hpos : pos ≤ data.bytes.length) :
    readShape data pos = .error .panic ↔ pos = data.bytes.length := by
  have hndim : readNdim data pos = .error .panic ↔ pos = data.bytes.length := by
    rw [readNdim]
    cases hbyte : data.bytes[pos]? with
    | none => exact iff_of_true rfl (hpos.antisymm (getElem?_eq_none_iff.1 hbyte))
    | some => exact iff_of_false nofun (List.getElem?_eq_some_iff.1 hbyte).1.ne
  rw [readShape, readNdim_reads.bind_error hpos, hndim, or_iff_left]
  rintro ⟨ndim, ⟨-, hspells⟩, h⟩
  obtain ⟨l, -, -, h⟩ := (readU64_reads.many_error (hspells.le hpos)).1 h
  exact readU64_ne_panic h

theorem readData_panics_iff (hpos : pos ≤ data.bytes.length) :
    readData data name pos = .error .panic ↔ ∃ len, len < 2 ^ 64 ∧
      Spells data.bytes pos (leBytes 8 len) ∧ 2 ^ 64 ≤ pos + (leBytes 8 len).length + len := by
  rw [readData, readU64_reads.bind_error hpos, or_iff_right readU64_ne_panic]
  constructor
  · rintro ⟨len, ⟨hlen, hspells⟩, h⟩
    exact ⟨len, hlen, hspells, (readBytes_panics_iff name (hspells.le hpos) hlen).1 h⟩
  · rintro ⟨len, hlen, hspells, h⟩
    exact ⟨len, ⟨hlen, hspells⟩, (readBytes_panics_iff name (hspells.le hpos) hlen).2 h⟩

/-- A constant is cut behind its dtype code, or its data length wraps. -/
def PanicsAt (bytes : List UInt8) (pos : Nat) : Prop :=
  ∃ name dtype, stringFormat.valid name ∧
    Spells bytes pos (stringFormat.spell name ++ dtypeFormat.spell dtype) ∧
    (pos + (stringFormat.spell name ++ dtypeFormat.spell dtype).length = bytes.length ∨
      ∃ shape len, shapeFormat.valid shape ∧ len < 2 ^ 64 ∧
        Spells bytes (pos + (stringFormat.spell name ++ dtypeFormat.spell dtype).length)
          (shapeFormat.spell shape ++ leBytes 8 len) ∧
        2 ^ 64 ≤ pos + (stringFormat.spell name ++ dtypeFormat.spell dtype).length +
          (shapeFormat.spell shape ++ leBytes 8 len).length + len)

theorem readConstant_panics_iff (hpos : pos ≤ data.bytes.length) :
    readConstant data pos = .error .panic ↔ PanicsAt data.bytes pos := by
  rw [readConstant, readString_reads.bind_error hpos, or_iff_right (readString_ne_panic hpos)]
  constructor
  · rintro ⟨name, ⟨hname, hsname⟩, h⟩
    have hpos₁ := hsname.le hpos
    -- name and dtype code are read without a panic
    obtain ⟨dtype, ⟨-, hsdtype⟩, h⟩ := (((readDtype_reads name).bind_error hpos₁).1 h).resolve_left
      (readDtype_ne_panic name)
    have hpos₂ := hsdtype.le hpos₁
    refine ⟨name, dtype, hname, spells_append.2 ⟨hsname, hsdtype⟩, ?_⟩
    rw [length_append, ← add_assoc]
    -- the number of dimensions is missing, or the data length wraps
    rcases (readShape_reads.bind_error hpos₂).1 h with h | ⟨shape, ⟨hshape, hsshape⟩, h⟩
    · exact .inl ((readShape_panics_iff hpos₂).1 h)
    · have hpos₃ := hsshape.le hpos₂
      rcases ((readData_reads name).bind_error hpos₃).1 h with h | ⟨b, -, h⟩
      · obtain ⟨len, hlen, hslen, hwrap⟩ := (readData_panics_iff name hpos₃).1 h
        refine .inr ⟨shape, len, hshape, hlen, spells_append.2 ⟨hsshape, hslen⟩, ?_⟩
        rwa [length_append, ← add_assoc]
      · cases h
  · rintro ⟨name, dtype, hname, hspells, hcase⟩
    obtain ⟨hsname, hsdtype⟩ := spells_append.1 hspells
    rw [length_append, ← add_assoc] at hcase
    have hpos₁ := hsname.le hpos
    have hpos₂ := hsdtype.le hpos₁
    refine ⟨name, ⟨hname, hsname⟩, ((readDtype_reads name).bind_error hpos₁).2
      (.inr ⟨dtype, ⟨trivial, hsdtype⟩, (readShape_reads.bind_error hpos₂).2 ?_⟩)⟩
    rcases hcase with hcut | ⟨shape, len, hshape, hlen, hspells, hwrap⟩
    · exact .inl ((readShape_panics_iff hpos₂).2 hcut)
    · obtain ⟨hsshape, hslen⟩ := spells_append.1 hspells
      rw [length_append, ← add_assoc] at hwrap
      have hpos₃ := hsshape.le hpos₂
      exact .inr ⟨shape, ⟨hshape, hsshape⟩, ((readData_reads name).bind_error hpos₃).2
        (.inl ((readData_panics_iff name hpos₃).2 ⟨len, hlen, hslen, hwrap⟩))⟩

/-! ## The whole blob -/

section Table

variable {β : Type} {read : Reader Failure (String × β)} {F : Format UInt8 (String × β)}

theorem readTable_ok (hread : Reads data.bytes read F) (hpos : pos ≤ data.bytes.length)
    {r : (AList fun _ : String => β) × Nat} : readTable data read pos = .ok r ↔
      ∃ l, ((sectionFormat F).valid l ∧ Spells data.bytes pos ((sectionFormat F).spell l)) ∧
        r = (l.foldl insertEntry ∅, pos + ((sectionFormat F).spell l).length) := by
  rw [readTable, readU32_reads.bind_ok hpos]
  constructor
  · rintro ⟨count, ⟨hcount, hscount⟩, h⟩
    obtain ⟨l, rfl, ⟨hvalid, hspells⟩, rfl⟩ := (hread.many_ok (hscount.le hpos)).1 h
    refine ⟨l, ⟨⟨hcount, hvalid⟩, spells_append.2 ⟨hscount, hspells⟩⟩, ?_⟩
    rw [sectionFormat, length_append, ← add_assoc]
    rfl
  · rintro ⟨l, ⟨⟨hcount, hvalid⟩, hspells⟩, rfl⟩
    obtain ⟨hscount, hsl⟩ := spells_append.1 hspells
    refine ⟨l.length, ⟨hcount, hscount⟩, (hread.many_ok (hscount.le hpos)).2
      ⟨l, rfl, ⟨hvalid, hsl⟩, ?_⟩⟩
    rw [sectionFormat, length_append, ← add_assoc]

theorem readTable_panics_iff (hread : Reads data.bytes read F) (hpos : pos ≤ data.bytes.length) :
    readTable data read pos = .error .panic ↔
      ∃ count l, count < 2 ^ 32 ∧ l.length < count ∧ F.many.valid l ∧
        Spells data.bytes pos (leBytes 4 count ++ F.many.spell l) ∧
        read (pos + (leBytes 4 count ++ F.many.spell l).length) = .error .panic := by
  rw [readTable, readU32_reads.bind_error hpos, or_iff_right readU32_ne_panic]
  constructor
  · rintro ⟨count, ⟨hcount, hscount⟩, h⟩
    obtain ⟨l, hl, ⟨hvalid, hspells⟩, h⟩ := (hread.many_error (hscount.le hpos)).1 h
    refine ⟨count, l, hcount, hl, hvalid, spells_append.2 ⟨hscount, hspells⟩, ?_⟩
    rw [length_append, ← add_assoc]
    exact h
  · rintro ⟨count, l, hcount, hl, hvalid, hspells, h⟩
    obtain ⟨hscount, hsl⟩ := spells_append.1 hspells
    rw [length_append, ← add_assoc] at h
    exact ⟨count, ⟨hcount, hscount⟩, (hread.many_error (hscount.le hpos)).2
      ⟨l, hl, ⟨hvalid, hsl⟩, h⟩⟩

end Table

theorem readRegistry_ok (hpos : pos ≤ data.bytes.length) {r : Safetensors.WeightRegistry × Nat} :
    readRegistry data pos = .ok r ↔ ∃ nameMapping constants,
      (sectionFormat entryFormat).valid nameMapping ∧
        (sectionFormat constantFormat).valid constants ∧
        Spells data.bytes pos ((sectionFormat entryFormat).spell nameMapping ++
          (sectionFormat constantFormat).spell constants) ∧
        r = (⟨nameMapping.foldl insertEntry ∅, constants.foldl insertEntry ∅⟩,
          pos + ((sectionFormat entryFormat).spell nameMapping ++
            (sectionFormat constantFormat).spell constants).length) := by
  rw [readRegistry, bind_ok_iff]
  constructor
  · rintro ⟨_, _, hmapping, h⟩
    obtain ⟨nameMapping, ⟨hvalid, hspells⟩, hr⟩ := (readTable_ok readEntry_reads hpos).1 hmapping
    obtain ⟨rfl, rfl⟩ := Prod.mk.inj hr
    obtain ⟨_, _, hconstants, h⟩ := bind_ok_iff.1 h
    obtain ⟨constants, ⟨hvalid', hspells'⟩, hr⟩ :=
      (readTable_ok readConstant_reads (hspells.le hpos)).1 hconstants
    obtain ⟨rfl, rfl⟩ := Prod.mk.inj hr
    cases h
    refine ⟨nameMapping, constants, hvalid, hvalid', spells_append.2 ⟨hspells, hspells'⟩, ?_⟩
    rw [length_append, ← add_assoc]
  · rintro ⟨nameMapping, constants, hvalid, hvalid', hspells, rfl⟩
    obtain ⟨hspells, hspells'⟩ := spells_append.1 hspells
    refine ⟨_, _, (readTable_ok readEntry_reads hpos).2 ⟨nameMapping, ⟨hvalid, hspells⟩, rfl⟩,
      bind_ok_iff.2 ⟨_, _, (readTable_ok readConstant_reads (hspells.le hpos)).2
        ⟨constants, ⟨hvalid', hspells'⟩, rfl⟩, ?_⟩⟩
    rw [length_append, ← add_assoc]
    rfl

theorem readRegistry_panics_iff (hpos : pos ≤ data.bytes.length) :
    readRegistry data pos = .error .panic ↔ ∃ nameMapping count constants,
      (sectionFormat entryFormat).valid nameMapping ∧ count < 2 ^ 32 ∧
        constants.length < count ∧ constantFormat.many.valid constants ∧
        Spells data.bytes pos ((sectionFormat entryFormat).spell nameMapping ++
          (leBytes 4 count ++ constantFormat.many.spell constants)) ∧
        PanicsAt data.bytes (pos + ((sectionFormat entryFormat).spell nameMapping ++
          (leBytes 4 count ++ constantFormat.many.spell constants)).length) := by
  -- the name mapping reports its errors, so the panic is in a constant
  have hmapping : readTable data (readEntry data) pos ≠ .error .panic := by
    rw [Ne, readTable_panics_iff readEntry_reads hpos]
    rintro ⟨count, l, -, -, -, hspells, h⟩
    exact readEntry_ne_panic (hspells.le hpos) h
  rw [readRegistry, bind_error_iff, or_iff_right hmapping]
  constructor
  · rintro ⟨_, _, hmapping, h⟩
    obtain ⟨nameMapping, ⟨hvalid, hspells⟩, hr⟩ := (readTable_ok readEntry_reads hpos).1 hmapping
    obtain ⟨rfl, rfl⟩ := Prod.mk.inj hr
    have hpos₁ := hspells.le hpos
    rcases bind_error_iff.1 h with h | ⟨_, _, _, h⟩
    · obtain ⟨count, constants, hcount, hlt, hvalid', hspells', h⟩ :=
        (readTable_panics_iff readConstant_reads hpos₁).1 h
      refine ⟨nameMapping, count, constants, hvalid, hcount, hlt, hvalid',
        spells_append.2 ⟨hspells, hspells'⟩, ?_⟩
      rw [length_append, ← add_assoc]
      exact (readConstant_panics_iff (hspells'.le hpos₁)).1 h
    · cases h
  · rintro ⟨nameMapping, count, constants, hvalid, hcount, hlt, hvalid', hspells, h⟩
    obtain ⟨hspells, hspells'⟩ := spells_append.1 hspells
    have hpos₁ := hspells.le hpos
    rw [length_append, ← add_assoc] at h
    refine ⟨_, _, (readTable_ok readEntry_reads hpos).2 ⟨nameMapping, ⟨hvalid, hspells⟩, rfl⟩,
      bind_error_iff.2 (.inl ((readTable_panics_iff readConstant_reads hpos₁).2
        ⟨count, constants, hcount, hlt, hvalid', hspells',
          (readConstant_panics_iff (hspells'.le hpos₁)).2 h⟩))⟩

theorem header_iff : version < 2 ^ 32 ∧ Spells data.bytes 0 (header version) ↔
    8 ≤ data.bytes.length ∧ data.bytes.take 4 = magic ∧
      leNat 4 (memory data.bytes) 4 = version := by
  have hmagic : Spells data.bytes 0 magic ↔ data.bytes.take 4 = magic :=
    ⟨Spells.slice_eq, fun h => h ▸ spells_slice data.bytes 0 4⟩
  have hlength : 0 + magic.length = 4 := rfl
  rw [header, spells_append, hlength, and_left_comm, hmagic, and_left_comm (a := 8 ≤ _)]
  refine and_congr_right fun hfound => ?_
  have hpos : 4 ≤ data.bytes.length := by
    have hlength : (data.bytes.take 4).length = 4 := congrArg length hfound
    rw [length_take] at hlength
    omega
  exact spells_leBytes 4 hpos

theorem length_header (version : Nat) : (header version).length = 8 := by
  rw [header, length_append, length_leBytes]
  rfl

theorem load_of_header (hversion : 2 ≤ version ∧ version ≤ 4)
    (h : Spells data.bytes 0 (header version)) :
    loadRegistryFromDylib data = (readRegistry data 8).map fun r => (r.1, r.2, version) := by
  obtain ⟨hlen, hfound, hfield⟩ := header_iff.1 ⟨by omega, h⟩
  rw [loadRegistryFromDylib, hfound, hfield]
  rw [if_neg (by omega), if_neg (by omega), if_neg (not_not.2 rfl), if_neg (by omega)]

theorem load_of_no_header
    (h : ∀ version, 2 ≤ version ∧ version ≤ 4 → ¬ Spells data.bytes 0 (header version)) :
    ∃ message, loadRegistryFromDylib data = .error (.error message) := by
  rw [loadRegistryFromDylib]
  split
  · exact ⟨_, rfl⟩
  split
  · exact ⟨_, rfl⟩
  next hlen =>
    split
    · exact ⟨_, rfl⟩
    next hfound =>
      split
      · exact ⟨_, rfl⟩
      next hversion =>
        have hheader := header_iff.2 ⟨not_lt.1 hlen, not_not.1 hfound, rfl⟩
        exact absurd hheader.2 (h _ (by omega))

theorem spell_blob (b : Blob) : blobFormat.spell b = header b.version ++
    ((sectionFormat entryFormat).spell b.nameMapping ++
      (sectionFormat constantFormat).spell b.constants) :=
  append_assoc ..

theorem length_spell_blob (b : Blob) : (blobFormat.spell b).length =
    8 + ((sectionFormat entryFormat).spell b.nameMapping ++
      (sectionFormat constantFormat).spell b.constants).length := by
  rw [spell_blob, length_append, length_header]

theorem load_ok_iff {r : Safetensors.WeightRegistry × Nat × Nat} :
    loadRegistryFromDylib data = .ok r ↔
      ∃ b, (blobFormat.valid b ∧ Spells data.bytes 0 (blobFormat.spell b)) ∧
        r = (b.registry, (blobFormat.spell b).length, b.version) := by
  by_cases hheader : ∃ version, (2 ≤ version ∧ version ≤ 4) ∧ Spells data.bytes 0 (header version)
  · obtain ⟨version, hversion, hheader⟩ := hheader
    have hpos : 8 ≤ data.bytes.length := (header_iff.1 ⟨by omega, hheader⟩).1
    rw [load_of_header hversion hheader]
    constructor
    · intro h
      obtain ⟨⟨registry, pos⟩, hr, h⟩ : ∃ r', readRegistry data 8 = .ok r' ∧
          (r'.1, r'.2, version) = r := by
        cases hr : readRegistry data 8 with
        | error =>
          rw [hr] at h
          cases h
        | ok r' =>
          rw [hr] at h
          exact ⟨r', rfl, Except.ok.inj h⟩
      obtain ⟨nameMapping, constants, hvalid, hvalid', hspells, hr⟩ := (readRegistry_ok hpos).1 hr
      obtain ⟨rfl, rfl⟩ := Prod.mk.inj hr
      refine ⟨⟨version, nameMapping, constants⟩, ⟨⟨hversion, hvalid, hvalid'⟩, ?_⟩, ?_⟩
      · rw [spell_blob]
        refine spells_append.2 ⟨hheader, ?_⟩
        rwa [length_header]
      · rw [← h, length_spell_blob]
        rfl
    · rintro ⟨⟨version', nameMapping, constants⟩, ⟨⟨hversion', hvalid, hvalid'⟩, hspells⟩, rfl⟩
      rw [spell_blob] at hspells
      obtain ⟨hheader', hspells⟩ := spells_append.1 hspells
      -- the version field is the same number
      obtain rfl : version = version' :=
        (header_iff.1 ⟨by omega, hheader⟩).2.2.symm.trans (header_iff.1 ⟨by omega, hheader'⟩).2.2
      rw [length_header, zero_add] at hspells
      rw [(readRegistry_ok hpos).2 ⟨nameMapping, constants, hvalid, hvalid', hspells, rfl⟩,
        length_spell_blob]
      rfl
  · obtain ⟨message, hload⟩ := load_of_no_header fun version hversion hspells =>
      hheader ⟨version, hversion, hspells⟩
    rw [hload]
    refine iff_of_false nofun ?_
    rintro ⟨b, ⟨hvalid, hspells⟩, -⟩
    rw [spell_blob] at hspells
    exact hheader ⟨b.version, hvalid.1, (spells_append.1 hspells).1⟩

theorem mapped_error_iff {α β : Type} {x : Except Failure α} {f : α → β} {e : Failure} :
    x.map f = .error e ↔ x = .error e := by
  cases x with
  | error => rw [Except.map, Except.error.injEq, Except.error.injEq]
  | ok => exact iff_of_false nofun nofun

theorem length_spell_opening (o : Opening) : (openingFormat.spell o).length =
    8 + ((sectionFormat entryFormat).spell o.nameMapping ++
      (leBytes 4 o.count ++ constantFormat.many.spell o.constants)).length +
    (stringFormat.spell o.name ++ dtypeFormat.spell o.dtype).length := by
  rw [openingFormat, length_append, length_append, length_header]

theorem spells_opening (o : Opening) : Spells data.bytes 0 (openingFormat.spell o) ↔
    Spells data.bytes 0 (header o.version) ∧
      Spells data.bytes 8 ((sectionFormat entryFormat).spell o.nameMapping ++
        (leBytes 4 o.count ++ constantFormat.many.spell o.constants)) ∧
      Spells data.bytes (8 + ((sectionFormat entryFormat).spell o.nameMapping ++
        (leBytes 4 o.count ++ constantFormat.many.spell o.constants)).length)
        (stringFormat.spell o.name ++ dtypeFormat.spell o.dtype) := by
  rw [openingFormat, spells_append, spells_append, length_append, length_header,
    zero_add, zero_add, and_assoc]

/-- The reader panics on a cut behind a dtype code, and where a data length wraps. -/
theorem load_panics_iff : loadRegistryFromDylib data = .error .panic ↔
    CutBehindDtype data.bytes ∨ LengthWraps data.bytes := by
  constructor
  · intro h
    obtain ⟨version, hversion, hheader⟩ : ∃ version, (2 ≤ version ∧ version ≤ 4) ∧
        Spells data.bytes 0 (header version) := by
      by_contra hnone
      obtain ⟨message, hload⟩ := load_of_no_header fun version hversion hspells =>
        hnone ⟨version, hversion, hspells⟩
      rw [hload] at h
      cases h
    have hpos : 8 ≤ data.bytes.length := (header_iff.1 ⟨by omega, hheader⟩).1
    rw [load_of_header hversion hheader, mapped_error_iff, readRegistry_panics_iff hpos] at h
    obtain ⟨nameMapping, count, constants, hmapping, hcount, hlt, hconstants, hsections,
      name, dtype, hname, hhead, hcase⟩ := h
    -- what was read before the panic
    obtain ⟨o, ho⟩ : ∃ o : Opening, o = ⟨version, nameMapping, count, constants, name, dtype⟩ :=
      ⟨_, rfl⟩
    have hvalid : openingFormat.valid o := by
      rw [ho]
      exact ⟨hversion, hmapping, hcount, hlt, hconstants, hname⟩
    have hspells : Spells data.bytes 0 (openingFormat.spell o) := by
      rw [spells_opening, ho]
      exact ⟨hheader, hsections, hhead⟩
    have hlength := length_spell_opening o
    simp only [ho] at hlength
    rw [← hlength, ← ho] at hcase
    rcases hcase with hcut | ⟨shape, len, hshape, hlen, hrest, hwrap⟩
    · exact .inl ⟨o, hvalid, (hspells.eq_of_length hcut).symm⟩
    · refine .inr ⟨o, shape, len, hvalid, hshape, hlen, spells_append.2 ⟨hspells, ?_⟩, ?_⟩
      · rwa [zero_add]
      · rwa [length_append]
  · intro h
    -- either way the bytes begin with the opening
    obtain ⟨o, ⟨hversion, hmapping, hcount, hlt, hconstants, hname⟩, hspells, hcase⟩ :
        ∃ o, openingFormat.valid o ∧ Spells data.bytes 0 (openingFormat.spell o) ∧
          ((openingFormat.spell o).length = data.bytes.length ∨
            ∃ shape len, shapeFormat.valid shape ∧ len < 2 ^ 64 ∧
              Spells data.bytes (openingFormat.spell o).length
                (shapeFormat.spell shape ++ leBytes 8 len) ∧
              2 ^ 64 ≤ (openingFormat.spell o).length +
                (shapeFormat.spell shape ++ leBytes 8 len).length + len) := by
      rcases h with ⟨o, hvalid, hcut⟩ | ⟨o, shape, len, hvalid, hshape, hlen, hspells, hwrap⟩
      · exact ⟨o, hvalid, spells_zero.2 ⟨[], by rw [hcut, append_nil]⟩, .inl (by rw [hcut])⟩
      · obtain ⟨hopening, hrest⟩ := spells_append.1 hspells
        rw [zero_add] at hrest
        rw [length_append] at hwrap
        exact ⟨o, hvalid, hopening, .inr ⟨shape, len, hshape, hlen, hrest, hwrap⟩⟩
    obtain ⟨hheader, hsections, hhead⟩ := (spells_opening o).1 hspells
    have hpos : 8 ≤ data.bytes.length := (header_iff.1 ⟨by omega, hheader⟩).1
    rw [load_of_header hversion hheader, mapped_error_iff, readRegistry_panics_iff hpos]
    rw [length_spell_opening] at hcase
    exact ⟨o.nameMapping, o.count, o.constants, hmapping, hcount, hlt, hconstants, hsections,
      o.name, o.dtype, hname, hhead, hcase⟩

end Readers

end Sfcf

end CompileForge.Runtime
