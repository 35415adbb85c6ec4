/-
  What the producer hook stores of a K or V tensor given as BNSD or as BSND.

  The hook infers the axes from their sizes.  For a BNSD tensor both the inferred offsets and
  the fallback are right.  For a BSND tensor the fallback reads the tensor as BNSD, so the
  rows stored are right only if the three sizes differ, or the two readings agree on the data.
-/

import CompileForge.Runtime.Cache.InterceptStore
import CompileForge.Runtime.Cache.LedgerRun
import Mathlib.Tactic.Ring

namespace CompileForge.Runtime

open Lib List

variable {nh hd n : Nat} {data : List F32}

/-- The axis order of a producer tensor. -/
inductive KvLayout where
  | bnsd
  | bsnd
deriving DecidableEq, Repr

def KvLayout.shape (nh n hd : Nat) : KvLayout → List Nat
  | .bnsd => [1, nh, n, hd]
  | .bsnd => [1, n, nh, hd]

/-- Where the first element of head `h` at position `p` lies. -/
def KvLayout.offset (nh n hd : Nat) : KvLayout → Nat → Nat → Nat
  | .bnsd, p, h => h * (n * hd) + p * hd
  | .bsnd, p, h => p * (nh * hd) + h * hd

theorem KvLayout.offset_fits (layout : KvLayout) {p h : Nat} (hp : p < n) (hh : h < nh) :
    layout.offset nh n hd p h + hd ≤ n * (nh * hd) := by
  cases layout with
  | bnsd =>
    have hplane : h * (n * hd) + n * hd ≤ nh * (n * hd) := BlockManager.row_fits hh
    have hrow : p * hd + hd ≤ n * hd := BlockManager.row_fits hp
    have hsize : n * (nh * hd) = nh * (n * hd) := mul_left_comm n nh hd
    rw [hsize, offset]
    omega
  | bsnd =>
    have hplane : p * (nh * hd) + nh * hd ≤ n * (nh * hd) := BlockManager.row_fits hp
    have hrow : h * hd + hd ≤ nh * hd := BlockManager.row_fits hh
    rw [offset]
    omega

/-! ## The copy loops -/

theorem forall_of_foldlM_eq_some {α β : Type*} {f : β → α → Option β} {P : α → Prop}
    (hf : ∀ b a b', f b a = some b' → P a) {l : List α} {b b' : β}
    (h : l.foldlM f b = some b') : ∀ a ∈ l, P a := by
  induction l generalizing b with
  | nil => exact nofun
  | cons a l ih =>
    rw [foldlM_cons] at h
    obtain ⟨b₁, hb₁, hrest⟩ := Option.bind_eq_some_iff.1 h
    intro a' ha'
    rcases mem_cons.1 ha' with rfl | ha'
    · exact hf b a' b₁ hb₁
    · exact ih hrest a' ha'

variable {srcOff : Nat → Nat → Nat} {src : List F32}

theorem copyHeads_in_range {out : List F32}
    (h : copyHeads n nh hd srcOff src = some out) :
    ∀ p < n, ∀ i < nh, srcOff p i + hd ≤ src.length := by
  intro p hp i hi
  refine forall_of_foldlM_eq_some (P := fun p => ∀ i < nh, srcOff p i + hd ≤ src.length)
    (fun dst p dst' hrow => ?_) h p (mem_range.2 hp) i hi
  intro i hi
  refine forall_of_foldlM_eq_some (P := fun i => srcOff p i + hd ≤ src.length)
    (fun dst i dst' hone => ?_) hrow i (mem_range.2 hi)
  rw [copyHead] at hone
  split at hone
  · assumption
  · cases hone

theorem copyHeads_spec
    (hsrc : ∀ p < n, ∀ i < nh, srcOff p i + hd ≤ src.length) :
    ∃ out, copyHeads n nh hd srcOff src = some out ∧ out.length = n * (nh * hd) ∧
      ∀ p < n, ∀ h < nh, ∀ d < hd, out[p * (nh * hd) + h * hd + d]? = src[srcOff p h + d]? := by
  have hhead : ∀ p, p < n → ∀ i ∈ range nh, (slice src (srcOff p i) hd).length = hd :=
    fun p hp i hi => length_slice (hsrc p hp i (mem_range.1 hi))
  have hrow : ∀ p ∈ range n,
      ((range nh).flatMap fun i => slice src (srcOff p i) hd).length = nh * hd := by
    intro p hp
    rw [length_flatMap_windows (hhead p (mem_range.1 hp)), length_range]
  refine ⟨_, copyHeads_eq fun p h hp hh => hsrc p hp h hh, ?_, fun p hp h hh d hd' => ?_⟩
  · rw [length_flatMap_windows hrow, length_range]
  · -- the element is in the window of its head, in the window of its position
    have hin : h * hd + hd ≤ nh * hd := BlockManager.row_fits hh
    have hwindow := slice_flatMap_window hrow (getElem?_range hp)
    have hpart := slice_flatMap_window (hhead p hp) (getElem?_range hh)
    rw [← hwindow, slice_slice _ hin] at hpart
    have helement := congrArg (·[d]?) hpart
    simpa only [getElem?_slice, if_pos hd', add_assoc] using helement

/-! ## The axes of a BSND tensor -/

/-- The three sizes tell the axes apart. -/
def AxesDiffer (nh n hd : Nat) : Prop := n ≠ nh ∧ n ≠ hd ∧ nh ≠ hd
deriving Decidable

theorem transposeToBnldFromSlab_bsndShape (nh n hd : Nat) (data : List F32) :
    transposeToBnldFromSlab ⟨[1, n, nh, hd], data⟩ n nh hd =
      copyHeads n nh hd (if AxesDiffer nh n hd then KvLayout.bsnd.offset nh n hd
        else bnsdOffset nh hd) data := by
  have hstrided : (fun p i => p * (strides [1, n, nh, hd]).getD 1 0 +
      i * (strides [1, n, nh, hd]).getD 2 0) = KvLayout.bsnd.offset nh n hd := by
    funext p h
    have hseq : (strides [1, n, nh, hd]).getD 1 0 = nh * hd := by simp [strides]
    have hhead : (strides [1, n, nh, hd]).getD 2 0 = hd := by simp [strides]
    rw [hseq, hhead, KvLayout.offset]
  rw [transposeToBnldFromSlab, if_neg (by simp), if_neg (by simp)]
  simp only [findAxis_four]
  by_cases hseq : n ≠ nh ∧ n ≠ hd
  · by_cases hdim : nh = hd
    · -- heads and dim are both found on axis 2
      have hsame : ¬ AxesDiffer nh n hd := fun h => h.2.2 hdim
      rw [if_neg hsame]
      subst hdim
      simp only [hseq, ne_eq, not_false_eq_true, and_self, decide_true, decide_false, if_true,
        Bool.false_eq_true, if_false, not_true_eq_false, and_false]
      rfl
    · have hdiffer : AxesDiffer nh n hd := ⟨hseq.1, hseq.2, hdim⟩
      simp only [hseq, hdim, hdiffer, ne_eq, not_false_eq_true, and_self, decide_true,
        decide_false, if_true, Bool.false_eq_true, if_false, Nat.reduceEqDiff]
      exact congrArg (fun off => copyHeads n nh hd off data) hstrided
  · -- no position axis was found
    have hsame : ¬ AxesDiffer nh n hd := fun h => hseq ⟨h.1, h.2.1⟩
    have hnone : decide (¬ n = nh ∧ ¬ n = hd) = false := decide_eq_false hseq
    rw [if_neg hsame]
    simp only [ne_eq, not_true_eq_false, false_and, and_false, true_and, hnone, decide_false,
      Bool.false_eq_true, if_false]
    rfl

/-! ## What the hook stores -/

theorem fallback_fits_iff (hnh : 0 < nh) (hhd : 0 < hd) (hn : 0 < n) :
    (∀ p < n, ∀ h < nh, bnsdOffset nh hd p h + hd ≤ n * (nh * hd)) ↔ nh ≤ n := by
  constructor
  · intro hall
    -- the last head of the last position reaches furthest
    have hlast := hall (n - 1) (by omega) (nh - 1) (by omega)
    obtain ⟨a, rfl⟩ : ∃ a, nh = a + 1 := ⟨nh - 1, by omega⟩
    obtain ⟨b, rfl⟩ : ∃ b, n = b + 1 := ⟨n - 1, by omega⟩
    rw [bnsdOffset, Nat.add_sub_cancel, Nat.add_sub_cancel] at hlast
    have hrows : (a * (a + 1) + b + 1) * hd ≤ ((b + 1) * (a + 1)) * hd := by
      calc (a * (a + 1) + b + 1) * hd = a * ((a + 1) * hd) + b * hd + hd := by ring
        _ ≤ (b + 1) * ((a + 1) * hd) := hlast
        _ = ((b + 1) * (a + 1)) * hd := by ring
    have hcount : a * (a + 1) + b + 1 ≤ (b + 1) * (a + 1) := Nat.le_of_mul_le_mul_right hrows hhd
    have hsquare : a * a ≤ a * b := by
      have hexpand : (b + 1) * (a + 1) = a * b + a + b + 1 := by ring
      have hexpand' : a * (a + 1) = a * a + a := by ring
      omega
    rcases Nat.eq_zero_or_pos a with rfl | ha
    · omega
    · exact Nat.succ_le_succ (Nat.le_of_mul_le_mul_left hsquare ha)
  · intro hle p hp h hh
    have hrow : p * hd + hd ≤ n * hd := BlockManager.row_fits hp
    have hplane : h * (nh * hd) ≤ h * (n * hd) :=
      Nat.mul_le_mul_left h (Nat.mul_le_mul_right hd hle)
    have hlast : h * (n * hd) + n * hd ≤ nh * (n * hd) := BlockManager.row_fits hh
    have hsize : n * (nh * hd) = nh * (n * hd) := mul_left_comm n nh hd
    rw [bnsdOffset, hsize]
    omega

/-- Reading a BSND tensor as BNSD stays inside, and finds the same elements. -/
def FallbackHarmless (nh n hd : Nat) (data : List F32) : Prop :=
  nh ≤ n ∧ ∀ p < n, ∀ h < nh, ∀ d < hd,
    data[bnsdOffset nh hd p h + d]? = data[KvLayout.bsnd.offset nh n hd p h + d]?

/-- After the call the cache holds element `(h, p, d)` at `p * nh * hd + h * hd + d`. -/
def StoresElements (layout : KvLayout) (nh n hd : Nat) (data : List F32) (fi oi : Nat)
    (kvNew : KvNew) (bm : BlockManager) (rid : String) (positions : List UInt32)
    (isDecode : Bool) (outs : List IOTensorDef) (slab : SlabSpec) (overrideIsKey : Bool) : Prop :=
  ∃ kvNew' bm' start, ∃ cache : Bool → List F32,
    interceptConsumedOutput fi oi ⟨layout.shape nh n hd, data⟩ kvNew (some bm) (some rid)
      positions isDecode outs (some slab) overrideIsKey = some (.ok (), kvNew', some bm') ∧
    writeStart positions isDecode = some start ∧
    bm'.readKv (layerRid rid fi) (start + n) (nh * hd) = some (.ok (cache true, cache false)) ∧
    ∀ p < n, ∀ h < nh, ∀ d < hd,
      (cache (isKeyOutput outs oi overrideIsKey))[(start + p) * (nh * hd) + h * hd + d]? =
        data[layout.offset nh n hd p h + d]?

section

variable {bm : BlockManager} {rid : String} {fi : Nat} {ids : List Nat} {slab : SlabSpec}
  {positions : List UInt32} {isDecode : Bool} {start : Nat}

theorem storesElements_iff_offsets (layout : KvLayout) (hhd : 0 < hd)
    (hnh : 0 < nh) (hn : 0 < n) (hdata : data.length = n * (nh * hd))
    (htable : bm.blockTables.lookup (layerRid rid fi) = some ids) (hpaged : bm.Paged ids (nh * hd))
    (hheads : slab.dims.lookup "heads" = some nh) (hdim : slab.dims.lookup "dim" = some hd)
    (hpositions : positions.length = n) (hstart : writeStart positions isDecode = some start)
    (hcover : start + n ≤ bm.blockSize * ids.length) (oi : Nat) (kvNew : KvNew)
    (outs : List IOTensorDef) (overrideIsKey : Bool) (srcOff : Nat → Nat → Nat)
    (hcopy : transposeToBnldFromSlab ⟨layout.shape nh n hd, data⟩ n nh hd =
      copyHeads n nh hd srcOff data) :
    StoresElements layout nh n hd data fi oi kvNew bm rid positions isDecode outs slab
        overrideIsKey ↔
      (∀ p < n, ∀ h < nh, srcOff p h + hd ≤ n * (nh * hd)) ∧
      ∀ p < n, ∀ h < nh, ∀ d < hd,
        data[srcOff p h + d]? = data[layout.offset nh n hd p h + d]? := by
  have hwidth : 0 < nh * hd := mul_pos hnh hhd
  have hdims : headDims (some slab) ⟨layout.shape nh n hd, data⟩ = some (nh, hd) := by
    cases layout <;> simp [headDims, KvLayout.shape, hheads, hdim]
  have hwrite : writeData ⟨layout.shape nh n hd, data⟩ (some slab) positions.length nh hd =
      copyHeads n nh hd srcOff data := by
    have hlen : 4 ≤ (layout.shape nh n hd).length := by cases layout <;> exact Nat.le_refl 4
    rw [writeData, if_pos ⟨rfl, hlen, by omega⟩, hpositions, hcopy]
  by_cases hfits : ∀ p < n, ∀ h < nh, srcOff p h + hd ≤ data.length
  · obtain ⟨out, hout, hlen, helements⟩ := copyHeads_spec hfits
    rw [hout] at hwrite
    obtain ⟨bm', hhook, hledger, hpaged', hrowsAt⟩ := interceptConsumedOutput_of_writeData htable
      hpaged hwidth hdims hwrite hlen hstart hcover oi kvNew outs overrideIsKey
    have htable' : bm'.blockTables.lookup (layerRid rid fi) = some ids := by
      rw [hledger.blockTables_eq, htable]
    have hcover' : start + n ≤ bm'.blockSize * ids.length := by
      rw [hledger.blockSize_eq]
      exact hcover
    have hread := BlockManager.readKv_spec htable' hpaged'.cached hcover'
    -- an element of the cache is the element of the copy
    have hcell : ∀ p < n, ∀ h < nh, ∀ d < hd,
        ((range (start + n)).flatMap (bm'.rowAt ids (nh * hd)
          (isKeyOutput outs oi overrideIsKey)))[(start + p) * (nh * hd) + h * hd + d]? =
          data[srcOff p h + d]? := by
      intro p hp h hh d hd'
      have hlast : h * hd + hd ≤ nh * hd := BlockManager.row_fits hh
      have hrows : ∀ i ∈ range (start + n), (bm'.rowAt ids (nh * hd)
          (isKeyOutput outs oi overrideIsKey) i).length = nh * hd := by
        intro i hi
        have hin : i < start + n := mem_range.1 hi
        exact BlockManager.length_rowAt hpaged'.cached (Nat.div_lt_of_lt_mul (by omega))
      have hrange : (range (start + n))[start + p]? = some (start + p) :=
        getElem?_range (by omega)
      have hrow := slice_flatMap_window hrows hrange
      rw [hrowsAt, if_pos ⟨rfl, by omega, by omega⟩, Nat.add_sub_cancel_left] at hrow
      have helement := congrArg (·[h * hd + d]?) hrow
      have hin : h * hd + d < nh * hd := by omega
      simp only [getElem?_slice, if_pos hin, ← add_assoc] at helement
      rw [helement, helements p hp h hh d hd']
    rw [hdata] at hfits
    constructor
    · rintro ⟨kvNew', bm'', start', cache, hhook', hstart', hread', hall⟩
      cases hhook.symm.trans hhook'
      cases hstart.symm.trans hstart'
      have hsides : ∀ isKey, cache isKey = (range (start + n)).flatMap
          (bm'.rowAt ids (nh * hd) isKey) := by
        injection hread'.symm.trans hread with h
        injection h with h
        injection h with hkeys hvalues
        exact Bool.forall_bool.2 ⟨hvalues, hkeys⟩
      refine ⟨hfits, fun p hp h hh d hd' => ?_⟩
      rw [← hall p hp h hh d hd', hsides, hcell p hp h hh d hd']
    · rintro ⟨-, hall⟩
      refine ⟨_, bm', start, fun isKey => (range (start + n)).flatMap
        (bm'.rowAt ids (nh * hd) isKey), hhook, hstart, hread, fun p hp h hh d hd' => ?_⟩
      rw [hcell p hp h hh d hd', hall p hp h hh d hd']
  · -- the copy panics
    have hnone : copyHeads n nh hd srcOff data = none :=
      Option.eq_none_iff_forall_ne_some.2 fun out hout => hfits (copyHeads_in_range hout)
    rw [hnone] at hwrite
    constructor
    · rintro ⟨kvNew', bm', start', cache, hhook, -⟩
      simp only [interceptConsumedOutput, hdims, hstart, hwrite, Option.bind_eq_bind,
        Option.bind_some, Option.bind_none, reduceCtorEq] at hhook
    · exact fun h => absurd (hdata ▸ h.1) hfits

/-- Every BNSD tensor, and a BSND one with three sizes or where the wrong reading does no harm. -/
theorem interceptConsumedOutput_elements_iff (layout : KvLayout) (hnh : 0 < nh) (hhd : 0 < hd)
    (hn : 0 < n) (hdata : data.length = n * (nh * hd))
    (htable : bm.blockTables.lookup (layerRid rid fi) = some ids) (hpaged : bm.Paged ids (nh * hd))
    (hheads : slab.dims.lookup "heads" = some nh) (hdim : slab.dims.lookup "dim" = some hd)
    (hpositions : positions.length = n) (hstart : writeStart positions isDecode = some start)
    (hcover : start + n ≤ bm.blockSize * ids.length) (oi : Nat) (kvNew : KvNew)
    (outs : List IOTensorDef) (overrideIsKey : Bool) :
    StoresElements layout nh n hd data fi oi kvNew bm rid positions isDecode outs slab
        overrideIsKey ↔
      layout = .bnsd ∨ AxesDiffer nh n hd ∨ FallbackHarmless nh n hd data := by
  have hiff := storesElements_iff_offsets layout hhd hnh hn hdata htable hpaged hheads hdim
    hpositions hstart hcover oi kvNew outs overrideIsKey
  cases layout with
  | bnsd =>
    rw [hiff _ (transposeToBnldFromSlab_bnsdShape nh n hd data)]
    exact ⟨fun _ => .inl rfl,
      fun _ => ⟨fun p hp h hh => KvLayout.bnsd.offset_fits hp hh, fun _ _ _ _ _ _ => rfl⟩⟩
  | bsnd =>
    have hcopy := transposeToBnldFromSlab_bsndShape nh n hd data
    by_cases hdiffer : AxesDiffer nh n hd
    · rw [if_pos hdiffer] at hcopy
      rw [hiff _ hcopy]
      exact ⟨fun _ => .inr (.inl hdiffer),
        fun _ => ⟨fun p hp h hh => KvLayout.bsnd.offset_fits hp hh, fun _ _ _ _ _ _ => rfl⟩⟩
    · rw [if_neg hdiffer] at hcopy
      rw [hiff _ hcopy, fallback_fits_iff hnh hhd hn]
      constructor
      · exact fun h => .inr (.inr h)
      · rintro (h | h | h)
        · cases h
        · exact absurd h hdiffer
        · exact h

end

/-! ## A square tensor -/

/-- A slab with the heads and the dim of the tensor. -/
def slabOf (nh hd : Nat) : SlabSpec where
  dims := (AList.singleton "heads" nh).insert "dim" hd

/-- Three positions of two heads of one element each, as BSND: the sizes differ. -/
theorem interceptConsumedOutput_elements_iff_witness :
    ∃ bm₀ ids bm, BlockManager.newWithCache 2 2 2 1 = .ok bm₀ ∧
      bm₀.allocate (layerRid "r" 0) 4 = (.ok ids, bm) ∧
      StoresElements .bsnd 2 3 1 [⟨1⟩, ⟨2⟩, ⟨3⟩, ⟨4⟩, ⟨5⟩, ⟨6⟩] 0 0 ∅ bm "r" [0, 1, 2] false
        [⟨true⟩] (slabOf 2 1) true := by
  obtain ⟨bm₀, hbm₀⟩ : ∃ bm, BlockManager.newWithCache 2 2 2 1 = .ok bm := ⟨_, rfl⟩
  obtain ⟨bm, hok, hsize⟩ : ∃ bm, bm₀.allocate (layerRid "r" 0) 4 = (.ok [1, 0], bm) ∧
      bm.blockSize = 2 := by
    cases hbm₀
    exact ⟨_, rfl, rfl⟩
  obtain ⟨htable, hpaged⟩ := BlockManager.paged_allocate
    (BlockManager.Fresh.exact (.inr ⟨2, 2, 2, 1, hbm₀⟩))
    (BlockManager.buffered_newWithCache hbm₀) hok
  have hcover : 0 + 3 ≤ bm.blockSize * [1, 0].length := by
    rw [hsize]
    decide
  have hdiffer : AxesDiffer 2 3 1 := by decide
  exact ⟨bm₀, [1, 0], bm, hbm₀, hok,
    (interceptConsumedOutput_elements_iff .bsnd (by decide) (by decide) (by decide) rfl htable
      hpaged rfl rfl rfl rfl hcover 0 ∅ [⟨true⟩] true).2 (.inr (.inl hdiffer))⟩

/-- Two positions of two heads, as BSND: head 1 of position 0 is stored as head 0 of position 1. -/
theorem interceptConsumedOutput_elements_fails :
    ∃ bm₀ ids bm, BlockManager.newWithCache 1 2 2 1 = .ok bm₀ ∧
      bm₀.allocate (layerRid "r" 0) 2 = (.ok ids, bm) ∧
      ¬ StoresElements .bsnd 2 2 1 [⟨1⟩, ⟨2⟩, ⟨3⟩, ⟨4⟩] 0 0 ∅ bm "r" [0, 1] false [⟨true⟩]
        (slabOf 2 1) true := by
  obtain ⟨bm₀, hbm₀⟩ : ∃ bm, BlockManager.newWithCache 1 2 2 1 = .ok bm := ⟨_, rfl⟩
  obtain ⟨bm, kvNew, bm', hok, hhook, hread⟩ : ∃ bm kvNew bm',
      bm₀.allocate (layerRid "r" 0) 2 = (.ok [0], bm) ∧
      interceptConsumedOutput 0 0 ⟨[1, 2, 2, 1], [⟨1⟩, ⟨2⟩, ⟨3⟩, ⟨4⟩]⟩ ∅ (some bm) (some "r")
        [0, 1] false [⟨true⟩] (some (slabOf 2 1)) true = some (.ok (), kvNew, some bm') ∧
      bm'.readKv (layerRid "r" 0) 2 2 = some (.ok ([⟨1⟩, ⟨3⟩, ⟨2⟩, ⟨4⟩], [0, 0, 0, 0])) := by
    cases hbm₀
    exact ⟨_, _, _, rfl, rfl, rfl⟩
  refine ⟨bm₀, [0], bm, hbm₀, hok, ?_⟩
  rintro ⟨kvNew', bm'', start, cache, hhook', hstart, hread', hall⟩
  cases hhook.symm.trans hhook'
  obtain rfl : 0 = start := Option.some.inj hstart
  injection hread'.symm.trans hread with h
  injection h with h
  injection h with hkeys _
  have helement := hall 0 (by decide) 1 (by decide) 0 (by decide)
  have hkey : isKeyOutput [⟨true⟩] 0 true = true := rfl
  rw [hkey, hkeys] at helement
  exact absurd helement (by decide)

end CompileForge.Runtime
