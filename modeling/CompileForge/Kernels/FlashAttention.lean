/-
  Attention tile by tile (`kernels/flash_attention.py`): the plain attention of
  `_flash_attention_fwd_cpu` and the kernel of `_flash_attention_fwd_triton`.
-/

import CompileForge.Lib.OnlineSoftmax
import CompileForge.Lib.Paging
import CompileForge.Lib.Tile
import Mathlib.Analysis.SpecialFunctions.Exp

namespace CompileForge.Kernels

open Lib List
open Lib.Tile (arange expandDims reduce load store dot trans full IsVec IsMat Reads
  Yields yields_bind yields_some isVec_full isMat_full)

structure Strides where
  batch : Nat
  head : Nat
  row : Nat

/-- The address of an element. -/
def Strides.addr (s : Strides) (b h m d : Nat) : Nat := b * s.batch + h * s.head + m * s.row + d

/-- What the kernel is launched with; no two elements of the output share an address. -/
structure FlashArgs (R : Type) where
  batch : Nat
  heads : Nat
  seqLen : Nat
  headDim : Nat
  strideQ : Strides
  strideK : Strides
  strideV : Strides
  strideO : Strides
  scale : R
  causal : Bool
  distinct : ∀ b < batch, ∀ h < heads, ∀ m < seqLen, ∀ d < headDim,
    ∀ b' < batch, ∀ h' < heads, ∀ m' < seqLen, ∀ d' < headDim,
      strideO.addr b h m d = strideO.addr b' h' m' d' → (b, h, m, d) = (b', h', m', d')

namespace FlashArgs

section Defs

variable {R : Type} (x : FlashArgs R)

/-- `next_power_of_2` cuts a block. -/
def blockM : Nat := min 128 (2 ^ Nat.clog 2 x.seqLen)

def blockN : Nat := min 64 (2 ^ Nat.clog 2 x.seqLen)

def numMBlocks : Nat := cdiv x.seqLen x.blockM

/-- Every address is one of the storage. -/
def Inside (s : Strides) (storage : List R) : Prop :=
  ∀ b < x.batch, ∀ h < x.heads, ∀ m < x.seqLen, ∀ d < x.headDim, s.addr b h m d < storage.length

/-- The causal mask. -/
def sees (m n : Nat) : Bool := !x.causal || decide (n ≤ m)

variable [Field R]

def dotQK (q k : List R) (b h m n : Nat) : R :=
  ((range x.headDim).map fun d =>
    q.getD (x.strideQ.addr b h m d) 0 * k.getD (x.strideK.addr b h n d) 0).sum

/-- `scaled_dot_product_attention`, with the causal mask where it is asked for. -/
def attend (exp : R → R) (q k v : List R) (b h m d : Nat) : R :=
  softmaxMean exp (((range x.seqLen).filter (x.sees m)).map fun n =>
    (x.dotQK q k b h m n * x.scale, v.getD (x.strideV.addr b h n d) 0))

def flashAttentionCpu (exp : R → R) (q k v : List R) : List (Nat × ExactFloat R) :=
  (range x.batch).flatMap fun b => (range x.heads).flatMap fun h =>
    (range x.seqLen).flatMap fun m => (range x.headDim).map fun d =>
      (x.strideO.addr b h m d, .fin (x.attend exp q k v b h m d))

end Defs

end FlashArgs

section Kernel

variable {R : Type} [Field R] [LinearOrder R]

/-- The values that masked loads give in a program, those of K and V at a block. -/
structure FlashUndef (R : Type) where
  q : Nat → List Nat → ExactFloat R
  k : Nat → Nat → List Nat → ExactFloat R
  v : Nat → Nat → List Nat → ExactFloat R

/-- The running maximum, the normaliser and the accumulator. -/
abbrev FlashState (R : Type) :=
  Tensor (ExactFloat R) × Tensor (ExactFloat R) × Tensor (ExactFloat R)

/-- Keys behind the end of the sequence are not masked. -/
def maskScores (x : FlashArgs R) (offsM offsN : Tensor Nat) (qk : Tensor (ExactFloat R)) :
    Option (Tensor (ExactFloat R)) :=
  if x.causal then do
    let keep ← Tile.map₂ (fun m n => decide (n ≤ m)) (expandDims 1 offsM) (expandDims 0 offsN)
    Tile.mask keep qk (.inf true)
  else some qk

variable (exp : R → R) (least : Nat) (x : FlashArgs R)

/-- One turn of the loop over the blocks of keys. -/
def flashTurn (k v : List R) (undefK undefV : Nat → List Nat → ExactFloat R)
    (batchIdx headIdx : Nat) (offsM offsD : Tensor Nat) (q : Tensor (ExactFloat R))
    (s : FlashState R) (nBlockIdx : Nat) : Option (FlashState R) := do
  let places ← arange x.blockN
  let offsN := Tile.map (nBlockIdx * x.blockN + ·) places
  let kAddr ← Tile.map₂ (x.strideK.addr batchIdx headIdx) (expandDims 1 offsN)
    (expandDims 0 offsD)
  let kBlock ← load (k.map .fin) kAddr
    (Tile.map (fun n => decide (n < x.seqLen)) (expandDims 1 offsN)) (undefK nBlockIdx)
  let qk ← dot (· * ·) ExactFloat.sum least q (trans kBlock)
  let qk := Tile.map (· * .fin x.scale) qk
  let qk ← maskScores x offsM offsN qk
  let mNew ← Tile.map₂ ExactFloat.maximum s.1 (reduce ExactFloat.maximumOf 1 qk)
  let alpha ← Tile.map₂ (fun m m' => (m.sub m').exp exp) s.1 mNew
  let p ← Tile.map₂ (fun score m => (score.sub m).exp exp) qk (expandDims 1 mNew)
  let l ← Tile.map₂ (· * ·) s.2.1 alpha
  let l ← Tile.map₂ ExactFloat.add l (reduce ExactFloat.sum 1 p)
  let acc ← Tile.map₂ (· * ·) s.2.2 (expandDims 1 alpha)
  let vAddr ← Tile.map₂ (fun n d => x.strideV.addr batchIdx headIdx n d) (expandDims 0 offsN)
    (expandDims 1 offsD)
  let vBlock ← load (v.map .fin) vAddr
    (Tile.map (fun n => decide (n < x.seqLen)) (expandDims 0 offsN)) (undefV nBlockIdx)
  let pv ← dot (· * ·) ExactFloat.sum least p vBlock
  let acc ← Tile.map₂ ExactFloat.add acc pv
  some (mNew, l, acc)

/-- `_kernel`: the writes of a program. -/
def flashKernel (q k v : List R)
    (undef : FlashUndef R) (pid : Nat) : Option (List (Nat × ExactFloat R)) := do
  let batchIdx := pid / (x.heads * x.numMBlocks)
  let headIdx := pid / x.numMBlocks % x.heads
  let mBlockIdx := pid % x.numMBlocks
  let places ← arange x.blockM
  let offsM := Tile.map (mBlockIdx * x.blockM + ·) places
  let offsD ← arange x.headDim
  let inside := Tile.map (fun m => decide (m < x.seqLen)) (expandDims 1 offsM)
  let qAddr ← Tile.map₂ (x.strideQ.addr batchIdx headIdx) (expandDims 1 offsM)
    (expandDims 0 offsD)
  let qBlock ← load (q.map .fin) qAddr inside (undef.q pid)
  let s ← (range (cdiv x.seqLen x.blockN)).foldlM
    (flashTurn exp least x k v (undef.k pid) (undef.v pid) batchIdx headIdx offsM offsD qBlock)
    (full [x.blockM] (.inf true), full [x.blockM] (.fin 0), full [x.blockM, x.headDim] (.fin 0))
  let acc ← Tile.map₂ ExactFloat.div s.2.2 (expandDims 1 s.2.1)
  let oAddr ← Tile.map₂ (x.strideO.addr batchIdx headIdx) (expandDims 1 offsM)
    (expandDims 0 offsD)
  store oAddr acc inside

/-- The programs in any order write every element once, and what plain attention gives. -/
def FlashRight : Prop :=
  ∀ q k v : List R, x.Inside x.strideQ q → x.Inside x.strideK k → x.Inside x.strideV v →
    ∀ (undef : FlashUndef R) (order : List Nat),
      order.Perm (range (x.batch * x.heads * x.numMBlocks)) →
      ∃ writes, order.mapM (flashKernel exp least x q k v undef) = some writes ∧
        writes.flatten.Perm (x.flashAttentionCpu exp q k v)

end Kernel

section Program

variable {R : Type} [Field R] [LinearOrder R] {exp : R → R} {least : Nat} {x : FlashArgs R}
  {q k v : List R} {undef : FlashUndef R} {undefK undefV : Nat → List Nat → ExactFloat R}
  {b h nb pid : Nat} {offsM offsD : Tensor Nat} {rows : Nat → Nat} {Q : Nat → Nat → ExactFloat R}
  {qBlock : Tensor (ExactFloat R)} {s : FlashState R} {st : Nat → Nat → OnlineSoftmax.State R}

namespace FlashArgs

variable (x k undefK)

/-- An element of a tensor, or what a load gives for a row behind the sequence. -/
def loaded (s : Strides) (storage : List R) (other : ExactFloat R)
    (b h row d : Nat) : ExactFloat R :=
  if decide (row < x.seqLen) then (storage.map .fin).getD (s.addr b h row d) other else other

/-- A score of a query, whose elements are given, in a program. -/
def scoreAt (b h m : Nat) (query : Nat → ExactFloat R) (nb n : Nat) : ExactFloat R :=
  if x.sees m (nb * x.blockN + n) then
    ExactFloat.sum ((range x.headDim).map fun d =>
      query d * x.loaded x.strideK k (undefK nb [n, d]) b h (nb * x.blockN + n) d) * .fin x.scale
  else .inf true

variable {x k undefK}

/-- The scores of a block with what each weighs in column `j`, rows and columns of V exchanged. -/
def blockAt (x : FlashArgs R) (k v : List R) (undefK undefV : Nat → List Nat → ExactFloat R)
    (b h m : Nat) (query : Nat → ExactFloat R) (j nb : Nat) :
    List (ExactFloat R × ExactFloat R) :=
  (range x.blockN).map fun n => (x.scoreAt k undefK b h m query nb n,
    x.loaded x.strideV v (undefV nb [n, j]) b h (nb * x.blockN + j) n)

/-- The products of a turn fit. -/
def Multiplies (x : FlashArgs R) (least : Nat) : Prop := least ≤ x.headDim ∧ x.headDim = x.blockN

end FlashArgs

/-- The rows and columns of the tiles are states of the recurrence. -/
def States (x : FlashArgs R) (s : FlashState R) (st : Nat → Nat → OnlineSoftmax.State R) : Prop :=
  ∃ M L A, IsVec s.1 x.blockM M ∧ IsVec s.2.1 x.blockM L ∧ IsMat s.2.2 x.blockM x.headDim A ∧
    ∀ i j, st i j = (M i, L i, A i j)

omit [Field R] [LinearOrder R] in
theorem maskScores_isMat {offsN : Tensor Nat} {cols : Nat → Nat} {qk : Tensor (ExactFloat R)}
    {f : Nat → Nat → ExactFloat R} (hM : IsVec offsM x.blockM rows)
    (hN : IsVec offsN x.blockN cols) (hqk : IsMat qk x.blockM x.blockN f) :
    ∃ t, maskScores x offsM offsN qk = some t ∧ IsMat t x.blockM x.blockN fun i n =>
      if x.sees (rows i) (cols n) then f i n else .inf true := by
  cases hcausal : x.causal with
  | false =>
    refine ⟨qk, by rw [maskScores, if_neg (by simp [hcausal])], ?_⟩
    simpa [FlashArgs.sees, hcausal] using hqk
  | true =>
    obtain ⟨keep, hkeep, hK⟩ := (hM.column x.blockN).map₂ (hN.row x.blockM) (.inl rfl) (.inr rfl)
      fun m n => decide (n ≤ m)
    obtain ⟨t, ht, hT⟩ := hK.map₂ hqk (.inl rfl) (.inl rfl) fun keep a =>
      if keep then a else .inf true
    refine ⟨t, ?_, by simpa [FlashArgs.sees, hcausal] using hT⟩
    rw [maskScores, if_pos hcausal, hkeep]
    exact ht

/-- What a program has when its loop starts. -/
structure Ready (x : FlashArgs R) (k v : List R) (b h : Nat) (offsM offsD : Tensor Nat)
    (qBlock : Tensor (ExactFloat R)) (rows : Nat → Nat) (Q : Nat → Nat → ExactFloat R) : Prop where
  blockN : 2 ^ x.blockN.log2 = x.blockN
  blockN_le : x.blockN ≤ x.blockM
  offsM : IsVec offsM x.blockM rows
  offsD : IsVec offsD x.headDim fun d => d
  query : IsMat qBlock x.blockM x.headDim Q
  insideK : ∀ m < x.seqLen, ∀ d < x.headDim, x.strideK.addr b h m d < k.length
  insideV : ∀ m < x.seqLen, ∀ d < x.headDim, x.strideV.addr b h m d < v.length

theorem flashTurn_yields (hr : Ready x k v b h offsM offsD qBlock rows Q) (hs : States x s st) :
    Yields (flashTurn exp least x k v undefK undefV b h offsM offsD qBlock s nb)
      (x.Multiplies least) fun s' => States x s' fun i j =>
        OnlineSoftmax.step exp (st i j) (x.blockAt k v undefK undefV b h (rows i) (Q i) j nb) := by
  obtain ⟨M, L, A, hm, hl, hacc, hst⟩ := hs
  have hplaces : ∃ t, arange x.blockN = some t ∧ IsVec t x.blockN fun n => n :=
    ⟨_, if_pos hr.blockN, rfl, fun _ _ => rfl⟩
  refine Yields.congr (?_ : Yields _ (((least ≤ x.blockM ∧ least ≤ x.headDim ∧ least ≤ x.blockN) ∧
    x.headDim = x.headDim) ∧ (least ≤ x.blockM ∧ least ≤ x.blockN ∧ least ≤ x.blockN) ∧
      x.blockN = x.headDim) _) ?_
  · refine yields_bind hplaces fun places hplaces => ?_
    have hN := hplaces.map (nb * x.blockN + ·)
    refine yields_bind ((hN.column x.headDim).map₂ (hr.offsD.row x.blockN) (.inl rfl) (.inr rfl) _)
      fun kAddr hkAddr => ?_
    refine yields_bind (hkAddr.load ((hN.column x.headDim).map _) (fun n _ d hd hin => ?_) _)
      fun kBlock hkBlock => ?_
    · rw [length_map]
      exact hr.insideK _ (of_decide_eq_true hin) d hd
    refine (hr.query.dot hkBlock.trans _ _ _).bind fun _ qk hqk => ?_
    refine yields_bind (maskScores_isMat hr.offsM hN (hqk.map _)) fun qk hqk => ?_
    refine yields_bind (hm.map₂ (hqk.reduce _) _) fun mNew hmNew => ?_
    refine yields_bind (hm.map₂ hmNew _) fun alpha halpha => ?_
    refine yields_bind (hqk.map₂ (hmNew.column _) (.inl rfl) (.inl rfl) _) fun p hp => ?_
    refine yields_bind (hl.map₂ halpha _) fun l hl => ?_
    refine yields_bind (hl.map₂ (hp.reduce _) _) fun l hl => ?_
    refine yields_bind (hacc.map₂ (halpha.column _) (.inl rfl) (.inl rfl) _) fun acc hacc => ?_
    refine yields_bind ((hN.row x.headDim).map₂ (hr.offsD.column x.blockN) (.inr rfl) (.inl rfl) _)
      fun vAddr hvAddr => ?_
    refine yields_bind (hvAddr.load ((hN.row x.headDim).map _) (fun d hd n _ hin => ?_) _)
      fun vBlock hvBlock => ?_
    · rw [length_map]
      exact hr.insideV _ (of_decide_eq_true hin) d hd
    refine Yields.congr (?_ : Yields _ (((least ≤ x.blockM ∧ least ≤ x.blockN ∧ least ≤ x.blockN) ∧
      x.blockN = x.headDim) ∧ True) _) (by tauto)
    refine (hp.dot hvBlock _ _ _).bind fun hok pv hpv => ?_
    refine yields_bind (hacc.map₂ (hpv.cast hok.2) (.inl rfl) (.inl rfl) _) fun acc hacc => ?_
    refine yields_some ⟨_, _, _, hmNew, hl, hacc, fun i j => ?_⟩
    show OnlineSoftmax.step exp (st i j) _ = _
    rw [hst, OnlineSoftmax.step, FlashArgs.blockAt, map_map, map_map, map_map]
    rfl
  · constructor
    · rintro ⟨⟨⟨-, hleast, -⟩, -⟩, -, heq⟩
      exact ⟨hleast, heq.symm⟩
    · rintro ⟨hleast, heq⟩
      have hleast' : least ≤ x.blockN := heq ▸ hleast
      have hleastM := hleast'.trans hr.blockN_le
      exact ⟨⟨⟨hleastM, hleast, hleast'⟩, rfl⟩, ⟨hleastM, hleast', hleast'⟩, heq.symm⟩

theorem flashTurns_yields (hr : Ready x k v b h offsM offsD qBlock rows Q) {blocks : List Nat}
    (hne : blocks ≠ []) (hs : States x s st) :
    Yields (blocks.foldlM (flashTurn exp least x k v undefK undefV b h offsM offsD qBlock) s)
      (x.Multiplies least) fun s' => States x s' fun i j =>
        blocks.foldl (fun t nb => OnlineSoftmax.step exp t
          (x.blockAt k v undefK undefV b h (rows i) (Q i) j nb)) (st i j) := by
  induction blocks generalizing s st with
  | nil => exact absurd rfl hne
  | cons nb blocks ih =>
    have hturn : Yields (flashTurn exp least x k v undefK undefV b h offsM offsD qBlock s nb) _ _ :=
      flashTurn_yields hr hs
    rw [foldlM_cons]
    cases blocks with
    | nil =>
      show Yields (_ >>= pure) _ _
      rwa [bind_pure]
    | cons =>
      exact (hturn.bind fun _ s' hs' => ih (cons_ne_nil _ _) hs').congr (and_self_iff)

/-- What a program gives for the column `j` of its row `i`, the row `m` of the sequence. -/
def FlashArgs.outAt (x : FlashArgs R) (exp : R → R) (q k v : List R) (undef : FlashUndef R)
    (pid b h m i j : Nat) : ExactFloat R :=
  let st := (range (cdiv x.seqLen x.blockN)).foldl (fun t nb =>
    OnlineSoftmax.step exp t (x.blockAt k v (undef.k pid) (undef.v pid) b h m
      (fun d => x.loaded x.strideQ q (undef.q pid [i, d]) b h m d) j nb)) OnlineSoftmax.start
  st.2.2.div st.2.1

/-- A tile of V is loaded with its dims exchanged, and multiplied as if they were not. -/
def FlashArgs.writesOf (x : FlashArgs R) (exp : R → R) (q k v : List R) (undef : FlashUndef R)
    (pid : Nat) : List (Nat × ExactFloat R) :=
  let b := pid / (x.heads * x.numMBlocks)
  let h := pid / x.numMBlocks % x.heads
  (range x.blockM).flatMap fun i =>
    let m := pid % x.numMBlocks * x.blockM + i
    if decide (m < x.seqLen) then
      (range x.headDim).map fun j =>
        (x.strideO.addr b h m j, x.outAt exp q k v undef pid b h m i j)
    else []

omit [Field R] [LinearOrder R] in
theorem blocks_pow (x : FlashArgs R) : 2 ^ x.blockM.log2 = x.blockM ∧
    2 ^ x.blockN.log2 = x.blockN ∧ x.blockN ≤ x.blockM ∧ 0 < x.blockN := by
  have hmin : ∀ c : Nat, ∃ e, min (2 ^ c) (2 ^ Nat.clog 2 x.seqLen) = 2 ^ e := fun c => by
    rcases le_total (2 ^ c) (2 ^ Nat.clog 2 x.seqLen) with hle | hle
    · exact ⟨c, min_eq_left hle⟩
    · exact ⟨_, min_eq_right hle⟩
  obtain ⟨eM, hM⟩ := hmin 7
  obtain ⟨eN, hN⟩ := hmin 6
  have hM' : x.blockM = 2 ^ eM := hM
  have hN' : x.blockN = 2 ^ eN := hN
  refine ⟨by rw [hM', Nat.log2_two_pow], by rw [hN', Nat.log2_two_pow],
    min_le_min_right _ (by decide), ?_⟩
  rw [hN']
  exact Nat.two_pow_pos eN

theorem flashKernel_yields (hS : 0 < x.seqLen) (hq : x.Inside x.strideQ q)
    (hk : x.Inside x.strideK k) (hv : x.Inside x.strideV v)
    (hpid : pid < x.batch * x.heads * x.numMBlocks) :
    Yields (flashKernel exp least x q k v undef pid) (x.Multiplies least)
      (· = x.writesOf exp q k v undef pid) := by
  obtain ⟨hM, hN, hNM, hpos⟩ := blocks_pow x
  have hheads : 0 < x.heads := Nat.pos_of_ne_zero fun hzero => by simp [hzero] at hpid
  have hb : pid / (x.heads * x.numMBlocks) < x.batch :=
    Nat.div_lt_of_lt_mul (by rwa [mul_comm, ← mul_assoc])
  have hh : pid / x.numMBlocks % x.heads < x.heads := Nat.mod_lt _ hheads
  have hplaces : ∃ t, arange x.blockM = some t ∧ IsVec t x.blockM fun i => i :=
    ⟨_, if_pos hM, rfl, fun _ _ => rfl⟩
  have hdims : Yields (arange x.headDim) (2 ^ x.headDim.log2 = x.headDim)
      fun t => IsVec t x.headDim fun d => d :=
    ⟨fun hpow => ⟨_, if_pos hpow, rfl, fun _ _ => rfl⟩, fun hpow => if_neg hpow⟩
  have hblocks : range (cdiv x.seqLen x.blockN) ≠ [] := by
    have hcdiv : 0 < cdiv x.seqLen x.blockN := Nat.div_pos (by omega) hpos
    rw [Ne, range_eq_nil]
    omega
  refine yields_bind hplaces fun places hplaces => ?_
  refine Yields.congr (?_ : Yields _ (2 ^ x.headDim.log2 = x.headDim ∧ x.Multiplies least) _)
    ⟨And.right, fun hok => ⟨by rw [hok.2, hN], hok⟩⟩
  refine hdims.bind fun _ offsD hD => ?_
  have hrows := hplaces.map (pid % x.numMBlocks * x.blockM + ·)
  refine yields_bind ((hrows.column x.headDim).map₂ (hD.row x.blockM) (.inl rfl) (.inr rfl) _)
    fun qAddr hqAddr => ?_
  refine yields_bind (hqAddr.load ((hrows.column x.headDim).map _) (fun i _ d hd hin => ?_) _)
    fun qBlock hqBlock => ?_
  · rw [length_map]
    exact hq _ hb _ hh _ (of_decide_eq_true hin) d hd
  have hready : Ready x k v _ _ _ offsD qBlock _ _ := ⟨hN, hNM, hrows, hD, hqBlock,
    hk _ hb _ hh, hv _ hb _ hh⟩
  refine Yields.congr (?_ : Yields _ (x.Multiplies least ∧ True) _) (by tauto)
  have hstart : States x (full [x.blockM] (.inf true), full [x.blockM] (.fin 0),
      full [x.blockM, x.headDim] (.fin 0)) fun _ _ => OnlineSoftmax.start :=
    ⟨_, _, _, isVec_full _ _, isVec_full _ _, isMat_full _ _ _, fun _ _ => rfl⟩
  refine (flashTurns_yields hready hblocks hstart).bind fun _ s' hs' => ?_
  obtain ⟨M, L, A, -, hl, hacc, hst⟩ := hs'
  refine yields_bind (hacc.map₂ (hl.column _) (.inl rfl) (.inl rfl) _) fun acc hacc => ?_
  refine yields_bind ((hrows.column x.headDim).map₂ (hD.row x.blockM) (.inl rfl) (.inr rfl) _)
    fun oAddr hoAddr => ?_
  rw [hoAddr.store hacc ((hrows.column x.headDim).map _)]
  refine yields_some (flatMap_range_congr fun i _ => ?_)
  have hout : ∀ j, (A i j).div (L i) = x.outAt exp q k v undef pid _ _ _ i j := fun j =>
    congrArg (fun t : OnlineSoftmax.State R => t.2.2.div t.2.1) (hst i j).symm
  simp only [hout]

end Program

/-! ## What the writes hold -/

section Values

variable {R : Type} [Field R] [LinearOrder R] {exp : R → R} {least : Nat} {x : FlashArgs R}
  {q k v : List R} {undef : FlashUndef R} {undefK undefV : Nat → List Nat → ExactFloat R}
  {b h m i j pid : Nat} {query : Nat → ExactFloat R}

omit [Field R] [LinearOrder R] in
theorem mem_kept_grid {T N : Nat} {p : Nat → Nat → Bool} {score value : Nat → Nat → R}
    {e : R × R} : e ∈ OnlineSoftmax.kept (grid T N fun nb n =>
      (if p nb n then some (score nb n) else none, value nb n)) ↔
        ∃ nb < T, ∃ n < N, p nb n = true ∧ (score nb n, value nb n) = e := by
  simp only [OnlineSoftmax.kept, grid, mem_filterMap, mem_flatMap, mem_map, mem_range]
  constructor
  · rintro ⟨_, ⟨nb, hnb, n, hn, rfl⟩, he⟩
    obtain ⟨a, ha, rfl⟩ := Option.map_eq_some_iff.1 he
    obtain ⟨hp, ha⟩ := Option.ite_none_right_eq_some.1 ha
    exact ⟨nb, hnb, n, hn, hp, by rw [Option.some.inj ha]⟩
  · rintro ⟨nb, hnb, n, hn, hp, rfl⟩
    exact ⟨_, ⟨nb, hnb, n, hn, rfl⟩, by simp [hp]⟩

/-- Of numbers, the recurrence gives the mean over the keys that are seen. -/
theorem outAt_eq [IsStrictOrderedRing R] (hadd : ∀ a b, exp (a + b) = exp a * exp b)
    (hpos : ∀ a, 0 < exp a) (hS : 0 < x.seqLen) {scores values : Nat → Nat → R}
    (hscore : ∀ nb < cdiv x.seqLen x.blockN, ∀ n < x.blockN,
      x.scoreAt k (undef.k pid) b h m (fun d => x.loaded x.strideQ q (undef.q pid [i, d]) b h m d)
        nb n = OnlineSoftmax.score
          (if x.sees m (nb * x.blockN + n) then some (scores nb n) else none))
    (hvalue : ∀ nb < cdiv x.seqLen x.blockN, ∀ n < x.blockN,
      x.loaded x.strideV v (undef.v pid nb [n, j]) b h (nb * x.blockN + j) n = .fin (values nb n)) :
    x.outAt exp q k v undef pid b h m i j = .fin (softmaxMean exp (OnlineSoftmax.kept
      (grid (cdiv x.seqLen x.blockN) x.blockN fun nb n =>
        (if x.sees m (nb * x.blockN + n) then some (scores nb n) else none, values nb n)))) := by
  obtain ⟨-, -, -, hblock⟩ := blocks_pow x
  obtain ⟨T, hT⟩ := Nat.exists_eq_succ_of_ne_zero (show cdiv x.seqLen x.blockN ≠ 0 from
    (Nat.div_pos (by omega) hblock).ne')
  rw [hT] at hscore hvalue ⊢
  let entries : Nat → List (Option R × R) := fun nb => (range x.blockN).map fun n =>
    (if x.sees m (nb * x.blockN + n) then some (scores nb n) else none, values nb n)
  have hblocks : ∀ nb < T + 1, x.blockAt k v (undef.k pid) (undef.v pid) b h m
      (fun d => x.loaded x.strideQ q (undef.q pid [i, d]) b h m d) j nb =
        (entries nb).map OnlineSoftmax.entry := by
    intro nb hnb
    rw [FlashArgs.blockAt, map_map]
    refine map_congr_left fun n hn => ?_
    exact Prod.ext (hscore nb hnb n (mem_range.1 hn)) (hvalue nb hnb n (mem_range.1 hn))
  -- the first key is seen by every query
  have hfirst : ∃ e ∈ entries 0, e.1.isSome := by
    refine ⟨_, mem_map_of_mem (mem_range.2 hblock), ?_⟩
    simp [FlashArgs.sees]
  have hfold : (range (T + 1)).foldl (fun t nb => OnlineSoftmax.step exp t
      (x.blockAt k v (undef.k pid) (undef.v pid) b h m
        (fun d => x.loaded x.strideQ q (undef.q pid [i, d]) b h m d) j nb)) OnlineSoftmax.start =
      ((range (T + 1)).map entries).foldl
        (fun t block => OnlineSoftmax.step exp t (block.map OnlineSoftmax.entry))
        OnlineSoftmax.start := by
    rw [foldl_map]
    exact foldl_ext _ _ _ fun t nb hnb => by rw [hblocks nb (mem_range.1 hnb)]
  have hcarries := OnlineSoftmax.carries_foldl hadd hfirst
    (((range T).map Nat.succ).map entries)
  rw [← map_cons, ← range_succ_eq_map, ← hfold, ← flatMap_def] at hcarries
  have hne : OnlineSoftmax.kept ((range (T + 1)).flatMap entries) ≠ [] :=
    ne_nil_of_mem (mem_kept_grid.2 ⟨0, T.succ_pos, 0, hblock, by simp [FlashArgs.sees], rfl⟩)
  rw [FlashArgs.outAt, hT]
  exact hcarries.div_eq hpos hne

variable {storage : List R} {row d : Nat}

section

omit [LinearOrder R]

theorem loaded_of_lt {s : Strides} {other : ExactFloat R}
    (hrow : row < x.seqLen) (hin : s.addr b h row d < storage.length) :
    x.loaded s storage other b h row d = .fin (storage.getD (s.addr b h row d) 0) := by
  rw [FlashArgs.loaded, if_pos (decide_eq_true hrow), getD_eq_getElem?_getD,
    getElem?_map, getD_eq_getElem?_getD, getElem?_eq_getElem hin]
  rfl

theorem loaded_fin {s : Strides} (other : R)
    (hin : row < x.seqLen → s.addr b h row d < storage.length) :
    x.loaded s storage (.fin other) b h row d =
      .fin (if row < x.seqLen then storage.getD (s.addr b h row d) 0 else other) := by
  by_cases hrow : row < x.seqLen
  · rw [loaded_of_lt hrow (hin hrow), if_pos hrow]
  · rw [FlashArgs.loaded, if_neg (by simpa using hrow), if_neg hrow]

end

theorem scoreAt_eq {nb n : Nat} {query' key : Nat → R}
    (hq : ∀ d < x.headDim, query d = .fin (query' d)) (hk : ∀ d < x.headDim,
      x.loaded x.strideK k (undefK nb [n, d]) b h (nb * x.blockN + n) d = .fin (key d)) :
    x.scoreAt k undefK b h m query nb n = OnlineSoftmax.score (if x.sees m (nb * x.blockN + n) then
        some (((range x.headDim).map fun d => query' d * key d).sum * x.scale) else none) := by
  have hlist : ((range x.headDim).map fun d =>
      query d * x.loaded x.strideK k (undefK nb [n, d]) b h (nb * x.blockN + n) d) =
        ((range x.headDim).map fun d => query' d * key d).map .fin := by
    rw [map_map]
    refine map_congr_left fun d hd => ?_
    rw [hq d (mem_range.1 hd), hk d (mem_range.1 hd)]
    rfl
  rw [FlashArgs.scoreAt, hlist, OnlineSoftmax.sum_fin]
  split <;> rfl

/-- Where exchanging rows and columns of V leaves its addresses, a program gives plain attention. -/
theorem outAt_eq_attend [IsStrictOrderedRing R] (hadd : ∀ a b, exp (a + b) = exp a * exp b)
    (hpos : ∀ a, 0 < exp a) (hS : 0 < x.seqLen) (hdim : x.headDim = x.blockN)
    (hdvd : x.blockN ∣ x.seqLen) (hstride : x.seqLen = 1 ∨ x.strideV.row = 1)
    (hq : x.Inside x.strideQ q) (hk : x.Inside x.strideK k) (hv : x.Inside x.strideV v)
    (hb : b < x.batch) (hh : h < x.heads) (hm : m < x.seqLen) (hj : j < x.headDim) :
    x.outAt exp q k v undef pid b h m i j = .fin (x.attend exp q k v b h m j) := by
  obtain ⟨-, -, -, hblock⟩ := blocks_pow x
  have hcdiv : cdiv x.seqLen x.blockN * x.blockN = x.seqLen := by
    obtain ⟨c, hc⟩ := hdvd
    rw [cdiv, hc, Nat.add_sub_assoc hblock, Nat.mul_add_div hblock,
      Nat.div_eq_of_lt (Nat.sub_lt hblock Nat.one_pos), Nat.add_zero, Nat.mul_comm]
  have hkey : ∀ nb < cdiv x.seqLen x.blockN, ∀ n < x.blockN,
      nb * x.blockN + n < x.seqLen := by
    intro nb hnb n hn
    have hle := Nat.mul_le_mul_right x.blockN (Nat.succ_le_of_lt hnb)
    rw [hcdiv, Nat.succ_mul] at hle
    omega
  have hvalue : ∀ nb < cdiv x.seqLen x.blockN, ∀ n < x.blockN,
      x.loaded x.strideV v (undef.v pid nb [n, j]) b h (nb * x.blockN + j) n =
        .fin (v.getD (x.strideV.addr b h (nb * x.blockN + n) j) 0) := by
    intro nb hnb n hn
    have hkey' := hkey nb hnb j (hdim ▸ hj)
    rw [loaded_of_lt hkey' (hv b hb h hh _ hkey' n (hdim ▸ hn))]
    refine congrArg (fun a => ExactFloat.fin (v.getD a 0)) ?_
    simp only [Strides.addr]
    rcases hstride with hone | hone
    · have hN : x.blockN = 1 := Nat.dvd_one.1 (hone ▸ hdvd)
      obtain rfl : n = 0 := by omega
      obtain rfl : j = 0 := by omega
      rfl
    · rw [hone]
      omega
  rw [outAt_eq hadd hpos hS (fun nb hnb n hn => scoreAt_eq
    (fun d hd => loaded_of_lt hm (hq b hb h hh m hm d hd)) fun d hd =>
      loaded_of_lt (hkey nb hnb n hn) (hk b hb h hh _ (hkey nb hnb n hn) d hd)) hvalue]
  refine congrArg (fun l => ExactFloat.fin (softmaxMean exp l)) ?_
  have hgrid := map_range_mul (cdiv x.seqLen x.blockN) x.blockN fun key =>
    (if x.sees m key then some (x.dotQK q k b h m key * x.scale) else none,
      v.getD (x.strideV.addr b h key j) 0)
  rw [hcdiv] at hgrid
  exact (congrArg OnlineSoftmax.kept hgrid.symm).trans (OnlineSoftmax.kept_map _ _ _ _)

/-- The programs one after another write the output from its first to its last element. -/
theorem flatMap_writesOf (hS : 0 < x.seqLen)
    (hout : ∀ pid i, ∀ b < x.batch, ∀ h < x.heads, ∀ m < x.seqLen, ∀ j < x.headDim,
      x.outAt exp q k v undef pid b h m i j = .fin (x.attend exp q k v b h m j)) :
    (range (x.batch * x.heads * x.numMBlocks)).flatMap (x.writesOf exp q k v undef) =
      x.flashAttentionCpu exp q k v := by
  obtain ⟨-, -, hNM, hblock⟩ := blocks_pow x
  have hM : 0 < x.blockM := by omega
  have hcdiv : x.seqLen ≤ x.numMBlocks * x.blockM := (cdiv_mul_bounds _ hM).1
  obtain ⟨r, hr⟩ := Nat.exists_eq_add_of_le hcdiv
  have hnum : 0 < x.numMBlocks := Nat.pos_of_ne_zero fun hzero => by simp [hzero] at hcdiv; omega
  rw [mul_assoc, flatMap_range_mul]
  refine flatMap_range_congr fun b hb => ?_
  rw [flatMap_range_mul]
  refine flatMap_range_congr fun h hh => ?_
  -- the program of a block of rows
  have hprogram : ∀ mb < x.numMBlocks, x.writesOf exp q k v undef
      (b * (x.heads * x.numMBlocks) + (h * x.numMBlocks + mb)) =
        (range x.blockM).flatMap fun i => if mb * x.blockM + i < x.seqLen then
          (range x.headDim).map fun j => (x.strideO.addr b h (mb * x.blockM + i) j,
            ExactFloat.fin (x.attend exp q k v b h (mb * x.blockM + i) j)) else [] := by
    intro mb hmb
    have hin : h * x.numMBlocks + mb < x.heads * x.numMBlocks := by
      have hle := Nat.mul_le_mul_right x.numMBlocks (Nat.succ_le_of_lt hh)
      rw [Nat.succ_mul] at hle
      omega
    have hflat : b * (x.heads * x.numMBlocks) + (h * x.numMBlocks + mb) =
        (b * x.heads + h) * x.numMBlocks + mb := by
      rw [add_mul, mul_assoc, add_assoc]
    have hbatch : (b * (x.heads * x.numMBlocks) + (h * x.numMBlocks + mb)) /
        (x.heads * x.numMBlocks) = b := by
      rw [mul_comm b, Nat.mul_add_div (by omega), Nat.div_eq_of_lt hin, add_zero]
    have hhead : (b * (x.heads * x.numMBlocks) + (h * x.numMBlocks + mb)) / x.numMBlocks % x.heads =
        h := by
      rw [hflat, mul_comm _ x.numMBlocks, Nat.mul_add_div hnum, Nat.div_eq_of_lt hmb,
        add_zero, mul_comm b, Nat.mul_add_mod, Nat.mod_eq_of_lt hh]
    have hrow : (b * (x.heads * x.numMBlocks) + (h * x.numMBlocks + mb)) % x.numMBlocks = mb := by
      rw [hflat, mul_comm _ x.numMBlocks, Nat.mul_add_mod, Nat.mod_eq_of_lt hmb]
    rw [FlashArgs.writesOf, hbatch, hhead, hrow]
    refine flatMap_range_congr fun i _ => ?_
    simp only [decide_eq_true_eq]
    split
    · rename_i hm
      exact map_congr_left fun j hj => Prod.ext rfl
        (hout _ i b hb h hh _ hm j (mem_range.1 hj))
    · rfl
  rw [flatMap_range_congr hprogram, ← flatMap_range_mul _ _ fun m => if m < x.seqLen then
    (range x.headDim).map fun j => (x.strideO.addr b h m j,
      ExactFloat.fin (x.attend exp q k v b h m j)) else [], hr, range_add, flatMap_append]
  have hrest : ((range r).map (x.seqLen + ·)).flatMap (fun m => if m < x.seqLen then
      (range x.headDim).map fun j => (x.strideO.addr b h m j,
        ExactFloat.fin (x.attend exp q k v b h m j)) else []) = [] := by
    simp
  rw [hrest, append_nil]
  exact flatMap_range_congr fun m hm => if_pos hm

omit [Field R] [LinearOrder R] in
theorem inside_of_le {s : Strides} (h : x.batch * s.batch + x.heads * s.head +
    x.seqLen * s.row + x.headDim ≤ storage.length) : x.Inside s storage := by
  intro b hb h' hh m hm d hd
  have hbatch := Nat.mul_le_mul_right s.batch hb.le
  have hhead := Nat.mul_le_mul_right s.head hh.le
  have hrow := Nat.mul_le_mul_right s.row hm.le
  rw [Strides.addr]
  omega

/-- Some key that is seen has a value in the exchanged tile, and none has one in the column. -/
theorem not_flashRight [IsStrictOrderedRing R] (hadd : ∀ a b, exp (a + b) = exp a * exp b)
    (hpos : ∀ a, 0 < exp a) (hbatch : 0 < x.batch) (hheads : 0 < x.heads)
    (hmul : x.Multiplies least) (hv : x.Inside x.strideV v) (hnonneg : ∀ a, 0 ≤ v.getD a 0)
    (hm : m < x.seqLen) (hj : j < x.headDim)
    (hzero : ∀ key < x.seqLen, v.getD (x.strideV.addr 0 0 key j) 0 = 0) (nb n : Nat)
    (hnb : nb < cdiv x.seqLen x.blockN) (hn : n < x.blockN)
    (hsees : x.sees m (nb * x.blockN + n)) (hvalue : 0 < if nb * x.blockN + j < x.seqLen then
      v.getD (x.strideV.addr 0 0 (nb * x.blockN + j) n) 0 else 1) : ¬ FlashRight exp least x := by
  obtain ⟨-, -, hNM, hblock⟩ := blocks_pow x
  have hM : 0 < x.blockM := by omega
  have hS : 0 < x.seqLen := Nat.zero_lt_of_lt hm
  let zeros : Strides → List R := fun s => replicate (x.batch * s.batch + x.heads * s.head +
    x.seqLen * s.row + x.headDim) 0
  have hzeros : ∀ s, x.Inside s (zeros s) := fun s => inside_of_le (by rw [length_replicate])
  let other : FlashUndef R := ⟨fun _ _ => .fin 0, fun _ _ _ => .fin 0, fun _ _ _ => .fin 1⟩
  let written := x.writesOf exp (zeros x.strideQ) (zeros x.strideK) v other
  intro hright
  obtain ⟨writes, hrun, hperm⟩ := hright (zeros x.strideQ) (zeros x.strideK) v (hzeros _) (hzeros _)
    hv other _ (List.Perm.refl _)
  have hkernel : ∀ pid ∈ range (x.batch * x.heads * x.numMBlocks), flashKernel exp least x
      (zeros x.strideQ) (zeros x.strideK) v other pid = some (written pid) := fun pid hpid =>
    (flashKernel_yields hS (hzeros _) (hzeros _) hv (mem_range.1 hpid)).eq_some hmul
  rw [mapM_eq_map hkernel] at hrun
  cases hrun
  -- the program and the row of the tile
  have hpid : m / x.blockM < x.numMBlocks := Nat.div_lt_of_lt_mul
    (lt_of_lt_of_le hm (by rw [mul_comm]; exact (cdiv_mul_bounds _ hM).1))
  have hprogram : m / x.blockM < x.batch * x.heads * x.numMBlocks :=
    lt_of_lt_of_le hpid (Nat.le_mul_of_pos_left _ (mul_pos hbatch hheads))
  have hsplit : m / x.blockM * x.blockM + m % x.blockM = m := Nat.div_add_mod' m x.blockM
  have hmem : (x.strideO.addr 0 0 m j, x.outAt exp (zeros x.strideQ) (zeros x.strideK) v other
      (m / x.blockM) 0 0 m (m % x.blockM) j) ∈
        ((range (x.batch * x.heads * x.numMBlocks)).map written).flatten := by
    have hb : m / x.blockM / (x.heads * x.numMBlocks) = 0 :=
      Nat.div_eq_of_lt (lt_of_lt_of_le hpid (Nat.le_mul_of_pos_left _ hheads))
    have hh : m / x.blockM / x.numMBlocks % x.heads = 0 := by
      rw [Nat.div_eq_of_lt hpid, Nat.zero_mod]
    rw [mem_flatten]
    refine ⟨_, mem_map_of_mem (mem_range.2 hprogram), mem_flatMap.2
      ⟨m % x.blockM, mem_range.2 (Nat.mod_lt _ hM), ?_⟩⟩
    simp only [hb, hh, Nat.mod_eq_of_lt hpid, hsplit, decide_eq_true hm, if_true]
    exact mem_map_of_mem (mem_range.2 hj)
  rw [hperm.mem_iff] at hmem
  simp only [FlashArgs.flashAttentionCpu, mem_flatMap, mem_map, mem_range, Prod.mk.injEq] at hmem
  obtain ⟨b', hb', h', hh', m', hm', j', hj', haddr, hout⟩ := hmem
  have hsame := x.distinct _ hb' _ hh' _ hm' _ hj' _ hbatch _ hheads _ hm _ hj haddr
  simp only [Prod.mk.injEq] at hsame
  obtain ⟨rfl, rfl, rfl, rfl⟩ := hsame
  have hplain : x.attend exp (zeros x.strideQ) (zeros x.strideK) v 0 0 m' j' = 0 := by
    refine OnlineSoftmax.softmaxMean_zero fun e he => ?_
    obtain ⟨key, hkey, rfl⟩ := mem_map.1 he
    exact hzero key (mem_range.1 (mem_filter.1 hkey).1)
  rw [hplain, outAt_eq hadd hpos hS (fun nb _ n _ => scoreAt_eq
    (fun d hd => loaded_of_lt hm (hzeros _ 0 hbatch 0 hheads _ hm d hd))
    fun d hd => loaded_fin 0 fun hkey => hzeros _ 0 hbatch 0 hheads _ hkey d hd)
    fun nb _ n hn => loaded_fin 1 fun hkey => hv 0 hbatch 0 hheads _ hkey n (hmul.2 ▸ hn)] at hout
  refine absurd (ExactFloat.fin.inj hout) (ne_of_lt ?_)
  refine OnlineSoftmax.softmaxMean_pos hpos (fun e he => ?_)
    (mem_kept_grid.2 ⟨nb, hnb, n, hn, hsees, rfl⟩) hvalue
  obtain ⟨nb', -, n', -, -, rfl⟩ := mem_kept_grid.1 he
  dsimp only
  split
  · exact hnonneg _
  · exact zero_le_one

end Values

section Right

variable {R : Type} [Field R] [LinearOrder R] [IsStrictOrderedRing R] {exp : R → R} {least : Nat}
  {x : FlashArgs R}

/-- Where rows of V start further apart, column 1 of the exchanged tile reads row 1. -/
theorem not_flashRight_of_stride (hadd : ∀ a b, exp (a + b) = exp a * exp b)
    (hpos : ∀ a, 0 < exp a) (hbatch : 0 < x.batch) (hheads : 0 < x.heads)
    (hmul : x.Multiplies least) (hS : 1 < x.seqLen) (hrow : x.strideV.row ≠ 1) :
    ¬ FlashRight exp least x := by
  obtain ⟨-, -, -, hblock⟩ := blocks_pow x
  have hN : 1 < x.blockN :=
    lt_min (by decide) (lt_of_lt_of_le hS (Nat.le_pow_clog one_lt_two x.seqLen))
  have hdim : 1 < x.headDim := hmul.2 ▸ hN
  let v : List R := (range (x.batch * x.strideV.batch + x.heads * x.strideV.head +
    x.seqLen * x.strideV.row + x.headDim)).map fun a => if a = x.strideV.row then 1 else 0
  have hv : x.Inside x.strideV v := inside_of_le (by rw [length_map, length_range])
  have hget : ∀ key < x.seqLen, ∀ d < x.headDim, v.getD (x.strideV.addr 0 0 key d) 0 =
      if x.strideV.addr 0 0 key d = x.strideV.row then 1 else 0 := fun key hkey d hd =>
    getD_map_range _ (by simpa [v] using hv 0 hbatch 0 hheads key hkey d hd) _
  refine not_flashRight hadd hpos hbatch hheads hmul hv (fun a => ?_) (Nat.zero_lt_of_lt hS) hdim
    (fun key hkey => ?_) 0 0 (Nat.div_pos (by omega) hblock) hblock (by simp [FlashArgs.sees]) ?_
  · rw [getD_eq_getElem?_getD]
    cases hget' : v[a]? with
    | none => exact le_rfl
    | some =>
      obtain ⟨a', -, rfl⟩ := mem_map.1 (mem_of_getElem? hget')
      dsimp only [Option.getD_some]
      split
      · exact zero_le_one
      · exact le_rfl
  · rw [hget key hkey 1 hdim, if_neg]
    rw [Strides.addr]
    rcases Nat.eq_zero_or_pos key with rfl | hkey
    · omega
    · have hle := Nat.le_mul_of_pos_left x.strideV.row hkey
      omega
  · rw [if_pos (by omega), hget _ (by omega) 0 (by omega), if_pos (by simp [Strides.addr])]
    exact one_pos

theorem not_flashRight_of_cut (hadd : ∀ a b, exp (a + b) = exp a * exp b)
    (hpos : ∀ a, 0 < exp a) (hbatch : 0 < x.batch) (hheads : 0 < x.heads)
    (hmul : x.Multiplies least) (hS : 0 < x.seqLen) (hcut : ¬ x.blockN ∣ x.seqLen) :
    ¬ FlashRight exp least x := by
  obtain ⟨-, -, -, hblock⟩ := blocks_pow x
  obtain ⟨hle, hlt⟩ := cdiv_mul_bounds x.seqLen hblock
  obtain ⟨T, hT⟩ := Nat.exists_eq_succ_of_ne_zero
    (show cdiv x.seqLen x.blockN ≠ 0 from (Nat.div_pos (by omega) hblock).ne')
  have hne : cdiv x.seqLen x.blockN * x.blockN ≠ x.seqLen := fun heq =>
    hcut ⟨_, by rw [mul_comm]; exact heq.symm⟩
  rw [hT, Nat.succ_mul] at hle hlt hne
  have hzero : ∀ (l a : Nat), (replicate l (0 : R)).getD a 0 = 0 := fun l a => by
    rw [getD_eq_getElem?_getD, getElem?_replicate]
    split <;> rfl
  have hdim := hmul.2
  refine not_flashRight hadd hpos hbatch hheads hmul
    (inside_of_le (length_replicate ..).ge) (fun a => (hzero _ a).ge)
    (show x.seqLen - 1 < x.seqLen by omega) (show x.blockN - 1 < x.headDim by omega)
    (fun key _ => hzero _ _) T 0 (hT ▸ T.lt_succ_self) hblock ?_ ?_
  · simp only [FlashArgs.sees, add_zero, Bool.or_eq_true, decide_eq_true_eq]
    exact .inr (by omega)
  · rw [if_neg (by omega)]
    exact one_pos

omit [IsStrictOrderedRing R] in
theorem not_flashRight_of_shapes (hgrid : x.batch * x.heads ≠ 0) (hS : 0 < x.seqLen)
    (hmul : ¬ x.Multiplies least) : ¬ FlashRight exp least x := by
  intro hright
  obtain ⟨-, -, hNM, hblock⟩ := blocks_pow x
  have hinside : ∀ s : Strides, x.Inside s (replicate (x.batch * s.batch + x.heads * s.head +
      x.seqLen * s.row + x.headDim) (0 : R)) := fun s => inside_of_le (length_replicate ..).ge
  obtain ⟨writes, hrun, -⟩ := hright _ _ _ (hinside _) (hinside _) (hinside _)
    ⟨fun _ _ => .nan, fun _ _ _ => .nan, fun _ _ _ => .nan⟩ _ (List.Perm.refl _)
  have hpid : 0 < x.batch * x.heads * x.numMBlocks :=
    mul_pos (Nat.pos_of_ne_zero hgrid) (Nat.div_pos (by omega) (by omega))
  rw [mapM_eq_none (mem_range.2 hpid)
    ((flashKernel_yields hS (hinside _) (hinside _) (hinside _) hpid).2 hmul)] at hrun
  cases hrun

/-- For whole square tiles, and one row of V or rows that start one element apart. -/
theorem flashRight_iff (hadd : ∀ a b, exp (a + b) = exp a * exp b) (hpos : ∀ a, 0 < exp a)
    (least : Nat) (x : FlashArgs R) (hS : 0 < x.seqLen) :
    FlashRight exp least x ↔ x.batch * x.heads = 0 ∨
      (least ≤ x.headDim ∧ x.headDim = x.blockN) ∧ x.blockN ∣ x.seqLen ∧
        (x.seqLen = 1 ∨ x.strideV.row = 1) := by
  constructor
  · intro hright
    by_contra hnot
    obtain ⟨hgrid, hnot⟩ := not_or.1 hnot
    have hbatch : 0 < x.batch := Nat.pos_of_ne_zero fun hzero => hgrid (by rw [hzero, zero_mul])
    have hheads : 0 < x.heads := Nat.pos_of_ne_zero fun hzero => hgrid (by rw [hzero, mul_zero])
    by_cases hmul : x.Multiplies least
    · by_cases hdvd : x.blockN ∣ x.seqLen
      · have hstride : x.seqLen ≠ 1 ∧ x.strideV.row ≠ 1 := by
          rw [← not_or]
          exact fun hstride => hnot ⟨hmul, hdvd, hstride⟩
        exact not_flashRight_of_stride hadd hpos hbatch hheads hmul (by omega) hstride.2 hright
      · exact not_flashRight_of_cut hadd hpos hbatch hheads hmul hS hdvd hright
    · exact not_flashRight_of_shapes hgrid hS hmul hright
  · intro hcond q k v hq hk hv undef order horder
    have hwrites : (range (x.batch * x.heads * x.numMBlocks)).flatMap
        (x.writesOf exp q k v undef) = x.flashAttentionCpu exp q k v ∧
          ∀ pid < x.batch * x.heads * x.numMBlocks, flashKernel exp least x q k v undef pid =
            some (x.writesOf exp q k v undef pid) := by
      rcases hcond with hgrid | ⟨hmul, hdvd, hstride⟩
      · refine ⟨?_, fun pid hpid => by simp [hgrid] at hpid⟩
        rw [hgrid, zero_mul]
        rcases Nat.mul_eq_zero.1 hgrid with hzero | hzero <;>
          simp [FlashArgs.flashAttentionCpu, hzero]
      · refine ⟨flatMap_writesOf hS fun pid i b hb h hh m hm j hj => outAt_eq_attend hadd hpos hS
          hmul.2 hdvd hstride hq hk hv hb hh hm hj, fun pid hpid => ?_⟩
        exact (flashKernel_yields hS hq hk hv hpid).eq_some hmul
    refine ⟨_, mapM_eq_map fun pid hpid => hwrites.2 pid ?_, ?_⟩
    · exact mem_range.1 (horder.mem_iff.1 hpid)
    · rw [← hwrites.1, ← flatMap_def]
      exact horder.flatMap_right _

noncomputable def flashTwo (row : Nat) : FlashArgs ℝ where
  batch := 1
  heads := 1
  seqLen := 2
  headDim := 2
  strideQ := ⟨4, 4, 2⟩
  strideK := ⟨4, 4, 2⟩
  strideV := ⟨4, 4, row⟩
  strideO := ⟨4, 4, 2⟩
  scale := 1
  causal := true
  distinct := by
    intro b hb h hh m hm d hd b' hb' h' hh' m' hm' d' hd' heq
    simp only [Strides.addr, Prod.mk.injEq] at heq ⊢
    omega

/-- Of overlapping rows the exchanged tile is the tile. -/
theorem flashRight_iff_overlap : FlashRight Real.exp 1 (flashTwo 1) :=
  (flashRight_iff Real.exp_add Real.exp_pos 1 (flashTwo 1) Nat.two_pos).2
    (.inr ⟨⟨one_le_two, by decide⟩, by decide, .inr rfl⟩)

/-- The rows of a new tensor come exchanged. -/
theorem flashTwo_not_right : ¬ FlashRight Real.exp 1 (flashTwo 2) :=
  not_flashRight_of_stride Real.exp_add Real.exp_pos one_pos one_pos
    ⟨one_le_two, by decide⟩ one_lt_two (by decide)

end Right

end CompileForge.Kernels
