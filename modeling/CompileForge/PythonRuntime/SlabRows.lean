/-
  The rows of one request in the slab.
-/

import CompileForge.PythonRuntime.GreedyDecode

namespace CompileForge.PythonRuntime

open Lib CompileForge.Runtime List

variable {Row Logits : Type} {blockSize : Nat} {table : List Nat} {slab : Slab Row}
  {rows : List Row}

/-- The slab holds the row of a position where the block table places it. -/
def RowAt (blockSize : Nat) (table : List Nat) (slab : Slab Row) (rows : List Row) (p : Nat) :
    Prop :=
  ∃ b, table[p / blockSize]? = some b ∧ rows[p]? = some (slab b (p % blockSize))

instance [DecidableEq Row] (p : Nat) : Decidable (RowAt blockSize table slab rows p) :=
  inferInstanceAs (Decidable (∃ b ∈ table[p / blockSize]?, _))

theorem RowAt.of_rows {rows' : List Row} {p : Nat} (h : RowAt blockSize table slab rows p)
    (hrows : rows <+: rows') : RowAt blockSize table slab rows' p := by
  obtain ⟨b, hb, hrow⟩ := h
  refine ⟨b, hb, ?_⟩
  obtain ⟨rest, rfl⟩ := hrows
  rw [getElem?_append_left (List.getElem?_eq_some_iff.1 hrow).1]
  exact hrow

variable {table' : List Nat} {slab' : Slab Row} {c : Nat}

theorem RowAt.extend {p : Nat} (h : RowAt blockSize table slab rows p)
    (htable : table <+: table') : RowAt blockSize table' slab rows p := by
  obtain ⟨b, hb, hrow⟩ := h
  obtain ⟨more, rfl⟩ := htable
  refine ⟨b, ?_, hrow⟩
  rw [getElem?_append_left (List.getElem?_eq_some_iff.1 hb).1]
  exact hb

theorem RowAt.restrict {p : Nat} (h : RowAt blockSize table' slab rows p)
    (htable : table <+: table') (hp : p / blockSize < table.length) :
    RowAt blockSize table slab rows p := by
  obtain ⟨b, hb, hrow⟩ := h
  obtain ⟨more, rfl⟩ := htable
  rw [getElem?_append_left hp] at hb
  exact ⟨b, hb, hrow⟩

theorem RowAt.congr {p : Nat} (h : RowAt blockSize table slab rows p)
    (hslab : ∀ b ∈ table, slab' b = slab b) : RowAt blockSize table slab' rows p := by
  obtain ⟨b, hb, hrow⟩ := h
  refine ⟨b, hb, ?_⟩
  rw [hslab b (mem_of_getElem? hb)]
  exact hrow

theorem readPaged_eq_take [Zero Row] (h : ∀ p < c, RowAt blockSize table slab rows p) :
    readPaged blockSize table slab c = rows.take c := by
  refine ext_getElem? fun p => ?_
  rw [readPaged, getElem?_map]
  rcases lt_or_ge p c with hp | hp
  · obtain ⟨b, hb, hrow⟩ := h p hp
    rw [getElem?_range hp, getElem?_take_of_lt hp, hrow]
    simp only [Option.map_some, hb]
  · rw [getElem?_eq_none (by simpa using hp), getElem?_eq_none
      (le_trans (length_take_le c rows) hp)]
    rfl

/-! ## Writing -/

theorem index_unique {l : List Nat} {b i j : Nat} (hcount : l.count b ≤ 1) (hi : l[i]? = some b)
    (hj : l[j]? = some b) : i = j := by
  induction l generalizing i j with
  | nil => simp at hi
  | cons a l ih =>
    have hmem : ∀ {k : Nat}, l[k]? = some b → 0 < l.count b := fun hk =>
      count_pos_iff.2 (mem_of_getElem? hk)
    rw [count_cons] at hcount
    cases i with
    | zero =>
      cases j with
      | zero => rfl
      | succ =>
        rw [getElem?_cons_zero, Option.some.injEq] at hi
        rw [if_pos (beq_iff_eq.2 hi)] at hcount
        have := hmem hj
        omega
    | succ =>
      cases j with
      | zero =>
        rw [getElem?_cons_zero, Option.some.injEq] at hj
        rw [if_pos (beq_iff_eq.2 hj)] at hcount
        have := hmem hi
        omega
      | succ => exact congrArg Nat.succ (ih (by omega) hi hj)

/-- A position that may be written: its block is this table's alone, or holds the row already. -/
def Writable (alone : Nat → Prop) (blockSize : Nat) (table : List Nat) (slab : Slab Row)
    (rows : List Row) (p : Nat) : Prop :=
  ∃ b, table[p / blockSize]? = some b ∧ (alone b ∨ rows[p]? = some (slab b (p % blockSize)))

theorem Writable.congr {alone alone' : Nat → Prop} {p : Nat}
    (h : Writable alone blockSize table slab rows p)
    (hsame : ∀ b ∈ table, slab' b = slab b ∧ (alone b → alone' b)) :
    Writable alone' blockSize table slab' rows p := by
  obtain ⟨b, hb, hfree⟩ := h
  obtain ⟨hslab, halone⟩ := hsame b (mem_of_getElem? hb)
  exact ⟨b, hb, hfree.imp halone fun hrow => by rwa [hslab]⟩

/-- Two slabs that differ in blocks the table has alone at most. -/
def AgreeOutside (alone : Nat → Prop) (table : List Nat) (slab slab' : Slab Row) : Prop :=
  ∀ b, ¬ (alone b ∧ b ∈ table) → slab' b = slab b

variable {alone : Nat → Prop} {p q : Nat}

theorem AgreeOutside.trans {slab'' : Slab Row} (h : AgreeOutside alone table slab slab')
    (h' : AgreeOutside alone table slab' slab'') : AgreeOutside alone table slab slab'' :=
  fun b hb => (h' b hb).trans (h b hb)

section Write

variable {row : Row} {b : Nat}

theorem write_same {o : Nat} (h : row = slab b o) : slab.write b o row = slab := by
  funext b' o'
  rw [Slab.write]
  split
  case isTrue hslot => rw [hslot.1, hslot.2, h]
  case isFalse => rfl

theorem write_self {o : Nat} : slab.write b o row b o = row := if_pos ⟨rfl, rfl⟩

theorem write_of_ne {o b' o' : Nat} (h : b' ≠ b ∨ o' ≠ o) :
    slab.write b o row b' o' = slab b' o' :=
  if_neg fun hslot => h.elim (fun hb => hb hslot.1) fun ho => ho hslot.2

theorem slot_ne (hcount : table.count b ≤ 1) (hb : table[p / blockSize]? = some b) {b' : Nat}
    (hb' : table[q / blockSize]? = some b') (hne : q ≠ p) :
    b' ≠ b ∨ q % blockSize ≠ p % blockSize := by
  by_contra hsame
  rw [not_or, not_not, not_not] at hsame
  obtain ⟨rfl, hoffset⟩ := hsame
  have hindex := index_unique hcount hb' hb
  apply hne
  rw [← Nat.div_add_mod q blockSize, ← Nat.div_add_mod p blockSize, hindex, hoffset]

end Write

/-- One write: the position is filled, other positions keep their rows. -/
theorem writeRowAt_spec (hcount : ∀ b, alone b → table.count b ≤ 1)
    (hp : Writable alone blockSize table slab rows p) {row : Row} (hrow : rows[p]? = some row) :
    RowAt blockSize table (writeRowAt blockSize table slab p row) rows p ∧
      (∀ q b, table[q / blockSize]? = some b → q ≠ p →
        writeRowAt blockSize table slab p row b (q % blockSize) = slab b (q % blockSize)) ∧
      AgreeOutside alone table slab (writeRowAt blockSize table slab p row) := by
  obtain ⟨b, hb, halone⟩ := hp
  simp only [writeRowAt, hb]
  refine ⟨⟨b, hb, by rw [write_self, hrow]⟩, ?_⟩
  by_cases hsame : row = slab b (p % blockSize)
  · rw [write_same hsame]
    exact ⟨fun _ _ _ _ => rfl, fun _ _ => rfl⟩
  · have hb' : alone b := by
      refine halone.resolve_right fun heq => hsame ?_
      exact Option.some.inj (hrow.symm.trans heq)
    refine ⟨fun q b' hq hne => write_of_ne (slot_ne (hcount b hb') hb hq hne), fun b' hout => ?_⟩
    funext o
    refine write_of_ne (.inl ?_)
    rintro rfl
    exact hout ⟨hb', mem_of_getElem? hb⟩

theorem fill_spec (hcount : ∀ b, alone b → table.count b ≤ 1) {n : Nat}
    (hlen : c + n = rows.length) (hold : ∀ p < c, RowAt blockSize table slab rows p)
    (hnew : ∀ p, c ≤ p → p < rows.length → Writable alone blockSize table slab rows p) :
    (∀ p < rows.length, RowAt blockSize table (((range' c n).zip (rows.drop c)).foldl
        (fun slab w => writeRowAt blockSize table slab w.1 w.2) slab) rows p) ∧
      AgreeOutside alone table slab (((range' c n).zip (rows.drop c)).foldl
        (fun slab w => writeRowAt blockSize table slab w.1 w.2) slab) := by
  induction n generalizing c slab with
  | zero =>
    have hc : c = rows.length := hlen
    exact ⟨fun p hp => hold p (hc ▸ hp), fun _ _ => rfl⟩
  | succ n ih =>
    have hc : c < rows.length := by omega
    obtain ⟨hfilled, hkept, hagree⟩ := writeRowAt_spec hcount (hnew c le_rfl hc)
      (getElem?_eq_getElem hc)
    have hmore : c + 1 + n = rows.length := by omega
    have hstep := @ih (writeRowAt blockSize table slab c rows[c]) (c + 1) hmore
      (fun p hp => ?_) (fun p hle hp => ?_)
    · rw [range'_succ, drop_eq_getElem_cons hc, zip_cons_cons, foldl_cons]
      exact ⟨hstep.1, hagree.trans hstep.2⟩
    · rcases Nat.lt_succ_iff_lt_or_eq.1 hp with hlt | rfl
      · obtain ⟨b, hb, hrow⟩ := hold p hlt
        exact ⟨b, hb, by rw [hkept p b hb (ne_of_lt hlt), hrow]⟩
      · exact hfilled
    · obtain ⟨b, hb, hb'⟩ := hnew p (Nat.le_of_succ_le hle) hp
      exact ⟨b, hb, by rwa [hkept p b hb (ne_of_gt hle)]⟩

theorem writePaged_zip (positions : List UInt32) (rows : List Row) :
    writePaged blockSize table slab (positions.zip rows) =
      ((positions.map UInt32.toNat).zip rows).foldl
        (fun slab w => writeRowAt blockSize table slab w.1 w.2) slab := by
  induction positions generalizing rows slab with
  | nil => rfl
  | cons pos positions ih =>
    cases rows with
    | nil => rfl
    | cons row rows => exact ih rows

/-- The request is fed the end of its sequence: all of it, or its last token alone. -/
structure FeedsEnd (sr : ScheduledRequest) (fed : List (UInt32 × UInt32)) (c : Nat) : Prop where
  lt : c < fed.length
  fed_eq : sr.inputIds.zip sr.positions = fed.drop c
  positions_eq : sr.positions.map UInt32.toNat = range' c (fed.length - c)
  decode : (sr.nTokens = 1 ∧ c + 1 = fed.length) ∨ (sr.nTokens ≠ 1 ∧ c = 0)

/-- With the rows before it in place, the pass emits the logits and puts its own rows in place. -/
theorem forward_spec [Zero Row] {ex : Executor Row Logits} {sr : ScheduledRequest}
    {fed : List (UInt32 × UInt32)} (hkv : ex.usesCacheManager = true)
    (hfeeds : FeedsEnd sr fed c) (hcount : ∀ b, alone b → sr.blockTable.count b ≤ 1)
    (hold : ∀ p < c, RowAt ex.blockSize sr.blockTable slab (ex.model.rows fed) p)
    (hnew : ∀ p, c ≤ p → p < fed.length →
      Writable alone ex.blockSize sr.blockTable slab (ex.model.rows fed) p) :
    (ex.forward slab sr).1 = (ex.model.forward [] fed).2.getLast? ∧
      (∀ p < fed.length, RowAt ex.blockSize sr.blockTable (ex.forward slab sr).2
        (ex.model.rows fed) p) ∧
      AgreeOutside alone sr.blockTable slab (ex.forward slab sr).2 := by
  have hlen : (ex.model.rows fed).length = fed.length := ex.model.length_rows fed
  have hcached : (if sr.nTokens = 1 then
      readPaged ex.blockSize sr.blockTable slab ((sr.positions.getLast?.map UInt32.toNat).getD 0)
      else []) = (ex.model.rows fed).take c := by
    rcases hfeeds.decode with ⟨hone, hlast⟩ | ⟨hmany, rfl⟩
    · have hpos : (sr.positions.getLast?.map UInt32.toNat).getD 0 = c := by
        rw [← getLast?_map, hfeeds.positions_eq, ← hlast, Nat.add_sub_cancel_left]
        rfl
      rw [if_pos hone, hpos]
      exact readPaged_eq_take hold
    · rw [if_neg hmany, take_zero]
  have htake : ((ex.model.rows fed).take c).length = c := by
    rw [length_take, hlen, min_eq_left hfeeds.lt.le]
  have hforward : ex.forward slab sr = (((ex.model.forward [] fed).2.drop c).getLast?,
        ((range' c (fed.length - c)).zip ((ex.model.rows fed).drop c)).foldl
          (fun slab w => writeRowAt ex.blockSize sr.blockTable slab w.1 w.2) slab) := by
    rw [Executor.forward, if_pos hkv, hcached, hfeeds.fed_eq]
    dsimp only
    rw [ex.model.forward_resume hfeeds.lt.le, htake, writePaged_zip, hfeeds.positions_eq]
  have hlogits : ((ex.model.forward [] fed).2.drop c).getLast? =
      (ex.model.forward [] fed).2.getLast? := by
    rw [getLast?_drop, if_neg]
    rw [(ex.model.forward_rows [] fed).2.2]
    exact not_le.2 hfeeds.lt
  have hfill := fill_spec (n := fed.length - c) hcount
    (by rw [hlen]; have := hfeeds.lt; omega) hold fun p hle hp => hnew p hle (hlen ▸ hp)
  rw [hforward, ← hlen]
  exact ⟨hlogits, hlen ▸ hfill⟩

end CompileForge.PythonRuntime
