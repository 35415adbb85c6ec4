/-
  Readers of a flat input that keep a cursor, and the formats they read.
-/

import CompileForge.Lib.Outcome
import CompileForge.Lib.Slice
import Mathlib.Data.Nat.Digits.Lemmas

namespace CompileForge.Lib

open List

variable {α β γ ε σ : Type}

/-- The input has these symbols behind the cursor. -/
def Spells (data : List β) (pos : Nat) (w : List β) : Prop := w <+: data.drop pos

section Spells

variable {data x y w : List β} {pos : Nat}

@[simp] theorem spells_nil : Spells data pos [] := List.nil_prefix

theorem spells_append :
    Spells data pos (x ++ y) ↔ Spells data pos x ∧ Spells data (pos + x.length) y := by
  unfold Spells
  rw [← drop_drop]
  constructor
  · rintro ⟨rest, hrest⟩
    rw [← hrest, append_assoc]
    exact ⟨prefix_append _ _, by rw [drop_left]; exact prefix_append _ _⟩
  · rintro ⟨⟨rest, hrest⟩, hy⟩
    rw [← hrest, drop_left] at hy
    rw [← hrest]
    exact (prefix_append_right_inj x).2 hy

theorem spells_zero : Spells data 0 w ↔ ∃ rest, data = w ++ rest := by
  rw [Spells, drop_zero]
  exact ⟨fun ⟨rest, h⟩ => ⟨rest, h.symm⟩, fun ⟨rest, h⟩ => ⟨rest, h.symm⟩⟩

theorem Spells.le (h : Spells data pos w) (hpos : pos ≤ data.length) :
    pos + w.length ≤ data.length := by
  have hle := h.length_le
  rw [length_drop] at hle
  omega

theorem Spells.eq_of_length (h : Spells data 0 w) (hlen : w.length = data.length) : w = data := by
  rw [Spells, drop_zero] at h
  exact h.eq_of_length hlen

theorem Spells.slice_eq (h : Spells data pos w) : slice data pos w.length = w :=
  (prefix_iff_eq_take.1 h).symm

theorem spells_slice (data : List β) (pos len : Nat) : Spells data pos (slice data pos len) :=
  take_prefix _ _

theorem spells_singleton {b : β} : Spells data pos [b] ↔ data[pos]? = some b := by
  rw [Spells, ← head?_drop]
  cases data.drop pos with
  | nil => simp
  | cons => simp [eq_comm]

end Spells

/-! ## Formats and readers -/

/-- The values that can be spelled and how. -/
structure Format (β α : Type) where
  valid : α → Prop
  spell : α → List β

/-- A value behind another. -/
def Format.pair (F : Format β α) (G : Format β γ) : Format β (α × γ) where
  valid p := F.valid p.1 ∧ G.valid p.2
  spell p := F.spell p.1 ++ G.spell p.2

/-- Values one behind the other. -/
def Format.many (F : Format β α) : Format β (List α) where
  valid l := ∀ a ∈ l, F.valid a
  spell l := l.flatMap F.spell

abbrev Reader (ε α : Type) := StateT Nat (Except ε) α

/-- Wherever the cursor is, the reader succeeds exactly if the input spells a valid value of the
    format there, with that value and the cursor behind it. -/
def Reads (data : List β) (p : Reader ε α) (F : Format β α) : Prop :=
  ∀ pos ≤ data.length, ∀ a pos', p pos = .ok (a, pos') ↔
    F.valid a ∧ Spells data pos (F.spell a) ∧ pos' = pos + (F.spell a).length

/-- `n` readings, whose results `add` collects. -/
def readMany (p : Reader ε α) (add : σ → α → σ) : Nat → σ → Reader ε σ
  | 0, acc => pure acc
  | n + 1, acc => do
    let a ← p
    readMany p add n (add acc a)

section Reads

variable {data : List β} {p : Reader ε α} {F : Format β α} {pos : Nat}

theorem bind_apply (p : Reader ε α) (f : α → Reader ε γ) (pos : Nat) :
    (p >>= f) pos = p pos >>= fun r => f r.1 r.2 := rfl

variable {r : γ × Nat} {e : ε} {add : σ → α → σ} {n : Nat} {acc : σ}

theorem bind_ok_iff {f : α → Reader ε γ} :
    (p >>= f) pos = .ok r ↔ ∃ a pos', p pos = .ok (a, pos') ∧ f a pos' = .ok r := by
  rw [bind_apply]
  constructor
  · intro h
    obtain ⟨⟨a, pos'⟩, ha, h⟩ := bind_eq_ok h
    exact ⟨a, pos', ha, h⟩
  · rintro ⟨a, pos', ha, h⟩
    rw [ha]
    exact h

theorem bind_error_iff {f : α → Reader ε γ} :
    (p >>= f) pos = .error e ↔
      p pos = .error e ∨ ∃ a pos', p pos = .ok (a, pos') ∧ f a pos' = .error e := by
  rw [bind_apply]
  cases hrun : p pos with
  | error =>
    constructor
    · intro h
      cases h
      exact .inl rfl
    · rintro (h | ⟨a, pos', h, -⟩)
      · cases h
        rfl
      · cases h
  | ok r =>
    constructor
    · exact fun h => .inr ⟨r.1, r.2, rfl, h⟩
    · rintro (h | ⟨a, pos', h, hf⟩)
      · cases h
      · cases h
        exact hf

section Bind

variable (hp : Reads data p F) (hpos : pos ≤ data.length)
include hp hpos

theorem Reads.exists_iff {Q : α → Nat → Prop} :
    (∃ a pos', p pos = .ok (a, pos') ∧ Q a pos') ↔
      ∃ a, (F.valid a ∧ Spells data pos (F.spell a)) ∧ Q a (pos + (F.spell a).length) := by
  constructor
  · rintro ⟨a, pos', ha, h⟩
    obtain ⟨hvalid, hspells, rfl⟩ := (hp pos hpos a pos').1 ha
    exact ⟨a, ⟨hvalid, hspells⟩, h⟩
  · rintro ⟨a, ⟨hvalid, hspells⟩, h⟩
    exact ⟨a, _, (hp pos hpos a _).2 ⟨hvalid, hspells, rfl⟩, h⟩

theorem Reads.bind_ok {f : α → Reader ε γ} :
    (p >>= f) pos = .ok r ↔
      ∃ a, (F.valid a ∧ Spells data pos (F.spell a)) ∧ f a (pos + (F.spell a).length) = .ok r := by
  rw [bind_ok_iff]
  exact hp.exists_iff hpos

theorem Reads.bind_error {f : α → Reader ε γ} :
    (p >>= f) pos = .error e ↔ p pos = .error e ∨ ∃ a, (F.valid a ∧ Spells data pos (F.spell a)) ∧
        f a (pos + (F.spell a).length) = .error e := by
  rw [bind_error_iff]
  exact or_congr_right (hp.exists_iff hpos)

end Bind

theorem Reads.pair {G : Format β γ} {q : Reader ε γ} (hp : Reads data p F) (hq : Reads data q G) :
    Reads data (do let a ← p; let b ← q; return (a, b)) (F.pair G) := by
  intro pos hpos r pos'
  rw [hp.bind_ok hpos]
  constructor
  · rintro ⟨a, ⟨ha, hsa⟩, h⟩
    obtain ⟨b, ⟨hb, hsb⟩, h⟩ := (hq.bind_ok (hsa.le hpos)).1 h
    cases h
    exact ⟨⟨ha, hb⟩, spells_append.2 ⟨hsa, hsb⟩, by
      rw [Format.pair, length_append, add_assoc]⟩
  · rintro ⟨⟨ha, hb⟩, hs, rfl⟩
    obtain ⟨hsa, hsb⟩ := spells_append.1 hs
    refine ⟨r.1, ⟨ha, hsa⟩, (hq.bind_ok (hsa.le hpos)).2 ⟨r.2, ⟨hb, hsb⟩, ?_⟩⟩
    rw [Format.pair, length_append, ← add_assoc]
    rfl

theorem Reads.counted {N : Format β γ} {count : Reader ε γ} {q : γ → Reader ε α} {len : α → γ}
    {V : α → Prop} {S : α → List β} (hcount : Reads data count N)
    (hq : ∀ n, N.valid n → ∀ pos ≤ data.length, ∀ a pos', q n pos = .ok (a, pos') ↔
      (len a = n ∧ V a) ∧ Spells data pos (S a) ∧ pos' = pos + (S a).length)
    (hpos : pos ≤ data.length) (a : α) (pos' : Nat) : (count >>= q) pos = .ok (a, pos') ↔
      (N.valid (len a) ∧ V a) ∧ Spells data pos (N.spell (len a) ++ S a) ∧
        pos' = pos + (N.spell (len a) ++ S a).length := by
  rw [hcount.bind_ok hpos, spells_append, length_append, ← add_assoc]
  constructor
  · rintro ⟨n, ⟨hn, hspells⟩, h⟩
    obtain ⟨⟨rfl, ha⟩, hbody, rfl⟩ := (hq n hn _ (hspells.le hpos) a pos').1 h
    exact ⟨⟨hn, ha⟩, ⟨hspells, hbody⟩, rfl⟩
  · rintro ⟨⟨hn, ha⟩, ⟨hspells, hbody⟩, rfl⟩
    exact ⟨_, ⟨hn, hspells⟩, (hq _ hn _ (hspells.le hpos) a _).2 ⟨⟨rfl, ha⟩, hbody, rfl⟩⟩

@[simp] theorem length_spell_many (a : α) (l : List α) :
    (F.many.spell (a :: l)).length = (F.spell a).length + (F.many.spell l).length := by
  show ((a :: l).flatMap F.spell).length = _
  rw [flatMap_cons, length_append]
  rfl

theorem Reads.many_ok (hp : Reads data p F)
    (hpos : pos ≤ data.length) {r : σ × Nat} : readMany p add n acc pos = .ok r ↔
      ∃ l : List α, l.length = n ∧ (F.many.valid l ∧ Spells data pos (F.many.spell l)) ∧
        r = (l.foldl add acc, pos + (F.many.spell l).length) := by
  -- on the count: the values behind the first are read by the rest of the loop
  induction n generalizing acc pos with
  | zero =>
    constructor
    · intro h
      exact ⟨[], rfl, ⟨nofun, spells_nil⟩, (Except.ok.inj h).symm⟩
    · rintro ⟨l, hl, -, rfl⟩
      obtain rfl := eq_nil_of_length_eq_zero hl
      rfl
  | succ n ih =>
    rw [readMany, hp.bind_ok hpos]
    constructor
    · rintro ⟨a, ⟨ha, hsa⟩, h⟩
      obtain ⟨l, rfl, ⟨hl, hsl⟩, rfl⟩ := (ih (hsa.le hpos)).1 h
      exact ⟨a :: l, rfl, ⟨forall_mem_cons.2 ⟨ha, hl⟩, spells_append.2 ⟨hsa, hsl⟩⟩, by
        rw [foldl_cons, length_spell_many, add_assoc]⟩
    · rintro ⟨l, hl, ⟨hvalid, hs⟩, rfl⟩
      obtain ⟨a, l, rfl⟩ := exists_cons_of_length_eq_add_one hl
      obtain ⟨ha, hrest⟩ := forall_mem_cons.1 hvalid
      obtain ⟨hsa, hsl⟩ := spells_append.1 hs
      refine ⟨a, ⟨ha, hsa⟩, (ih (hsa.le hpos)).2 ⟨l, Nat.succ.inj hl, ⟨hrest, hsl⟩, ?_⟩⟩
      rw [foldl_cons, length_spell_many, add_assoc]

theorem Reads.many_error (hp : Reads data p F)
    (hpos : pos ≤ data.length) : readMany p add n acc pos = .error e ↔
      ∃ l : List α, l.length < n ∧ (F.many.valid l ∧ Spells data pos (F.many.spell l)) ∧
        p (pos + (F.many.spell l).length) = .error e := by
  induction n generalizing acc pos with
  | zero => exact ⟨nofun, fun ⟨l, hl, _⟩ => absurd hl (Nat.not_lt_zero _)⟩
  | succ n ih =>
    -- the first reading fails, or a later one behind the values before it
    rw [readMany, hp.bind_error hpos]
    constructor
    · rintro (h | ⟨a, ⟨ha, hsa⟩, h⟩)
      · exact ⟨[], Nat.succ_pos n, ⟨nofun, spells_nil⟩, h⟩
      · obtain ⟨l, hl, ⟨hvalid, hsl⟩, h⟩ := (ih (hsa.le hpos)).1 h
        refine ⟨a :: l, Nat.succ_lt_succ hl,
          ⟨forall_mem_cons.2 ⟨ha, hvalid⟩, spells_append.2 ⟨hsa, hsl⟩⟩, ?_⟩
        rw [length_spell_many, ← add_assoc]
        exact h
    · rintro ⟨l, hl, ⟨hvalid, hs⟩, h⟩
      cases l with
      | nil => exact .inl h
      | cons a l =>
        obtain ⟨ha, hrest⟩ := forall_mem_cons.1 hvalid
        obtain ⟨hsa, hsl⟩ := spells_append.1 hs
        refine .inr ⟨a, ⟨ha, hsa⟩, (ih (hsa.le hpos)).2
          ⟨l, Nat.lt_of_succ_lt_succ hl, ⟨hrest, hsl⟩, ?_⟩⟩
        rw [length_spell_many, ← add_assoc] at h
        exact h

end Reads

/-! ## Writers -/

/-- `f` writes the valid values of a format as they are spelled, and no others. -/
def Writes (f : α → Option (List β)) (F : Format β α) : Prop :=
  ∀ a w, f a = some w ↔ F.valid a ∧ w = F.spell a

section Writes

variable {f : α → Option (List β)} {F : Format β α}

theorem Writes.pair {g : γ → Option (List β)} {G : Format β γ} (hf : Writes f F) (hg : Writes g G) :
    Writes (fun p : α × γ => do let x ← f p.1; let y ← g p.2; return x ++ y) (F.pair G) := by
  intro p w
  refine (bind_fits (hf p.1)).trans ?_
  rw [bind_fits (hg p.2), Option.pure_def, Option.some_inj, ← and_assoc, eq_comm]
  rfl

theorem Writes.many (hf : Writes f F) {l : List α} {ws : List (List β)} :
    l.mapM f = some ws ↔ F.many.valid l ∧ ws = l.map F.spell :=
  mapM_eq_some_iff hf

theorem flatten_map_spell (l : List α) : (l.map F.spell).flatten = F.many.spell l :=
  (flatMap_def ..).symm

end Writes

/-! ## Numbers -/

/-- The lowest `width` bytes of a number, lowest first. -/
def leBytes : Nat → Nat → List UInt8
  | 0, _ => []
  | width + 1, n => UInt8.ofNat n :: leBytes width (n / 256)

@[simp] theorem length_leBytes (width n : Nat) : (leBytes width n).length = width := by
  induction width generalizing n with
  | zero => rfl
  | succ width ih => rw [leBytes, length_cons, ih]

theorem ofDigits_leBytes {width n : Nat} (h : n < 256 ^ width) :
    Nat.ofDigits 256 ((leBytes width n).map UInt8.toNat) = n := by
  induction width generalizing n with
  | zero =>
    rw [Nat.pow_zero, Nat.lt_one_iff] at h
    rw [h]
    rfl
  | succ width ih =>
    have hrest : n / 256 < 256 ^ width := Nat.div_lt_of_lt_mul (by rwa [Nat.pow_succ'] at h)
    rw [leBytes, map_cons, Nat.ofDigits_cons, ih hrest, UInt8.toNat_ofNat']
    exact Nat.mod_add_div n 256

theorem leBytes_ofDigits (w : List UInt8) :
    leBytes w.length (Nat.ofDigits 256 (w.map UInt8.toNat)) = w := by
  induction w with
  | nil => rfl
  | cons b w ih =>
    have hb := b.toNat_lt
    rw [map_cons, Nat.ofDigits_cons, length_cons, leBytes,
      Nat.add_mul_div_left _ _ (by norm_num), Nat.div_eq_of_lt (by simpa using hb), zero_add,
      ih]
    congr 1
    apply UInt8.toNat.inj
    rw [UInt8.toNat_ofNat', Nat.add_mul_mod_self_left, Nat.mod_eq_of_lt (by simpa using hb)]

/-- Little-endian numbers of a fixed width. -/
def numberFormat (width : Nat) : Format UInt8 Nat where
  valid n := n < 256 ^ width
  spell := leBytes width

/-! ## Text -/

def utf8 (s : String) : List UInt8 := s.toUTF8.data.toList

def fromUtf8 (w : List UInt8) : Option String := String.fromUTF8? ⟨w.toArray⟩

theorem fromUtf8_eq_some {w : List UInt8} {s : String} : fromUtf8 w = some s ↔ utf8 s = w := by
  unfold fromUtf8 String.fromUTF8?
  constructor
  · intro h
    split at h
    · cases h
      rfl
    · cases h
  · rintro rfl
    have hs : (⟨(utf8 s).toArray⟩ : ByteArray) = s.toByteArray := rfl
    rw [hs, dif_pos s.isValidUTF8]
    rfl

end CompileForge.Lib
