/-
  `RWKVStateManager` (`engine/rwkv_state_manager.py`): a pool of fixed-size states, the list
  of the slots nobody holds and the dictionary of the slots requests hold.
-/

import CompileForge.Lib.AssocTable
import CompileForge.Lib.Outcome
import CompileForge.Lib.Run
import Mathlib.Algebra.Ring.Int.Defs
import Mathlib.Data.List.FinRange

namespace CompileForge.PythonRuntime.Rwkv

open Lib List

/-! ## The manager -/

structure RWKVStateManager (maxRequests numLayers stateDim : Nat) (ν : Type) where
  statePool : Fin maxRequests → Fin numLayers → Fin stateDim → ν
  freeSlots : List (Fin maxRequests)
  activeSlots : AList (fun _ : String => Fin maxRequests)

inductive SlotOrId where
  | slot (i : Int)
  | id (requestId : String)
  deriving DecidableEq, Repr

/-- What the methods raise. -/
inductive StateError where
  | poolExhausted (maxRequests : Nat)
  | keyError (requestId : String)
  | indexError (i : Int)
  | shapeMismatch (length : Nat)
  deriving DecidableEq, Repr

variable {maxRequests numLayers stateDim : Nat} {ν : Type}

/-- A negative index counts from the end. -/
def tensorIndex (size : Nat) (i : Int) : Except StateError (Fin size) :=
  let j := if i < 0 then i + size else i
  if h : 0 ≤ j ∧ j.toNat < size then .ok ⟨j.toNat, h.2⟩ else .error (.indexError i)

namespace RWKVStateManager

def init [Zero ν] (maxRequests numLayers stateDim : Nat) :
    RWKVStateManager maxRequests numLayers stateDim ν where
  statePool := fun _ _ _ => 0
  freeSlots := finRange maxRequests
  activeSlots := ∅

/-- Under an id that is live this overwrites the id's entry, and the slot the entry named is then
    in neither of the two. -/
def allocate [Zero ν] (m : RWKVStateManager maxRequests numLayers stateDim ν) (requestId : String) :
    Except StateError (RWKVStateManager maxRequests numLayers stateDim ν × Fin maxRequests) :=
  match m.freeSlots.getLast? with
  | none => .error (.poolExhausted maxRequests)
  | some slot =>
    .ok ({ statePool := Function.update m.statePool slot fun _ _ => 0
           freeSlots := m.freeSlots.dropLast
           activeSlots := m.activeSlots.insert requestId slot }, slot)

variable (m : RWKVStateManager maxRequests numLayers stateDim ν)

def free (requestId : String) : RWKVStateManager maxRequests numLayers stateDim ν :=
  match m.activeSlots.lookup requestId with
  | none => m
  | some slot =>
    { m with
      freeSlots := m.freeSlots ++ [slot]
      activeSlots := m.activeSlots.erase requestId }

def slotOf :
    SlotOrId → Except StateError (Fin maxRequests)
  | .slot i => tensorIndex maxRequests i
  | .id requestId =>
    match m.activeSlots.lookup requestId with
    | some slot => .ok slot
    | none => .error (.keyError requestId)

/-- The value assigned to a row of the pool: a tensor of one element is broadcast. -/
def stateRow (newState : List ν) : Except StateError (Fin stateDim → ν) :=
  if h : newState.length = stateDim then .ok fun i => newState.get (i.cast h.symm)
  else if h : newState.length = 1 then .ok fun _ => newState.get ⟨0, h ▸ one_pos⟩
  else .error (.shapeMismatch newState.length)

variable (slotOrId : SlotOrId)

def updateState (layerIdx : Int) (newState : List ν) :
    Except StateError (RWKVStateManager maxRequests numLayers stateDim ν) := do
  let slot ← m.slotOf slotOrId
  let layer ← tensorIndex numLayers layerIdx
  let row ← stateRow newState
  return { m with
    statePool := Function.update m.statePool slot
      (Function.update (m.statePool slot) layer row) }

def getAllStates : Except StateError (Fin numLayers → Fin stateDim → ν) := do
  return m.statePool (← m.slotOf slotOrId)

def getState (layerIdx : Int) : Except StateError (Fin stateDim → ν) := do
  let slot ← m.slotOf slotOrId
  return m.statePool slot (← tensorIndex numLayers layerIdx)

def activeCount : Nat :=
  m.activeSlots.entries.length

def freeCount : Nat :=
  m.freeSlots.length

end RWKVStateManager

inductive Call (ν : Type) where
  | allocate (requestId : String)
  | free (requestId : String)
  | updateState (slotOrId : SlotOrId) (layerIdx : Int) (newState : List ν)

/-- The manager after a call.  A call that raises has changed nothing by then. -/
def RWKVStateManager.step [Zero ν] (m : RWKVStateManager maxRequests numLayers stateDim ν) :
    Call ν → RWKVStateManager maxRequests numLayers stateDim ν
  | .allocate requestId =>
    match m.allocate requestId with
    | .ok (m', _) => m'
    | .error _ => m
  | .free requestId => m.free requestId
  | .updateState slotOrId layerIdx newState =>
    match m.updateState slotOrId layerIdx newState with
    | .ok m' => m'
    | .error _ => m

section Conservation

variable [Zero ν] {m : RWKVStateManager maxRequests numLayers stateDim ν}

variable (m)

def RWKVStateManager.activeValues : List (Fin maxRequests) :=
  tableValues m.activeSlots

/-- The free slots together with the held ones are the slots of the pool, each once. -/
def Conserved : Prop :=
  (m.freeSlots ++ m.activeValues).Perm (finRange maxRequests)
deriving Decidable

variable {m}

variable (m)

/-- How many slots the list and the dictionary name, repetitions counted. -/
def RWKVStateManager.named : Nat :=
  m.freeCount + m.activeCount

/-- An `allocate` that takes a slot is for an id that is not live. -/
def Fresh : Call ν → Prop
  | .allocate requestId => m.freeSlots ≠ [] → m.activeSlots.lookup requestId = none
  | _ => True

variable {m}

omit [Zero ν] in
theorem Conserved.named_eq (h : Conserved m) : m.named = maxRequests := by
  have hlen := h.length_eq
  rw [length_append, length_finRange] at hlen
  have hvalues : m.activeValues.length = m.activeCount := length_tableValues
  rw [hvalues] at hlen
  exact hlen

theorem conserved_init :
    Conserved (RWKVStateManager.init maxRequests numLayers stateDim (ν := ν)) := by
  show (finRange maxRequests ++ tableValues ∅).Perm _
  rw [tableValues_empty, append_nil]

variable {requestId : String} {slot : Fin maxRequests}
  {m' : RWKVStateManager maxRequests numLayers stateDim ν} {calls : List (Call ν)}

theorem allocate_eq_ok :
    m.allocate requestId = .ok (m', slot) ↔ m.freeSlots.getLast? = some slot ∧
      m' = { statePool := Function.update m.statePool slot fun _ _ => 0
             freeSlots := m.freeSlots.dropLast
             activeSlots := m.activeSlots.insert requestId slot } := by
  rw [RWKVStateManager.allocate]
  cases hlast : m.freeSlots.getLast? with
  | none => exact iff_of_false (nofun) (fun h => by cases h.1)
  | some =>
    constructor
    · intro h
      cases h
      exact ⟨rfl, rfl⟩
    · rintro ⟨hslot, rfl⟩
      cases hslot
      rfl

omit [Zero ν] in
theorem updateState_slots {slotOrId : SlotOrId} {layerIdx : Int} {newState : List ν}
    (h : m.updateState slotOrId layerIdx newState = .ok m') :
    m'.freeSlots = m.freeSlots ∧ m'.activeSlots = m.activeSlots := by
  rw [RWKVStateManager.updateState] at h
  obtain ⟨slot, -, h⟩ := bind_eq_ok h
  obtain ⟨layer, -, h⟩ := bind_eq_ok h
  obtain ⟨row, -, h⟩ := bind_eq_ok h
  cases h
  exact ⟨rfl, rfl⟩

/-- A call does nothing, enters a free slot under an id, or puts an id's slot back. -/
theorem step_slots (c : Call ν) :
    (Fresh m c ∧ (m.step c).freeSlots = m.freeSlots ∧ (m.step c).activeSlots = m.activeSlots) ∨
    (∃ requestId slot, c = .allocate requestId ∧ m.freeSlots.getLast? = some slot ∧
      (m.step c).freeSlots = m.freeSlots.dropLast ∧
      (m.step c).activeSlots = m.activeSlots.insert requestId slot) ∨
    (∃ requestId slot, c = .free requestId ∧ m.activeSlots.lookup requestId = some slot ∧
      (m.step c).freeSlots = m.freeSlots ++ [slot] ∧
      (m.step c).activeSlots = m.activeSlots.erase requestId) := by
  cases c with
  | allocate requestId =>
    rw [RWKVStateManager.step, RWKVStateManager.allocate]
    cases hlast : m.freeSlots.getLast? with
    | none =>
      have hempty : m.freeSlots = [] := getLast?_eq_none_iff.1 hlast
      exact .inl ⟨fun hne => absurd hempty hne, rfl, rfl⟩
    | some slot => exact .inr (.inl ⟨requestId, slot, rfl, rfl, rfl, rfl⟩)
  | free requestId =>
    rw [RWKVStateManager.step, RWKVStateManager.free]
    cases hlive : m.activeSlots.lookup requestId with
    | none => exact .inl ⟨trivial, rfl, rfl⟩
    | some slot => exact .inr (.inr ⟨requestId, slot, rfl, hlive, rfl, rfl⟩)
  | updateState slotOrId layerIdx newState =>
    rw [RWKVStateManager.step]
    cases hupdate : m.updateState slotOrId layerIdx newState with
    | error => exact .inl ⟨trivial, rfl, rfl⟩
    | ok => exact .inl ⟨trivial, updateState_slots hupdate⟩

theorem named_step (c : Call ν) :
    (m.step c).named ≤ m.named ∧ (m.named ≤ (m.step c).named → Fresh m c) := by
  obtain ⟨hfresh, hfree, hactive⟩ | ⟨requestId, slot, rfl, hlast, hfree, hactive⟩ |
    ⟨requestId, slot, rfl, hlive, hfree, hactive⟩ := step_slots (m := m) c
  · rw [RWKVStateManager.named, RWKVStateManager.freeCount, RWKVStateManager.activeCount, hfree,
      hactive]
    exact ⟨Nat.le_refl _, fun _ => hfresh⟩
  · have hpop : m.freeSlots.dropLast.length + 1 = m.freeSlots.length := by
      rw [← dropLast_append_getLast? slot hlast, length_append, dropLast_concat]
      rfl
    rw [RWKVStateManager.named, RWKVStateManager.named, RWKVStateManager.freeCount,
      RWKVStateManager.freeCount, RWKVStateManager.activeCount, RWKVStateManager.activeCount,
      hfree, hactive, length_entries_insert]
    -- an id that was live loses the entry it had
    cases hlive : m.activeSlots.lookup requestId with
    | none =>
      have hsame := length_entries_erase_of_notMem hlive
      exact ⟨by omega, fun _ _ => hlive⟩
    | some =>
      have hless := length_entries_erase hlive
      exact ⟨by omega, fun hkept => absurd hkept (by omega)⟩
  · have hless := length_entries_erase hlive
    rw [RWKVStateManager.named, RWKVStateManager.named, RWKVStateManager.freeCount,
      RWKVStateManager.freeCount, RWKVStateManager.activeCount, RWKVStateManager.activeCount,
      hfree, hactive, length_append, length_singleton]
    exact ⟨by omega, fun _ => trivial⟩

theorem Conserved.step {c : Call ν} (h : Conserved m) (hfresh : Fresh m c) :
    Conserved (m.step c) := by
  obtain ⟨-, hfree, hactive⟩ | ⟨requestId, slot, rfl, hlast, hfree, hactive⟩ |
    ⟨requestId, slot, rfl, hlive, hfree, hactive⟩ := step_slots (m := m) c
  · rwa [Conserved, RWKVStateManager.activeValues, hfree, hactive]
  · have hne : m.freeSlots ≠ [] := by
      intro hempty
      rw [hempty] at hlast
      cases hlast
    have hsplit : m.freeSlots.dropLast ++ [slot] = m.freeSlots :=
      dropLast_append_getLast? slot hlast
    rw [Conserved, RWKVStateManager.activeValues, hfree, hactive, tableValues_insert,
      tableValues_erase_of_notMem (hfresh hne), append_cons, hsplit]
    exact h
  · rw [Conserved, RWKVStateManager.activeValues, hfree, hactive, append_assoc]
    exact ((tableValues_erase hlive).append_left _).trans h

/-! ## Sequences of calls -/

variable (m calls)

def RWKVStateManager.after : RWKVStateManager maxRequests numLayers stateDim ν :=
  calls.foldl RWKVStateManager.step m

/-- No call of the sequence allocates for an id that is live then. -/
def AllFresh : Prop :=
  Enabled Fresh RWKVStateManager.step m calls

variable {m calls}

theorem named_after (calls : List (Call ν)) : (m.after calls).named ≤ m.named := by
  induction calls generalizing m with
  | nil => exact Nat.le_refl _
  | cons c calls ih => exact (ih (m := m.step c)).trans (named_step c).1

theorem allFresh_of_named (h : m.named ≤ (m.after calls).named) :
    AllFresh m calls := by
  induction calls generalizing m with
  | nil => trivial
  | cons c calls ih =>
    have hrest : ((m.step c).after calls).named ≤ (m.step c).named := named_after calls
    exact ⟨(named_step c).2 (h.trans hrest), ih ((named_step c).1.trans h)⟩

theorem Conserved.after {pre : List (Call ν)} (h : Conserved m)
    (hfresh : AllFresh m calls) (hpre : pre <+: calls) : Conserved (m.after pre) := by
  induction calls generalizing m pre with
  | nil =>
    rw [prefix_nil.1 hpre]
    exact h
  | cons c calls ih =>
    rcases prefix_cons_iff.1 hpre with rfl | ⟨rest, rfl, hrest⟩
    · exact h
    · show Conserved ((m.step c).after rest)
      exact ih (h.step hfresh.1) hfresh.2 hrest

/-- Every slot is free or held, once, by one request, and reads as zeros when allocated. -/
structure PoolSound (m : RWKVStateManager maxRequests numLayers stateDim ν) : Prop where
  conserved : Conserved m
  apart : ∀ requestId requestId' slot, m.activeSlots.lookup requestId = some slot →
    m.activeSlots.lookup requestId' = some slot → requestId = requestId'
  zeroed : ∀ requestId m' slot, m.allocate requestId = .ok (m', slot) →
    m'.getAllStates (.id requestId) = .ok fun _ _ => 0

theorem allocate_zeroed (h : m.allocate requestId = .ok (m', slot)) :
    m'.getAllStates (.id requestId) = .ok fun _ _ => 0 := by
  obtain ⟨-, rfl⟩ := allocate_eq_ok.1 h
  rw [RWKVStateManager.getAllStates, RWKVStateManager.slotOf]
  simp only [AList.lookup_insert]
  show Except.ok (Function.update m.statePool slot (fun _ _ => 0) slot) = _
  rw [Function.update_self]

theorem Conserved.poolSound (h : Conserved m) : PoolSound m where
  conserved := h
  apart := by
    intro requestId requestId' slot hlive hlive'
    have hnodup := h.nodup_iff.2 (nodup_finRange maxRequests)
    exact key_unique_of_nodup hnodup.of_append_right hlive hlive'
  zeroed := fun _ _ _ => allocate_zeroed

/-- The pool is sound throughout exactly when no call takes a slot for an id that is live. -/
theorem poolSound_iff (calls : List (Call ν)) :
    (∀ pre, pre <+: calls →
      PoolSound ((RWKVStateManager.init maxRequests numLayers stateDim).after pre)) ↔
    AllFresh (RWKVStateManager.init maxRequests numLayers stateDim) calls := by
  constructor
  · intro h
    have hlast := (h calls prefix_rfl).conserved.named_eq
    exact allFresh_of_named (conserved_init.named_eq.trans hlast.symm).le
  · intro hfresh pre hpre
    exact (conserved_init.after hfresh hpre).poolSound

end Conservation

def allocateTwice : List (Call Int) := [.allocate "r", .allocate "r", .free "r"]

/-- Allocating twice under one id loses a slot, and freeing the id does not bring it back. -/
theorem allocateTwice_loses :
    ¬ ∀ calls : List (Call Int), ∀ pre, pre <+: calls →
      PoolSound ((RWKVStateManager.init 2 1 1).after pre) := by
  intro h
  have hsound := (h allocateTwice allocateTwice prefix_rfl).conserved
  revert hsound
  decide

end CompileForge.PythonRuntime.Rwkv
