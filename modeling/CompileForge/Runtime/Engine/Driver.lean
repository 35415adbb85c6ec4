/-
  A scheduler and its pool under an arbitrary driver: any interleaving of
  `add_request`, `schedule`, `record_output` and `get_finished_request`.
-/

import CompileForge.Runtime.Engine.SchedulerTurn

namespace CompileForge.Runtime

open Lib List

/-- A scheduled request and the state its request was in before the turn. -/
structure Emission where
  phase : RequestState
  request : ScheduledRequest
deriving DecidableEq, Repr

/-- What was emitted for a request so far. -/
abbrev Feed := List Emission

/-- A request with all that was emitted for it. -/
structure Track where
  request : Request
  feed : Feed
deriving DecidableEq, Repr

def Slot.emitted (slot : Slot) : Feed :=
  (slot.scheduled?.map (Emission.mk slot.before.state)).toList

/-- The histories after a batch: the old ones are extended, later slots start with theirs. -/
def extendTracks : List Track → List Slot → List Track
  | _, [] => []
  | [], slot :: slots => ⟨slot.after, slot.emitted⟩ :: extendTracks [] slots
  | t :: tracks, slot :: slots =>
    ⟨slot.after, t.feed ++ slot.emitted⟩ :: extendTracks tracks slots

variable {heap : MaxHeap QueueEntry QueueEntry.rank}

/-- The histories follow the places of the running list, not the request ids, which two requests
    may share: `tracks` is the running list with the history of each entry, `retired` are the
    entries that have left it. -/
structure Driver (heap : MaxHeap QueueEntry QueueEntry.rank) where
  sched : Scheduler heap
  bm : BlockManager
  tracks : List Track
  retired : List Track
  lastSlots : List Slot

inductive DriverEvent where
  | addRequest (promptTokens : List UInt32) (priority : Int) (maxTokens : Nat)
      (stopTokenIds : List UInt32) (requestId : Option String)
  | schedule (cacheHits : List PrefixCacheHit)
  | recordOutput (requestId : String) (tokenId : UInt32)
  | getFinishedRequest (requestId : String)

namespace Driver

def start (sched : Scheduler heap) (bm : BlockManager) : Driver heap :=
  { sched, bm, tracks := [], retired := [], lastSlots := [] }

/-- The scheduler and the pool that `build_batch` works on. -/
def beforeBatch (d : Driver heap) (cacheHits : List PrefixCacheHit) :
    Scheduler heap × BlockManager :=
  d.sched.admitRequests d.bm cacheHits

def apply (d : Driver heap) : DriverEvent → Driver heap
  | .addRequest promptTokens priority maxTokens stopTokenIds requestId =>
    { d with
      sched := (d.sched.addRequest promptTokens priority maxTokens stopTokenIds requestId).2 }
  | .schedule cacheHits =>
    let built := (d.beforeBatch cacheHits).1.buildBatch (d.beforeBatch cacheHits).2
    { sched := built.2.1
      bm := built.2.2
      tracks := extendTracks (d.tracks.filter (!·.request.isFinished)) built.1
      retired := d.retired ++ d.tracks.filter (·.request.isFinished)
      lastSlots := built.1 }
  | .recordOutput requestId tokenId =>
    { d with
      sched := (d.sched.recordOutput requestId tokenId).2
      tracks := updateFirst (fun t => t.request.requestId = requestId)
        (fun t => { t with request := (Scheduler.recordToken t.request tokenId).1 }) d.tracks }
  | .getFinishedRequest requestId =>
    { d with
      sched := (d.sched.getFinishedRequest requestId).2
      tracks := d.tracks.eraseP fun t => t.request.requestId = requestId
      retired := d.retired ++ (d.tracks.find? fun t => t.request.requestId = requestId).toList }

/-! ## The tracks are the running list -/

/-- The tracks are those of the running requests, in order. -/
def Synced (d : Driver heap) : Prop := d.tracks.map Track.request = d.sched.running

theorem map_extendTracks (tracks : List Track) (slots : List Slot) :
    (extendTracks tracks slots).map Track.request = slots.map Slot.after := by
  induction slots generalizing tracks with
  | nil => cases tracks <;> rfl
  | cons slot slots ih =>
    cases tracks with
    | nil => rw [extendTracks, map_cons, map_cons, ih]
    | cons => rw [extendTracks, map_cons, map_cons, ih]

variable {α : Type} {p : α → Bool} {f : α → α} {l : List α} {b : α}

theorem map_updateFirst {β : Type} {q : β → Bool} {g : β → β}
    (h : α → β) (hp : ∀ a, q (h a) = p a) (hf : ∀ a, h (f a) = g (h a)) (l : List α) :
    (updateFirst p f l).map h = updateFirst q g (l.map h) := by
  induction l with
  | nil => rfl
  | cons a l ih =>
    rw [map_cons, updateFirst, updateFirst, hp]
    split
    · rw [map_cons, hf]
    · rw [map_cons, ih]

theorem updateFirst_of_find?_none (h : l.find? p = none) : updateFirst p f l = l := by
  induction l with
  | nil => rfl
  | cons a l ih =>
    rw [find?_cons] at h
    split at h
    · cases h
    · rename_i ha
      rw [updateFirst, ha, ih h]
      rfl

theorem mem_updateFirst_found
    (hb : b ∈ updateFirst p f l) : b ∈ l ∨ ∃ a, l.find? p = some a ∧ b = f a := by
  induction l with
  | nil => exact .inl hb
  | cons a l ih =>
    rw [updateFirst] at hb
    split at hb
    · rename_i ha
      rcases mem_cons.1 hb with rfl | hb
      · exact .inr ⟨a, find?_cons_of_pos ha, rfl⟩
      · exact .inl (mem_cons_of_mem a hb)
    · rename_i ha
      rcases mem_cons.1 hb with rfl | hb
      · exact .inl mem_cons_self
      · rw [find?_cons_of_neg ha]
        exact (ih hb).imp_left (mem_cons_of_mem a)

theorem mem_updateFirst (hb : b ∈ updateFirst p f l) : b ∈ l ∨ ∃ a ∈ l, p a = true ∧ b = f a :=
  (mem_updateFirst_found hb).imp_right fun ⟨a, ha, heq⟩ =>
    ⟨a, mem_of_find?_eq_some ha, find?_some ha, heq⟩

theorem updateFirst_found {a : α} (h : l.find? p = some a) : f a ∈ updateFirst p f l := by
  induction l with
  | nil => cases h
  | cons b l ih =>
    rw [updateFirst]
    by_cases hb : p b = true
    · rw [find?_cons_of_pos hb, Option.some.injEq] at h
      rw [if_pos hb, h]
      exact mem_cons_self
    · rw [find?_cons_of_neg hb] at h
      rw [if_neg hb]
      exact mem_cons_of_mem b (ih h)

@[simp] theorem updateFirst_id (l : List α) :
    updateFirst p id l = l := by
  induction l with
  | nil => rfl
  | cons a l ih =>
    rw [updateFirst, ih]
    exact ite_self _

theorem mem_updateFirst_key {key : α → String} {k : String}
    (hnodup : (l.map key).Nodup) (hb : b ∈ updateFirst (fun a => key a = k) f l) :
    (b ∈ l ∧ key b ≠ k) ∨ ∃ a ∈ l, key a = k ∧ b = f a := by
  induction l with
  | nil => cases hb
  | cons a l ih =>
    rw [map_cons, nodup_cons] at hnodup
    rw [updateFirst] at hb
    by_cases ha : key a = k
    · rw [if_pos (decide_eq_true ha)] at hb
      rcases mem_cons.1 hb with rfl | hb
      · exact .inr ⟨a, mem_cons_self, ha, rfl⟩
      · refine .inl ⟨mem_cons_of_mem a hb, fun hkey => hnodup.1 ?_⟩
        rw [ha, ← hkey]
        exact mem_map_of_mem hb
    · rw [if_neg (by simpa using ha)] at hb
      rcases mem_cons.1 hb with rfl | hb
      · exact .inl ⟨mem_cons_self, ha⟩
      · rcases ih hnodup.2 hb with ⟨hmem, hne⟩ | ⟨c, hc, hkey, heq⟩
        · exact .inl ⟨mem_cons_of_mem a hmem, hne⟩
        · exact .inr ⟨c, mem_cons_of_mem a hc, hkey, heq⟩

theorem running_recordOutput (s : Scheduler heap) (rid : String) (tokenId : UInt32) :
    (s.recordOutput rid tokenId).2.running = updateFirst (fun r => r.requestId = rid)
        (fun r => (Scheduler.recordToken r tokenId).1) s.running := by
  unfold Scheduler.recordOutput Scheduler.runningRequest
  cases hfind : s.running.find? fun r => r.requestId = rid with
  | none => exact (updateFirst_of_find?_none hfind).symm
  | some => rfl

theorem apply_synced {d : Driver heap} (h : d.Synced) (e : DriverEvent) : (d.apply e).Synced := by
  unfold Synced at h ⊢
  cases e with
  | addRequest => exact h
  | schedule => exact map_extendTracks _ _
  | recordOutput rid tokenId =>
    show (updateFirst _ _ d.tracks).map Track.request = (d.sched.recordOutput rid tokenId).2.running
    rw [running_recordOutput, ← h]
    refine map_updateFirst Track.request (fun t => ?_) (fun t => ?_) d.tracks
    · rfl
    · rfl
  | getFinishedRequest =>
    show (d.tracks.eraseP _).map Track.request = d.sched.running.eraseP _
    rw [← h, eraseP_map]
    rfl

theorem mem_extendTracks {kept : List Track} {slots : List Slot} {admitted : List Request}
    (hbefore : slots.map Slot.before = kept.map Track.request ++ admitted) {t : Track}
    (ht : t ∈ extendTracks kept slots) :
    ∃ slot ∈ slots, ∃ feed, t = ⟨slot.after, feed ++ slot.emitted⟩ ∧
      (⟨slot.before, feed⟩ ∈ kept ∨ feed = [] ∧ slot.before ∈ admitted) := by
  induction slots generalizing kept admitted with
  | nil => cases kept <;> cases ht
  | cons slot slots ih =>
    cases kept with
    | nil =>
      have hhead : slot.before ∈ admitted := by
        rw [map_nil, nil_append] at hbefore
        rw [← hbefore]
        exact mem_cons_self
      rcases mem_cons.1 ht with rfl | ht
      · exact ⟨slot, mem_cons_self, [], rfl, .inr ⟨rfl, hhead⟩⟩
      · have hrest : slots.map Slot.before =
            ([] : List Track).map Track.request ++ slots.map Slot.before := rfl
        obtain ⟨s, hs, feed, heq, horigin⟩ := ih hrest ht
        refine ⟨s, mem_cons_of_mem slot hs, feed, heq, .inr ?_⟩
        rcases horigin with hmem | ⟨hfeed, -⟩
        · cases hmem
        · refine ⟨hfeed, ?_⟩
          rw [map_nil, nil_append] at hbefore
          rw [← hbefore]
          exact mem_cons_of_mem _ (mem_map_of_mem hs)
    | cons k =>
      rw [map_cons, map_cons, cons_append, List.cons.injEq] at hbefore
      rcases mem_cons.1 ht with rfl | ht
      · refine ⟨slot, mem_cons_self, k.feed, rfl, .inl ?_⟩
        rw [hbefore.1]
        exact mem_cons_self
      · obtain ⟨s, hs, feed, heq, horigin⟩ := ih hbefore.2 ht
        refine ⟨s, mem_cons_of_mem slot hs, feed, heq, ?_⟩
        exact horigin.imp_left (mem_cons_of_mem k)

/-- A track after a pass without hits comes from an earlier track or a request just admitted. -/
theorem mem_tracks_schedule {d : Driver heap} (h : d.Synced) {t : Track}
    (ht : t ∈ (d.apply (.schedule [])).tracks) :
    ∃ slot ∈ (d.apply (.schedule [])).lastSlots, ∃ feed, t = ⟨slot.after, feed ++ slot.emitted⟩ ∧
      (⟨slot.before, feed⟩ ∈ d.tracks ∨
        feed = [] ∧ ∃ q ∈ heap.items d.sched.waiting, slot.before = q.request.startPrefill) := by
  obtain ⟨entries, hperm, hrunning, -⟩ := d.sched.admitRequests_nil_spec d.bm
  have hbefore : (d.beforeBatch []).1.running =
      (d.tracks.filter (!·.request.isFinished)).map Track.request ++
        entries.map fun q => q.request.startPrefill := by
    refine hrunning.trans ?_
    rw [← h, filter_map]
    rfl
  obtain ⟨slot, hslot, feed, rfl, horigin⟩ := mem_extendTracks
    ((buildSlots_before _ _ _ _).trans hbefore) ht
  refine ⟨slot, hslot, feed, rfl, ?_⟩
  rcases horigin with hkept | ⟨rfl, hnew⟩
  · exact .inl (mem_filter.1 hkept).1
  · obtain ⟨q, hq, heq⟩ := mem_map.1 hnew
    exact .inr ⟨rfl, q, hperm.mem_iff.2 (mem_append_left _ hq), heq.symm⟩

end Driver

end CompileForge.Runtime
