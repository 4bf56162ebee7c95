import MyEtcd.Server.AppliedState

/-! What a watcher is told of the entries that are applied.
The event of a put carries its revision, and the event of a deletion carries none, so the test
against the start revision keeps every deletion from a watcher that wants everything. -/
namespace MyEtcd
open Library EtcdServer

/-- What an entry says to those who watch its key. -/
def RaftEntry.told (entry : RaftEntry) : EventType × Bytes × Bytes :=
  (entry.type, entry.key, if entry.type = .put then entry.value else [])

def WatchEvent.told (event : WatchEvent) : EventType × Bytes × Bytes :=
  (event.type, event.kv.key, event.kv.value)

namespace Watcher

/-- One event for each write to a key that the watcher covers, in order. -/
def Announced (w : Watcher) (entries : List RaftEntry) (events : List WatchEvent) : Prop :=
  events.map WatchEvent.told =
    (entries.filter fun e => Writes e ∧ w.covers e.key = true).map RaftEntry.told

/-- The watcher when its queue has gone through some operations. -/
def follow (w : Watcher) (ops : List (BoundedQueue.Op WatchEvent)) : Watcher :=
  { w with events := ops.foldl (BoundedQueue.after maxEventQueueSize) w.events }

theorem follow_append (w : Watcher) (ops ops' : List (BoundedQueue.Op WatchEvent)) :
    (w.follow ops).follow ops' = w.follow (ops ++ ops') := by
  rw [follow, follow, follow, List.foldl_append]

instance instDecidableAnnounced (w : Watcher) (entries : List RaftEntry)
    (events : List WatchEvent) : Decidable (w.Announced entries events) :=
  inferInstanceAs (Decidable (_ = _))

end Watcher

/-- The version that a put has just written is what it returns. -/
theorem KVStore.newKv_putWithPrev (s : KVStore) (key value : Bytes) (leaseId : Int) :
    ∃ newKv, (s.putWithPrev key value leaseId).1.newKv = some newKv ∧ newKv.key = key ∧
      newKv.value = value ∧ newKv.modRevision = s.currentRevision := by
  have hread := MVCC.content_get_write s.mvcc.allocateRevision.2
    (.put key s.mvcc.currentRev value leaseId) key
  rw [Write.key, if_pos rfl] at hread
  obtain ⟨kv, hkv, hcontent⟩ := Option.map_eq_some_iff.mp hread
  have hkey : kv.key = key := MVCC.key_of_get hkv
  refine ⟨{ kv with value := value }, ?_, hkey, rfl, ?_⟩
  · exact congrArg (Option.map fun kv : KeyValue => { kv with value := value }) hkv
  · exact congrArg Content.modRevision hcontent

namespace AppliedState

/-- The event that an entry brings about. -/
def event (s : AppliedState) (entry : RaftEntry) : Option WatchEvent :=
  match entry.type with
  | .put =>
    let result := (s.kvstore.putWithPrev entry.key entry.value entry.leaseId).1
    result.newKv.map fun newKv =>
      { type := .put
        kv := newKv
        prevKv := result.prevKv.getD { key := entry.key, value := [] } }
  | .delete => some
      { type := .delete
        kv := { key := entry.key, value := [] }
        prevKv := (s.kvstore.get entry.key 0).getD { key := entry.key, value := [] } }
  | _ => none

/-- What a step does to the queue of a watcher. -/
def queueOp (s : AppliedState) (id : Int) (w : Watcher) : Step → Option (BoundedQueue.Op WatchEvent)
  | .processEntry entry => ((s.event entry).filter w.wants).map .push
  | .waitForEvent id' => if id = id' then some .pop else none
  | _ => none

/-- What a run does to the queue of a watcher. -/
def queueOps (s : AppliedState) (id : Int) (w : Watcher) :
    List Step → List (BoundedQueue.Op WatchEvent)
  | [] => []
  | step :: rest => (s.queueOp id w step).toList ++ (s.after step).queueOps id w rest

def pushed (s : AppliedState) (id : Int) (w : Watcher) (steps : List Step) : List WatchEvent :=
  (s.queueOps id w steps).filterMap BoundedQueue.Op.pushed

def entries (steps : List Step) : List RaftEntry := steps.filterMap Step.entry

variable (s : AppliedState) {id : Int} {w : Watcher}

theorem watchMgr_processEntry (entry : RaftEntry) : (s.processEntry entry).watchMgr =
    match s.event entry with
    | some event => s.watchMgr.notify event
    | none => s.watchMgr := by
  unfold processEntry event
  cases entry.type with
  | put =>
    dsimp only
    cases (s.kvstore.putWithPrev entry.key entry.value entry.leaseId).1.newKv with
    | none => rfl
    | some newKv => rfl
  | delete => rfl
  | _ => rfl

variable {s}

theorem registered_after (h : s.watchMgr.Registered) (step : Step) :
    (s.after step).watchMgr.Registered := by
  cases step with
  | processEntry entry =>
    rw [after, watchMgr_processEntry]
    split
    · exact h.notify _
    · exact h
  | watch key startRev byPrefix => exact h.watch key startRev byPrefix
  | cancel id => exact h.cancel id
  | cleanup => exact h.cleanup
  | waitForEvent id => exact h.waitForEvent id
  | _ => exact h

theorem Reachable.registered (h : Reachable s) : s.watchMgr.Registered := by
  obtain ⟨_, _, _, server, steps, _, rfl⟩ := h
  have hrun {s : AppliedState} (h : s.watchMgr.Registered) : (s.run steps).watchMgr.Registered := by
    induction steps generalizing s with
    | nil => exact h
    | cons step rest ih => exact ih (registered_after h step)
  exact hrun .start

/-- A step changes nothing of a watcher but its queue, unless it cancels it. -/
theorem getWatcher_after (h : s.watchMgr.Registered) {step : Step} (hkept : step ≠ .cancel id)
    (hw : s.watchMgr.getWatcher id = some w) :
    (s.after step).watchMgr.getWatcher id = some (w.follow (s.queueOp id w step).toList) := by
  cases step with
  | processEntry entry =>
    rw [after, watchMgr_processEntry, queueOp]
    cases s.event entry with
    | none => exact hw
    | some event =>
      dsimp only
      rw [WatchManager.getWatcher_notify, hw, Option.map_some, Option.filter_some]
      cases w.wants event with
      | true => rfl
      | false => rfl
  | watch key startRev byPrefix =>
    exact (WatchManager.getWatcher_watch (h id w hw).issued.ne _ _ _).trans hw
  | cancel id' =>
    have hne : id ≠ id' := fun heq => hkept (heq ▸ rfl)
    exact (WatchManager.getWatcher_cancel hne).trans hw
  | cleanup => exact (WatchManager.getWatcher_cleanup h id).trans hw
  | waitForEvent id' =>
    rw [after, WatchManager.getWatcher_waitForEvent, queueOp]
    split_ifs with hid
    · rw [hw]
      rfl
    · exact hw
  | _ => exact hw

theorem queueOps_follow (s : AppliedState) (w : Watcher)
    (ops : List (BoundedQueue.Op WatchEvent)) (steps : List Step) :
    s.queueOps id (w.follow ops) steps = s.queueOps id w steps := by
  induction steps generalizing s with
  | nil => rfl
  | cons step rest ih => exact congrArg _ (ih (s.after step))

theorem getWatcher_run (h : s.watchMgr.Registered) {steps : List Step}
    (hkept : .cancel id ∉ steps) (hw : s.watchMgr.getWatcher id = some w) :
    (s.run steps).watchMgr.getWatcher id = some (w.follow (s.queueOps id w steps)) := by
  induction steps generalizing s w with
  | nil => exact hw
  | cons step rest ih =>
    rw [List.mem_cons, not_or] at hkept
    have hstep := getWatcher_after h (Ne.symm hkept.1) hw
    have hrest := ih (registered_after h step) hkept.2 hstep
    rwa [queueOps_follow, Watcher.follow_append] at hrest

theorem event_put (s : AppliedState) {entry : RaftEntry} (hput : entry.type = .put) :
    ∃ event, s.event entry = some event ∧ event.told = entry.told ∧ event.kv.key = entry.key ∧
      event.kv.modRevision = s.kvstore.currentRevision := by
  obtain ⟨newKv, hnew, hkey, hvalue, hrev⟩ :=
    s.kvstore.newKv_putWithPrev entry.key entry.value entry.leaseId
  simp [event, hput, hnew, WatchEvent.told, RaftEntry.told, hkey, hvalue, hrev]

theorem event_delete (s : AppliedState) {entry : RaftEntry} (hdelete : entry.type = .delete) :
    ∃ event, s.event entry = some event ∧ event.kv.modRevision = 0 := by
  simp [event, hdelete]

/-- A watcher that wants everything is told of the puts. -/
theorem told_queueOp (hpos : 1 ≤ s.kvstore.currentRevision) (hactive : w.cancelled = false)
    (hstart : w.startRev = 0) (step : Step) :
    ((s.queueOp id w step).toList.filterMap BoundedQueue.Op.pushed).map WatchEvent.told =
      (step.entry.toList.filter fun e => e.type = .put ∧ w.covers e.key = true).map
        RaftEntry.told := by
  cases step with
  | processEntry entry =>
    rw [queueOp, Step.entry]
    by_cases hput : entry.type = .put
    · obtain ⟨event, hevent, htold, hkey, hrev⟩ := s.event_put hput
      have hwants : w.wants event = w.covers entry.key := by
        have hlt : w.startRev < event.kv.modRevision := by omega
        simp [Watcher.wants, hactive, hkey, hlt]
      rw [hevent, Option.filter_some, hwants]
      cases hcovers : w.covers entry.key with
      | true => simp [hput, hcovers, htold, BoundedQueue.Op.pushed]
      | false => simp [hcovers]
    · have hnone : (s.event entry).filter w.wants = none := by
        by_cases hdelete : entry.type = .delete
        · obtain ⟨event, hevent, hrev⟩ := s.event_delete hdelete
          rw [hevent, Option.filter_some, if_neg]
          simp [Watcher.wants, hstart, hrev]
        · unfold event
          split
          · exact absurd ‹_› hput
          · exact absurd ‹_› hdelete
          · rfl
      simp [hnone, hput]
  | waitForEvent id' =>
    rw [queueOp]
    split_ifs
    · rfl
    · rfl
  | _ => rfl

theorem told_pushed (hpos : 1 ≤ s.kvstore.currentRevision) (hactive : w.cancelled = false)
    (hstart : w.startRev = 0) (steps : List Step) :
    (s.pushed id w steps).map WatchEvent.told =
      ((entries steps).filter fun e => e.type = .put ∧ w.covers e.key = true).map
        RaftEntry.told := by
  induction steps generalizing s with
  | nil => rfl
  | cons step rest ih =>
    have hsplit : entries (step :: rest) = step.entry.toList ++ entries rest := by
      cases step <;> rfl
    rw [pushed, queueOps, List.filterMap_append, List.map_append, ← pushed,
      told_queueOp hpos hactive hstart, ih (hpos.trans (s.currentRevision_after_le step)), hsplit,
      List.filter_append, List.map_append]

private theorem pop_not_mem_queueOps {steps : List Step} (h : .waitForEvent id ∉ steps) :
    .pop ∉ s.queueOps id w steps := by
  induction steps generalizing s with
  | nil => exact List.not_mem_nil
  | cons step rest ih =>
    rw [List.mem_cons, not_or] at h
    rw [queueOps, List.mem_append, not_or]
    refine ⟨fun hpop => ?_, ih h.2⟩
    have hop : s.queueOp id w step = some .pop := Option.mem_toList.mp hpop
    cases step with
    | processEntry entry =>
      obtain ⟨_, _, heq⟩ := Option.map_eq_some_iff.mp hop
      cases heq
    | waitForEvent id' =>
      obtain ⟨rfl, _⟩ := Option.ite_none_right_eq_some.mp hop
      exact h.1 rfl
    | _ => cases hop

/-- A watcher that wants everything is told of all writes exactly when no deletion is among them.
Its queue is what `PushEvent` makes of these events, whoever reads it in between. -/
theorem watch_complete_iff (hs : Reachable s) (hw : s.watchMgr.getWatcher id = some w)
    (hstart : w.startRev = 0) {steps : List Step} (hkept : .cancel id ∉ steps) :
    (s.run steps).watchMgr.getWatcher id = some (w.follow (s.queueOps id w steps)) ∧
    (.waitForEvent id ∉ steps → (w.follow (s.queueOps id w steps)).events =
      BoundedQueue.newest Watcher.maxEventQueueSize (w.events ++ s.pushed id w steps)) ∧
    (w.Announced (entries steps) (s.pushed id w steps) ↔
      ∀ e ∈ entries steps, e.type = .delete → w.covers e.key = false) := by
  have hlisted := hs.registered id w hw
  refine ⟨getWatcher_run hs.registered hkept hw, fun hunread => ?_, ?_⟩
  · exact BoundedQueue.foldl_after (by decide) hlisted.bounded (pop_not_mem_queueOps hunread)
  · rw [Watcher.Announced, told_pushed hs.currentRevision_pos hlisted.active hstart steps]
    constructor
    · intro hall e he hdelete
      by_contra hcovers
      have hmem : e ∈ (entries steps).filter fun e => Writes e ∧ w.covers e.key = true :=
        List.mem_filter.mpr ⟨he, decide_eq_true ⟨.inr hdelete, eq_true_of_ne_false hcovers⟩⟩
      have htoldMem := List.mem_map_of_mem (f := RaftEntry.told) hmem
      rw [← hall] at htoldMem
      obtain ⟨e', he', heq⟩ := List.mem_map.mp htoldMem
      have hput : e'.type = .put := (of_decide_eq_true (List.mem_filter.mp he').2).1
      have htype : e'.type = e.type := congrArg Prod.fst heq
      rw [hput, hdelete] at htype
      cases htype
    · intro hnone
      refine congrArg _ (List.filter_congr fun e he => ?_)
      by_cases hdelete : e.type = .delete
      · simp [hnone e he hdelete]
      · simp [Writes, hdelete]

/-- A watcher that is there before a key is deleted does not hear of it. -/
theorem deletion_untold : ∃ (s : AppliedState) (w : Watcher), Reachable s ∧
    s.watchMgr.getWatcher 1 = some w ∧ w.startRev = 0 ∧
    ¬ w.Announced (entries [.processEntry { index := 2, type := .delete, key := [107] }])
      (s.pushed 1 w [.processEntry { index := 2, type := .delete, key := [107] }]) := by
  refine ⟨_, _, ⟨{}, {}, none, _, [.watch [107] 0 false,
    .processEntry { index := 1, key := [107], value := [97] }], KVServer.start_fresh {}, rfl⟩,
    rfl, rfl, ?_⟩
  decide

/-- Two puts below a prefix reach the queue of its watcher. -/
theorem watch_complete_iff_puts : ∃ (s : AppliedState) (w : Watcher),
    s.watchMgr.getWatcher 1 = some w ∧
    w.Announced (entries [.processEntry { index := 1, key := [47, 97], value := [1] },
        .processEntry { index := 2, key := [47, 98], value := [2] }])
      (s.pushed 1 w [.processEntry { index := 1, key := [47, 97], value := [1] },
        .processEntry { index := 2, key := [47, 98], value := [2] }]) := by
  have hs : Reachable ((ofServer (.fresh {})).run [.watch [47] 0 true]) :=
    ⟨{}, {}, none, _, _, KVServer.start_fresh {}, rfl⟩
  exact ⟨_, _, rfl, (watch_complete_iff hs rfl rfl (by decide)).2.2.mpr (by decide)⟩

end AppliedState
end MyEtcd
