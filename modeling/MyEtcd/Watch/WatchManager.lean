import MyEtcd.Common.Types
import MyEtcd.Library.BoundedQueue

/-! Watchers of single keys and of prefixes, and the table that notifies them.
A watcher is shared with those who read its queue, so one that has left the table lives on. -/
namespace MyEtcd
open Library

structure WatchEvent where
  type : EventType := .put
  kv : KeyValue
  prevKv : KeyValue
  deriving DecidableEq

inductive WatchType where
  | key
  | keyPrefix
  deriving DecidableEq

structure Watcher where
  id : Int
  key : Bytes
  type : WatchType
  startRev : Int
  events : List WatchEvent := []
  cancelled : Bool := false

namespace Watcher

def maxEventQueueSize : Nat := 1024

/-- How a wait ends: with the oldest event, or with nothing on a cancellation or a timeout. -/
def waitForEvent (w : Watcher) : Option WatchEvent × Watcher :=
  (w.events.head?, { w with events := w.events.tail })

def pushEvent (w : Watcher) (event : WatchEvent) : Watcher :=
  { w with events := BoundedQueue.push maxEventQueueSize w.events event }

def covers (w : Watcher) (key : Bytes) : Bool :=
  match w.type with
  | .key => key = w.key
  | .keyPrefix => w.key.isPrefixOf key

def wants (w : Watcher) (event : WatchEvent) : Bool :=
  !w.cancelled && w.startRev < event.kv.modRevision && w.covers event.kv.key

end Watcher

structure WatchManager where
  watchers : OrderedMap Int Watcher := ∅
  /-- Watchers that have left the table. -/
  released : OrderedMap Int Watcher := ∅
  nextId : Int := 1

namespace WatchManager

def watch (m : WatchManager) (key : Bytes) (startRev : Int) (byPrefix : Bool) :
    Int × WatchManager :=
  let w : Watcher :=
    { id := m.nextId, key, type := if byPrefix then .keyPrefix else .key, startRev }
  (m.nextId, { m with watchers := m.watchers.insert m.nextId w, nextId := m.nextId + 1 })

def cancel (m : WatchManager) (id : Int) : Bool × WatchManager :=
  match m.watchers.get? id with
  | none => (false, m)
  | some w => (true, { m with
      watchers := m.watchers.erase id
      released := m.released.insert id { w with cancelled := true } })

def notify (m : WatchManager) (event : WatchEvent) : WatchManager :=
  { m with watchers := m.watchers.map fun w => if w.wants event then w.pushEvent event else w }

def getWatcher (m : WatchManager) (id : Int) : Option Watcher := m.watchers.get? id

def cleanup (m : WatchManager) : WatchManager where
  watchers := m.watchers.filterMap fun _ w => if w.cancelled then none else some w
  released := (m.watchers.entries.filter fun e => e.2.cancelled).foldl
    (fun released e => released.insert e.1 e.2) m.released
  nextId := m.nextId

/-- A wait by somebody who holds the watcher. -/
def waitForEvent (m : WatchManager) (id : Int) : Option WatchEvent × WatchManager :=
  match m.watchers.get? id, m.released.get? id with
  | some w, _ => (w.waitForEvent.1, { m with watchers := m.watchers.insert id w.waitForEvent.2 })
  | none, some w => (w.waitForEvent.1, { m with released := m.released.insert id w.waitForEvent.2 })
  | none, none => (none, m)

structure Listed (m : WatchManager) (id : Int) (w : Watcher) : Prop where
  active : w.cancelled = false
  issued : id < m.nextId
  bounded : w.events.length ≤ Watcher.maxEventQueueSize

def Registered (m : WatchManager) : Prop := ∀ id w, m.getWatcher id = some w → m.Listed id w

variable {m : WatchManager} {id : Int} {w : Watcher}

theorem getWatcher_notify (m : WatchManager) (event : WatchEvent) (id : Int) :
    (m.notify event).getWatcher id =
      (m.getWatcher id).map fun w => if w.wants event then w.pushEvent event else w :=
  OrderedMap.get?_map _ _ _

theorem getWatcher_watch (h : id ≠ m.nextId) (key : Bytes) (startRev : Int) (byPrefix : Bool) :
    (m.watch key startRev byPrefix).2.getWatcher id = m.getWatcher id :=
  OrderedMap.get?_insert_ne _ _ h

theorem getWatcher_cancel {id' : Int} (h : id ≠ id') :
    (m.cancel id').2.getWatcher id = m.getWatcher id := by
  unfold cancel
  split
  · rfl
  · exact OrderedMap.get?_erase_ne _ h

theorem getWatcher_cleanup (h : Registered m) (id : Int) :
    m.cleanup.getWatcher id = m.getWatcher id := by
  rw [getWatcher, getWatcher, cleanup, OrderedMap.get?_filterMap]
  cases hw : m.watchers.get? id with
  | none => rfl
  | some w =>
    have hactive := (h id w hw).active
    simp [hactive]

theorem getWatcher_waitForEvent (m : WatchManager) (id id' : Int) :
    (m.waitForEvent id').2.getWatcher id =
      if id = id' then (m.getWatcher id).map fun w => w.waitForEvent.2 else m.getWatcher id := by
  unfold waitForEvent getWatcher
  split
  · next w _ hw =>
    rw [OrderedMap.get?_insert]
    split_ifs with hid
    · rw [hid, hw, Option.map_some]
    · rfl
  · next w hw _ =>
    split_ifs with hid
    · rw [hid, hw, Option.map_none]
    · rfl
  · next hw _ =>
    split_ifs with hid
    · rw [hid, hw, Option.map_none]
    · rfl

namespace Registered

theorem start : Registered {} := fun id w hw => by cases hw

theorem congr {m' : WatchManager} (h : Registered m) (hnext : m.nextId ≤ m'.nextId)
    (hsame : ∀ id w, m'.getWatcher id = some w → ∃ w', m.getWatcher id = some w' ∧
      w.cancelled = w'.cancelled ∧ (w'.events.length ≤ Watcher.maxEventQueueSize →
        w.events.length ≤ Watcher.maxEventQueueSize)) : Registered m' := by
  intro id w hw
  obtain ⟨w', hw', hcancelled, hbounded⟩ := hsame id w hw
  obtain ⟨active, issued, bounded⟩ := h id w' hw'
  exact ⟨hcancelled.trans active, issued.trans_le hnext, hbounded bounded⟩

theorem watch (h : Registered m) (key : Bytes) (startRev : Int) (byPrefix : Bool) :
    Registered (m.watch key startRev byPrefix).2 := by
  intro id w hw
  rcases eq_or_ne id m.nextId with rfl | hid
  · rw [getWatcher, WatchManager.watch, OrderedMap.get?_insert_self] at hw
    obtain rfl := Option.some.inj hw
    exact ⟨rfl, Int.lt_succ _, Nat.zero_le _⟩
  · rw [getWatcher_watch hid] at hw
    obtain ⟨active, issued, bounded⟩ := h id w hw
    exact ⟨active, issued.trans (Int.lt_succ _), bounded⟩

theorem cancel (h : Registered m) (id : Int) : Registered (m.cancel id).2 := by
  unfold WatchManager.cancel
  split
  · exact h
  · refine h.congr le_rfl fun id' w hw => ⟨w, ?_, rfl, fun hle => hle⟩
    rw [getWatcher, OrderedMap.get?_erase] at hw
    exact (Option.ite_none_left_eq_some.mp hw).2

theorem notify (h : Registered m) (event : WatchEvent) : Registered (m.notify event) := by
  refine h.congr le_rfl fun id w hw => ?_
  rw [getWatcher_notify] at hw
  obtain ⟨w', hw', rfl⟩ := Option.map_eq_some_iff.mp hw
  refine ⟨w', hw', ?_⟩
  split_ifs
  · exact ⟨rfl, fun _ => BoundedQueue.length_push_le (by decide) _ _⟩
  · exact ⟨rfl, fun hle => hle⟩

theorem cleanup (h : Registered m) : Registered m.cleanup :=
  h.congr le_rfl fun id w hw => ⟨w, getWatcher_cleanup h id ▸ hw, rfl, fun hle => hle⟩

theorem waitForEvent (h : Registered m) (id : Int) : Registered (m.waitForEvent id).2 := by
  have hnext : (m.waitForEvent id).2.nextId = m.nextId := by
    unfold WatchManager.waitForEvent
    split <;> rfl
  refine h.congr hnext.ge fun id' w hw => ?_
  rw [getWatcher_waitForEvent] at hw
  split_ifs at hw
  · obtain ⟨w', hw', rfl⟩ := Option.map_eq_some_iff.mp hw
    refine ⟨w', hw', rfl, fun hle => ?_⟩
    rw [Watcher.waitForEvent, List.length_tail]
    omega
  · exact ⟨w, hw, rfl, fun hle => hle⟩

end Registered

end WatchManager
end MyEtcd
