import MyEtcd.Watch.WatchManager

/-! What a watcher delivers over a run of the table's methods.
A watcher that is cancelled is still read by those who hold it, but it is told of nothing more. -/
namespace MyEtcd
open Library

namespace WatchManager

/-- One call, taken as a whole. -/
inductive Step where
  | watch (key : Bytes) (startRev : Int) (byPrefix : Bool)
  | cancel (id : Int)
  | cleanup
  | notify (event : WatchEvent)
  | waitForEvent (id : Int)
  deriving DecidableEq

def after (m : WatchManager) : Step → WatchManager
  | .watch key startRev byPrefix => (m.watch key startRev byPrefix).2
  | .cancel id => (m.cancel id).2
  | .cleanup => m.cleanup
  | .notify event => m.notify event
  | .waitForEvent id => (m.waitForEvent id).2

def run (m : WatchManager) (steps : List Step) : WatchManager := steps.foldl after m

/-- The watcher that `Watch` puts into the table. -/
def opened (id : Int) (key : Bytes) (startRev : Int) (byPrefix : Bool) : Watcher :=
  { id, key, type := if byPrefix then .keyPrefix else .key, startRev }

/-- The events that the waits on a watcher return. -/
def delivered (m : WatchManager) (id : Int) : List Step → List WatchEvent
  | [] => []
  | step :: rest =>
    (if step = .waitForEvent id then (m.waitForEvent id).1.toList else []) ++
      (m.after step).delivered id rest

def held (m : WatchManager) (id : Int) : Option Watcher :=
  (m.watchers.get? id).or (m.released.get? id)

/-- The event that a step notifies of. -/
def Step.notified : Step → Option WatchEvent
  | .notify event => some event
  | _ => none

/-- The events that are notified before a watcher is cancelled, as far as they match it. -/
def matching (w : Watcher) (id : Int) (steps : List Step) : List WatchEvent :=
  ((steps.takeWhile fun step => step ≠ .cancel id).filterMap Step.notified).filter fun event =>
    w.startRev < event.kv.modRevision && w.covers event.kv.key

/-- A watcher that has left the table is cancelled and never comes back. -/
structure Kept (m : WatchManager) : Prop where
  registered : m.Registered
  released : ∀ id w, m.released.get? id = some w →
    w.cancelled = true ∧ id < m.nextId ∧ m.watchers.get? id = none

end WatchManager

namespace Watcher

/-- What a step does to the queue of a watcher. -/
def queueOp (w : Watcher) (id : Int) : WatchManager.Step → Option (BoundedQueue.Op WatchEvent)
  | .notify event => if w.wants event then some (.push event) else none
  | .waitForEvent id' => if id' = id then some .pop else none
  | _ => none

/-- A watcher after a step. -/
def after (w : Watcher) (id : Int) (step : WatchManager.Step) : Watcher :=
  { w with
    events := (w.queueOp id step).toList.foldl (BoundedQueue.after maxEventQueueSize) w.events
    cancelled := w.cancelled || step = .cancel id }

/-- What a run does to the queue of a watcher. -/
def queueOps (w : Watcher) (id : Int) : List WatchManager.Step → List (BoundedQueue.Op WatchEvent)
  | [] => []
  | step :: rest => (w.queueOp id step).toList ++ (w.after id step).queueOps id rest

end Watcher

namespace WatchManager
variable {m : WatchManager} {id : Int} {w : Watcher}

theorem after_eq_self {step : Step} (hop : w.queueOp id step = none)
    (hcancel : w.cancelled = true ∨ step ≠ .cancel id) : w.after id step = w := by
  have hcancelled : (w.cancelled || decide (step = .cancel id)) = w.cancelled := by
    rcases hcancel with htrue | hne
    · rw [htrue, Bool.true_or]
    · rw [decide_eq_false hne, Bool.or_false]
  rw [Watcher.after, hop, hcancelled]
  rfl

namespace Kept

theorem released_cleanup (h : m.Kept) : m.cleanup.released = m.released := by
  have hnone : m.watchers.entries.filter (fun e => e.2.cancelled) = [] := by
    rw [List.filter_eq_nil_iff]
    intro e he
    have hlisted := h.registered e.1 e.2 ((OrderedMap.mem_entries_iff _ _ _).mp he)
    rw [hlisted.active]
    exact Bool.false_ne_true
  rw [cleanup, hnone]
  rfl

/-- The table of those that have left, one of them at a time. -/
theorem released_cancel (h : m.Kept) (id id' : Int) : (m.cancel id').2.released.get? id =
    if id = id' then (m.held id).map fun w => { w with cancelled := true }
    else m.released.get? id := by
  unfold WatchManager.cancel held
  cases hw : m.watchers.get? id' with
  | none =>
    dsimp only
    split_ifs with hid
    · rw [hid, hw, Option.none_or]
      cases hreleased : m.released.get? id' with
      | none => rfl
      | some w =>
        have hcancelled := (h.released id' w hreleased).1
        rw [Option.map_some, ← hcancelled]
    · rfl
  | some w =>
    dsimp only
    rw [OrderedMap.get?_insert]
    split_ifs with hid
    · rw [hid, hw]
      rfl
    · rfl

theorem released_waitForEvent (h : m.Kept) (id id' : Int) :
    (m.waitForEvent id').2.released.get? id =
      if id = id' then (m.released.get? id).map fun w => w.waitForEvent.2
      else m.released.get? id := by
  unfold WatchManager.waitForEvent
  cases hw : m.watchers.get? id' with
  | some w =>
    dsimp only
    split_ifs with hid
    · cases hreleased : m.released.get? id with
      | none => rfl
      | some w' =>
        have hgone := (h.released id w' hreleased).2.2
        rw [hid, hw] at hgone
        cases hgone
    · rfl
  | none =>
    cases hreleased : m.released.get? id' with
    | none =>
      dsimp only
      split_ifs with hid
      · rw [hid, hreleased]
        rfl
      · rfl
    | some w =>
      dsimp only
      rw [OrderedMap.get?_insert]
      split_ifs with hid
      · rw [hid, hreleased]
        rfl
      · rfl

theorem getWatcher_cancel_self (m : WatchManager) (id : Int) :
    (m.cancel id).2.getWatcher id = none := by
  unfold WatchManager.cancel getWatcher
  cases hw : m.watchers.get? id with
  | none => exact hw
  | some w => exact OrderedMap.get?_erase_self _ _

theorem held_of_same {step : Step}
    (hwatchers : (m.after step).getWatcher id = m.getWatcher id)
    (hreleased : (m.after step).released.get? id = m.released.get? id)
    (hafter : ∀ w, m.held id = some w → w.after id step = w) :
    (m.after step).held id = (m.held id).map fun w => w.after id step := by
  have hsame : (m.after step).held id = m.held id := congrArg₂ Option.or hwatchers hreleased
  rw [hsame]
  cases hw : m.held id with
  | none => rfl
  | some w => rw [Option.map_some, hafter w hw]

/-- What a step does to a watcher that has been issued, wherever it is. -/
theorem held_after (h : m.Kept) (hissued : id < m.nextId) (step : Step) :
    (m.after step).held id = (m.held id).map fun w => w.after id step := by
  cases step with
  | watch key startRev byPrefix =>
    exact held_of_same (getWatcher_watch hissued.ne _ _ _) rfl fun w _ =>
      after_eq_self rfl (.inr fun heq => by cases heq)
  | cancel id' =>
    rcases eq_or_ne id id' with rfl | hid
    · have hgone := getWatcher_cancel_self m id
      have hreleased := h.released_cancel id id
      rw [if_pos rfl] at hreleased
      calc (m.cancel id).2.held id
          = ((m.cancel id).2.getWatcher id).or ((m.cancel id).2.released.get? id) := rfl
        _ = (m.held id).map fun w => { w with cancelled := true } := by
            rw [hgone, hreleased, Option.none_or]
        _ = (m.held id).map fun w => w.after id (.cancel id) := by
            refine congrArg (Option.map · _) (funext fun w => ?_)
            rw [Watcher.after, decide_eq_true rfl, Bool.or_true]
            rfl
    · refine held_of_same (getWatcher_cancel hid) ?_ fun w _ => after_eq_self rfl (.inr ?_)
      · rw [after, h.released_cancel, if_neg hid]
      · exact fun heq => hid (Step.cancel.inj heq).symm
  | cleanup =>
    refine held_of_same (getWatcher_cleanup h.registered id) ?_ fun w _ =>
      after_eq_self rfl (.inr fun heq => by cases heq)
    rw [after, h.released_cleanup]
  | notify event =>
    have hother : ¬ Step.notify event = .cancel id := fun heq => by cases heq
    unfold held
    have htable : (m.notify event).watchers.get? id = _ := getWatcher_notify m event id
    rw [after, htable, getWatcher]
    cases hw : m.watchers.get? id with
    | some w =>
      rw [Option.map_some, Option.some_or, Option.some_or, Option.map_some, Watcher.after,
        Watcher.queueOp, decide_eq_false hother, Bool.or_false]
      cases w.wants event with
      | true => rfl
      | false => rfl
    | none =>
      rw [Option.map_none, Option.none_or, Option.none_or]
      change m.released.get? id = _
      cases hreleased : m.released.get? id with
      | none => rfl
      | some w =>
        have hcancelled := (h.released id w hreleased).1
        have hwants : w.wants event = false := by
          rw [Watcher.wants, hcancelled]
          rfl
        rw [Option.map_some, after_eq_self _ (.inl hcancelled)]
        rw [Watcher.queueOp, hwants]
        rfl
  | waitForEvent id' =>
    have htable := getWatcher_waitForEvent m id id'
    have hreleased := h.released_waitForEvent id id'
    rcases eq_or_ne id id' with rfl | hid
    · have hother : ¬ Step.waitForEvent id = .cancel id := fun heq => by cases heq
      have hwait (w : Watcher) : w.waitForEvent.2 = w.after id (.waitForEvent id) := by
        rw [Watcher.after, Watcher.queueOp, if_pos rfl, decide_eq_false hother, Bool.or_false]
        rfl
      rw [if_pos rfl] at htable hreleased
      calc (m.waitForEvent id).2.held id
          = ((m.waitForEvent id).2.getWatcher id).or ((m.waitForEvent id).2.released.get? id) := rfl
        _ = ((m.watchers.get? id).map fun w => w.waitForEvent.2).or
              ((m.released.get? id).map fun w => w.waitForEvent.2) := by
            rw [htable, hreleased, getWatcher]
        _ = (m.held id).map fun w => w.waitForEvent.2 := by
            rw [held]
            cases m.watchers.get? id <;> rfl
        _ = (m.held id).map fun w => w.after id (.waitForEvent id) :=
            congrArg (Option.map · _) (funext hwait)
    · rw [if_neg hid] at htable hreleased
      refine held_of_same htable hreleased fun w _ => after_eq_self ?_ (.inr fun heq => by cases heq)
      rw [Watcher.queueOp, if_neg (Ne.symm hid)]

theorem nextId_cancel (m : WatchManager) (id : Int) : (m.cancel id).2.nextId = m.nextId := by
  unfold WatchManager.cancel
  split <;> rfl

theorem nextId_waitForEvent (m : WatchManager) (id : Int) :
    (m.waitForEvent id).2.nextId = m.nextId := by
  unfold WatchManager.waitForEvent
  split <;> rfl

theorem nextId_after (m : WatchManager) (step : Step) : m.nextId ≤ (m.after step).nextId := by
  cases step with
  | watch key startRev byPrefix => exact (Int.lt_succ _).le
  | cancel id => exact (nextId_cancel m id).ge
  | cleanup => exact le_rfl
  | notify event => exact le_rfl
  | waitForEvent id => exact (nextId_waitForEvent m id).ge

theorem issued (h : m.Kept) (hw : m.held id = some w) : id < m.nextId := by
  rcases Option.or_eq_some_iff.mp hw with htable | ⟨_, hreleased⟩
  · exact (h.registered id w htable).issued
  · exact (h.released id w hreleased).2.1

theorem after (h : m.Kept) (step : Step) : (m.after step).Kept := by
  have hregistered : (m.after step).Registered := by
    cases step with
    | watch key startRev byPrefix => exact h.registered.watch key startRev byPrefix
    | cancel id => exact h.registered.cancel id
    | cleanup => exact h.registered.cleanup
    | notify event => exact h.registered.notify event
    | waitForEvent id => exact h.registered.waitForEvent id
  refine ⟨hregistered, fun id w hw => ?_⟩
  cases step with
  | watch key startRev byPrefix =>
    obtain ⟨hcancelled, hissued, hgone⟩ := h.released id w hw
    exact ⟨hcancelled, hissued.trans (Int.lt_succ _), (getWatcher_watch hissued.ne _ _ _).trans hgone⟩
  | cancel id' =>
    rw [WatchManager.after, h.released_cancel] at hw
    split_ifs at hw with hid
    · obtain ⟨w', hw', rfl⟩ := Option.map_eq_some_iff.mp hw
      refine ⟨rfl, (h.issued hw').trans_le (nextId_after m (.cancel id')), ?_⟩
      rw [hid]
      exact getWatcher_cancel_self m id'
    · obtain ⟨hcancelled, hissued, hgone⟩ := h.released id w hw
      exact ⟨hcancelled, hissued.trans_le (nextId_after m (.cancel id')),
        (getWatcher_cancel hid).trans hgone⟩
  | cleanup =>
    rw [WatchManager.after, h.released_cleanup] at hw
    obtain ⟨hcancelled, hissued, hgone⟩ := h.released id w hw
    exact ⟨hcancelled, hissued, (getWatcher_cleanup h.registered id).trans hgone⟩
  | notify event =>
    obtain ⟨hcancelled, hissued, hgone⟩ := h.released id w hw
    refine ⟨hcancelled, hissued, (getWatcher_notify m event id).trans ?_⟩
    rw [getWatcher, hgone, Option.map_none]
  | waitForEvent id' =>
    have htable := getWatcher_waitForEvent m id id'
    rw [WatchManager.after, h.released_waitForEvent] at hw
    split_ifs at hw htable with hid
    · obtain ⟨w', hw', rfl⟩ := Option.map_eq_some_iff.mp hw
      obtain ⟨hcancelled, hissued, hgone⟩ := h.released id w' hw'
      refine ⟨hcancelled, hissued.trans_le (nextId_after m (.waitForEvent id')), htable.trans ?_⟩
      rw [getWatcher, hgone, Option.map_none]
    · obtain ⟨hcancelled, hissued, hgone⟩ := h.released id w hw
      exact ⟨hcancelled, hissued.trans_le (nextId_after m (.waitForEvent id')), htable.trans hgone⟩

end Kept

theorem kept_run (steps : List Step) : (run {} steps).Kept := by
  induction steps using List.reverseRecOn with
  | nil => exact ⟨.start, nofun⟩
  | append_singleton rest step ih =>
    rw [run, List.foldl_append]
    exact ih.after step

theorem held_run (h : m.Kept) (hw : m.held id = some w) (steps : List Step) :
    ∃ now, (m.run steps).held id = some now ∧ now.events =
      (w.queueOps id steps).foldl (BoundedQueue.after Watcher.maxEventQueueSize) w.events := by
  induction steps generalizing m w with
  | nil => exact ⟨w, hw, rfl⟩
  | cons step rest ih =>
    have hstep := h.held_after (h.issued hw) step
    rw [hw, Option.map_some] at hstep
    obtain ⟨now, hnow, hevents⟩ := ih (h.after step) hstep
    refine ⟨now, hnow, ?_⟩
    rw [hevents, Watcher.queueOps, List.foldl_append]
    rfl

theorem waitForEvent_fst (hw : m.held id = some w) : (m.waitForEvent id).1 = w.events.head? := by
  unfold waitForEvent
  rw [held] at hw
  cases htable : m.watchers.get? id with
  | some w' =>
    rw [htable, Option.some_or] at hw
    obtain rfl := Option.some.inj hw
    rfl
  | none =>
    rw [htable, Option.none_or] at hw
    rw [hw]
    rfl

theorem delivered_eq (h : m.Kept) (hw : m.held id = some w) (steps : List Step) :
    m.delivered id steps =
      BoundedQueue.readFrom Watcher.maxEventQueueSize w.events (w.queueOps id steps) := by
  induction steps generalizing m w with
  | nil => rfl
  | cons step rest ih =>
    have hstep := h.held_after (h.issued hw) step
    rw [hw, Option.map_some] at hstep
    have hread : (if step = .waitForEvent id then (m.waitForEvent id).1.toList else []) =
        BoundedQueue.readFrom Watcher.maxEventQueueSize w.events (w.queueOp id step).toList := by
      cases step with
      | waitForEvent id' =>
        rw [Watcher.queueOp]
        by_cases hid : id' = id
        · rw [hid, if_pos rfl, if_pos rfl, waitForEvent_fst hw]
          exact (List.append_nil _).symm
        · rw [if_neg hid, if_neg fun heq => hid (Step.waitForEvent.inj heq)]
          rfl
      | notify event =>
        rw [Watcher.queueOp]
        cases w.wants event <;> rfl
      | _ => rfl
    rw [delivered, ih (h.after step) hstep, hread, Watcher.queueOps, BoundedQueue.readFrom_append]
    rfl

/-- A watcher that is cancelled is told of nothing. -/
theorem input_queueOps_cancelled (hcancelled : w.cancelled = true) (steps : List Step) :
    BoundedQueue.input (w.queueOps id steps) = [] := by
  induction steps generalizing w with
  | nil => rfl
  | cons step rest ih =>
    have hnext : (w.after id step).cancelled = true := by
      rw [Watcher.after, hcancelled, Bool.true_or]
    rw [Watcher.queueOps, BoundedQueue.input, List.filterMap_append, ← BoundedQueue.input,
      ← BoundedQueue.input, ih hnext, List.append_nil]
    cases step with
    | notify event =>
      rw [Watcher.queueOp, Watcher.wants, hcancelled]
      rfl
    | waitForEvent id' =>
      rw [Watcher.queueOp]
      split_ifs <;> rfl
    | _ => rfl

theorem input_queueOps (hactive : w.cancelled = false) (steps : List Step) :
    BoundedQueue.input (w.queueOps id steps) = matching w id steps := by
  induction steps generalizing w with
  | nil => rfl
  | cons step rest ih =>
    rw [Watcher.queueOps, BoundedQueue.input, List.filterMap_append, ← BoundedQueue.input,
      ← BoundedQueue.input, matching]
    by_cases hcancel : step = .cancel id
    · have hnext : (w.after id step).cancelled = true := by
        rw [Watcher.after, decide_eq_true hcancel, Bool.or_true]
      rw [input_queueOps_cancelled hnext, List.takeWhile_cons_of_neg (by simpa using hcancel), hcancel]
      rfl
    · have hnext : (w.after id step).cancelled = false := by
        rw [Watcher.after, hactive, decide_eq_false hcancel, Bool.or_false]
      have hrest : matching (w.after id step) id rest = matching w id rest := rfl
      rw [ih hnext, hrest, List.takeWhile_cons_of_pos (by simpa using hcancel)]
      cases step with
      | notify event =>
        have hwants : w.wants event =
            (decide (w.startRev < event.kv.modRevision) && w.covers event.kv.key) := by
          rw [Watcher.wants, hactive]
          rfl
        have hnotified : (Step.notify event).notified = some event := rfl
        rw [Watcher.queueOp, List.filterMap_cons_some hnotified, List.filter_cons, ← hwants]
        cases w.wants event <;> rfl
      | waitForEvent id' =>
        rw [Watcher.queueOp]
        split_ifs <;> rfl
      | _ => rfl

/-- What has happened to the queue at some point has happened at some point of the run. -/
theorem exists_steps_of_queueOps {steps : List Step}
    {front back : List (BoundedQueue.Op WatchEvent)} (h : w.queueOps id steps = front ++ back) :
    ∃ a b, steps = a ++ b ∧ w.queueOps id a = front := by
  induction steps generalizing w front with
  | nil =>
    obtain ⟨rfl, -⟩ := List.append_eq_nil_iff.mp h.symm
    exact ⟨[], [], rfl, rfl⟩
  | cons step rest ih =>
    cases front with
    | nil => exact ⟨[], step :: rest, rfl, rfl⟩
    | cons op front =>
      rw [Watcher.queueOps] at h
      cases hop : w.queueOp id step with
      | none =>
        rw [hop] at h
        obtain ⟨a, b, hrest, ha⟩ := ih h
        exact ⟨step :: a, b, congrArg _ hrest, by rw [Watcher.queueOps, hop]; exact ha⟩
      | some op' =>
        rw [hop] at h
        obtain ⟨rfl, hback⟩ := List.cons.inj h
        obtain ⟨a, b, hrest, ha⟩ := ih hback
        exact ⟨step :: a, b, congrArg _ hrest, by rw [Watcher.queueOps, hop, ha]; rfl⟩

/-- What a watcher has delivered and has in its queue are, in order, the events that were notified
while it was open and match it; one is missing only if as many later ones as the queue holds were
queued before it was read. -/
theorem watch_delivery (before later : List Step) (key : Bytes) (startRev : Int) (byPrefix : Bool) :
    let id := ((run {} before).watch key startRev byPrefix).1
    let m := ((run {} before).watch key startRev byPrefix).2
    let w := opened id key startRev byPrefix
    let events := matching w id later
    ∃ now, (m.run later).held id = some now ∧ now.events.length ≤ Watcher.maxEventQueueSize ∧
      ∃ positions : List Nat, positions.Pairwise (· < ·) ∧ (∀ p ∈ positions, p < events.length) ∧
        (m.delivered id later ++ now.events).map some = (positions.map fun p => events[p]?) ∧
        ∀ p < events.length, p ∉ positions → ∃ a b, later = a ++ b ∧
          p + Watcher.maxEventQueueSize < (matching w id a).length ∧
          ∀ q ∈ positions.take (m.delivered id a).length, q < p := by
  intro id m w events
  have hkept : m.Kept := (kept_run before).after (.watch key startRev byPrefix)
  have hw : m.held id = some w :=
    congrArg (Option.or · _) (OrderedMap.get?_insert_self _ _ _)
  obtain ⟨now, hnow, hqueue⟩ := held_run hkept hw later
  obtain ⟨hbounded, positions, hrising, hpositions, hitems, hmissing⟩ :=
    @BoundedQueue.read_append_waiting _ Watcher.maxEventQueueSize (by decide)
      (w.queueOps id later)
  have hinput (steps : List Step) : BoundedQueue.input (w.queueOps id steps) = matching w id steps :=
    input_queueOps rfl steps
  have hread (steps : List Step) : BoundedQueue.read Watcher.maxEventQueueSize (w.queueOps id steps) =
      m.delivered id steps := (delivered_eq hkept hw steps).symm
  rw [hinput] at hpositions hitems hmissing
  rw [hread] at hitems
  refine ⟨now, hnow, hqueue ▸ hbounded, positions, hrising, hpositions, ?_, fun p hp hgone => ?_⟩
  · rw [hqueue]
    exact hitems
  · obtain ⟨front, back, hsplit, hfull, hbehind⟩ := hmissing p hp hgone
    obtain ⟨a, b, hlater, rfl⟩ := exists_steps_of_queueOps hsplit
    rw [hinput] at hfull
    rw [hread] at hbehind
    exact ⟨a, b, hlater, hfull, hbehind⟩

end WatchManager
end MyEtcd
