import MyEtcd.Server.DiskCoverage
import MyEtcd.Server.Requests
import MyEtcd.Server.Watching
import MyEtcd.Watch.Delivery

/-! A call of `Watch`, which waits for events while the rest of the server goes on.
What it answers is read off the queue of its watcher, and a client may keep a copy by it. -/
namespace MyEtcd
open Library EtcdServer Json
open Library.JsonValue (parse)

namespace EtcdServer

/-- The waits of `Watch`. Before the one that leaves room for `n` more events, the rest of the server
takes the steps `between n`. -/
def collect (id : Int) (between : Nat → List AppliedState.Step) :
    Nat → AppliedState → List WatchEvent × AppliedState
  | 0, s => ([], s)
  | room + 1, s =>
    let s := s.run (between room)
    match s.watchMgr.waitForEvent id with
    | (none, watchMgr) => ([], { s with watchMgr })
    | (some event, watchMgr) =>
      let (events, s) := collect id between room { s with watchMgr }
      (event :: events, s)

def watchJson (watchId : Int) (events : List WatchEvent) : Bytes :=
  ascii "\x7b" ++
  ascii "\"watch_id\":" ++ decimalInt watchId ++ ascii "," ++
  ascii "\"events\":[" ++ commas (events.map watchEventToJson) ++ ascii "]" ++
  ascii "\x7d"

/-- The events that a call of `Watch` collects, at most 64, and what it leaves. -/
def watched (s : AppliedState) (key : Bytes) (startRev : Int) (byPrefix : Bool)
    (between : Nat → List AppliedState.Step) : List WatchEvent × AppliedState :=
  let (watchId, watchMgr) := s.watchMgr.watch key startRev byPrefix
  collect watchId between 64 { s with watchMgr }

def watch (s : AppliedState) (key : Bytes) (startRev : Int) (byPrefix : Bool)
    (between : Nat → List AppliedState.Step) : HttpResponse :=
  HttpResponse.setJson {} (watchJson (s.watchMgr.watch key startRev byPrefix).1
    (watched s key startRev byPrefix between).1)

end EtcdServer

namespace AppliedState

/-- The steps that are taken while a call waits. -/
def meanwhile (id : Int) (between : Nat → List Step) : Nat → AppliedState → List Step
  | 0, _ => []
  | room + 1, s =>
    between room ++ .waitForEvent id ::
      if ((s.run (between room)).watchMgr.waitForEvent id).1.isSome then
        meanwhile id between room ((s.run (between room)).after (.waitForEvent id))
      else []

/-- The steps of a call of `Watch` and those of the rest of the server meanwhile. -/
def watchSteps (s : AppliedState) (key : Bytes) (startRev : Int) (byPrefix : Bool)
    (between : Nat → List Step) : List Step :=
  .watch key startRev byPrefix ::
    meanwhile s.watchMgr.nextId between 64 (s.after (.watch key startRev byPrefix))

/-- The events that waits on a watcher return. -/
def received (s : AppliedState) (id : Int) : List Step → List WatchEvent
  | [] => []
  | step :: rest =>
    (if step = .waitForEvent id then (s.watchMgr.waitForEvent id).1.toList else []) ++
      (s.after step).received id rest

/-- Nobody cancels a watcher or waits for it besides the call that has made it. -/
def Alone (id : Int) (between : Nat → List Step) : Prop :=
  ∀ n, .cancel id ∉ between n ∧ .waitForEvent id ∉ between n

variable {s : AppliedState} {id : Int} {w : Watcher} {between : Nat → List Step}

theorem run_append (s : AppliedState) (steps more : List Step) :
    s.run (steps ++ more) = (s.run steps).run more :=
  List.foldl_append

theorem received_append (s : AppliedState) (id : Int) (steps more : List Step) :
    s.received id (steps ++ more) = s.received id steps ++ (s.run steps).received id more := by
  induction steps generalizing s with
  | nil => rfl
  | cons step rest ih =>
    rw [List.cons_append, received, received, ih, List.append_assoc]
    rfl

theorem received_of_others {steps : List Step} (h : .waitForEvent id ∉ steps) :
    s.received id steps = [] := by
  induction steps generalizing s with
  | nil => rfl
  | cons step rest ih =>
    rw [List.mem_cons, not_or] at h
    rw [received, if_neg (Ne.symm h.1), ih h.2]
    rfl

/-- The call goes through the states that its steps lead to, and returns what its waits return. -/
theorem collect_eq (h : ∀ n, .waitForEvent id ∉ between n) (room : Nat) (s : AppliedState) :
    collect id between room s =
      (s.received id (meanwhile id between room s), s.run (meanwhile id between room s)) := by
  induction room generalizing s with
  | zero => rfl
  | succ room ih =>
    rw [collect, meanwhile, received_append, received_of_others (h room), List.nil_append, received,
      if_pos rfl, run_append]
    generalize s.run (between room) = s
    have hafter : s.after (.waitForEvent id) =
        { s with watchMgr := (s.watchMgr.waitForEvent id).2 } := rfl
    dsimp only
    cases hwait : s.watchMgr.waitForEvent id with
    | mk event watchMgr =>
      rw [hwait] at hafter
      cases event with
      | none => exact congrArg (Prod.mk []) hafter.symm
      | some event =>
        dsimp only
        rw [Option.isSome_some, if_pos rfl, run, List.foldl_cons, ← run, hafter, ih]
        rfl

theorem received_eq (h : s.watchMgr.Registered) {steps : List Step} (hkept : .cancel id ∉ steps)
    (hw : s.watchMgr.getWatcher id = some w) : s.received id steps =
      BoundedQueue.readFrom Watcher.maxEventQueueSize w.events (s.queueOps id w steps) := by
  induction steps generalizing s w with
  | nil => rfl
  | cons step rest ih =>
    rw [List.mem_cons, not_or] at hkept
    have hrest := ih (registered_after h step) hkept.2 (getWatcher_after h (Ne.symm hkept.1) hw)
    have hread : (if step = .waitForEvent id then (s.watchMgr.waitForEvent id).1.toList else []) =
        BoundedQueue.readFrom Watcher.maxEventQueueSize w.events (s.queueOp id w step).toList := by
      cases step with
      | waitForEvent id' =>
        rw [queueOp]
        by_cases hid : id = id'
        · have hheld : s.watchMgr.held id = some w := congrArg (Option.or · _) hw
          rw [← hid, if_pos rfl, if_pos rfl, WatchManager.waitForEvent_fst hheld]
          exact (List.append_nil _).symm
        · rw [if_neg hid, if_neg fun heq => hid (Step.waitForEvent.inj heq).symm]
          rfl
      | processEntry entry =>
        rw [queueOp]
        cases (s.event entry).filter w.wants <;> rfl
      | _ => rfl
    rw [received, hrest, hread, queueOps, BoundedQueue.readFrom_append, queueOps_follow]
    rfl

theorem registered_run (h : s.watchMgr.Registered) (steps : List Step) :
    (s.run steps).watchMgr.Registered := by
  induction steps generalizing s with
  | nil => exact h
  | cons step rest ih => exact ih (registered_after h step)

theorem cancel_not_mem_meanwhile (h : Alone id between) (room : Nat) (s : AppliedState) :
    .cancel id ∉ meanwhile id between room s := by
  induction room generalizing s with
  | zero => exact List.not_mem_nil
  | succ room ih =>
    rw [meanwhile, List.mem_append, List.mem_cons, not_or, not_or]
    refine ⟨(h room).1, fun heq => (by cases heq), ?_⟩
    split_ifs
    · exact ih _
    · exact List.not_mem_nil

/-- A call returns when it has had its room or when the queue is empty. -/
theorem collect_ends (h : s.watchMgr.Registered) (halone : Alone id between)
    (hw : s.watchMgr.getWatcher id = some w) (room : Nat) :
    (collect id between room s).1.length ≤ room ∧
      ((collect id between room s).1.length = room ∨
        ∃ now, (collect id between room s).2.watchMgr.getWatcher id = some now ∧ now.events = []) := by
  induction room generalizing s w with
  | zero => exact ⟨Nat.le_refl 0, .inl rfl⟩
  | succ room ih =>
    have hrun := getWatcher_run h (halone room).1 hw
    have hnext := registered_run h (between room)
    generalize w.follow (s.queueOps id w (between room)) = w' at hrun
    rw [collect]
    generalize s.run (between room) = s at hrun hnext
    have hwait := WatchManager.getWatcher_waitForEvent s.watchMgr id id
    have hheld : s.watchMgr.held id = some w' := congrArg (Option.or · _) hrun
    have hhead := WatchManager.waitForEvent_fst hheld
    rw [if_pos rfl, hrun, Option.map_some] at hwait
    dsimp only
    cases hresult : s.watchMgr.waitForEvent id with
    | mk event watchMgr =>
      rw [hresult] at hwait hhead
      cases event with
      | none =>
        refine ⟨Nat.zero_le _, .inr ⟨_, hwait, ?_⟩⟩
        have hempty : w'.events = [] := List.head?_eq_none_iff.mp hhead.symm
        rw [Watcher.waitForEvent, hempty]
        rfl
      | some event =>
        have hregistered := registered_after hnext (.waitForEvent id)
        rw [after, hresult] at hregistered
        obtain ⟨hle, hends⟩ := ih (s := { s with watchMgr }) hregistered hwait
        exact ⟨Nat.succ_le_succ hle, hends.imp_left (congrArg Nat.succ)⟩

/-- What a call collects are events in the order in which they were put in, and the first ones if there
was room for all of them. -/
theorem collect_pushed (h : s.watchMgr.Registered) (halone : Alone id between)
    (hw : s.watchMgr.getWatcher id = some w) (hempty : w.events = []) (room : Nat) :
    (collect id between room s).1.length ≤ room ∧
    (collect id between room s).1.Sublist (s.pushed id w (meanwhile id between room s)) ∧
    ((s.pushed id w (meanwhile id between room s)).length ≤ Watcher.maxEventQueueSize →
      (collect id between room s).1 = (s.pushed id w (meanwhile id between room s)).take room) := by
  obtain ⟨hle, hends⟩ := collect_ends h halone hw room
  have hkept : .cancel id ∉ meanwhile id between room s := cancel_not_mem_meanwhile halone room s
  have hread := received_eq h hkept hw
  have hwaiting := getWatcher_run h hkept hw
  rw [hempty] at hread
  rw [collect_eq (fun n => (halone n).2)] at hle hends ⊢
  dsimp only at hle hends ⊢
  rw [pushed]
  generalize s.queueOps id w (meanwhile id between room s) = ops at hread hwaiting ⊢
  have hqueue : (w.follow ops).events = BoundedQueue.waiting Watcher.maxEventQueueSize ops := by
    rw [Watcher.follow, hempty]
    rfl
  refine ⟨hle, ?_, fun hfew => ?_⟩
  · rw [hread]
    exact (List.sublist_append_left _ _).trans (BoundedQueue.read_append_waiting_sublist ops)
  · have hall := BoundedQueue.read_append_waiting_of_le hfew
    rw [BoundedQueue.read, ← hread] at hall
    rw [← BoundedQueue.input, ← hall]
    rcases hends with hfull | ⟨now, hnow, hnone⟩
    · exact (List.take_left' hfull).symm
    · rw [hwaiting] at hnow
      obtain rfl := Option.some.inj hnow
      rw [hqueue] at hnone
      rw [hnone, List.append_nil, List.take_of_length_le hle]

def puts (w : Watcher) (steps : List Step) : List RaftEntry :=
  (entries steps).filter fun e => e.type = .put ∧ w.covers e.key = true

/-- A call tells of the first 64 puts, unless there were too many for the queue. -/
theorem told_watched (hs : Reachable s) (key : Bytes) (byPrefix : Bool)
    (halone : Alone s.watchMgr.nextId between) :
    let w := WatchManager.opened s.watchMgr.nextId key 0 byPrefix
    let events := (watched s key 0 byPrefix between).1
    let told := (puts w (s.watchSteps key 0 byPrefix between)).map RaftEntry.told
    events.length ≤ 64 ∧ (events.map WatchEvent.told).Sublist told ∧
      (told.length ≤ Watcher.maxEventQueueSize → events.map WatchEvent.told = told.take 64) := by
  intro w events told
  have hregistered := registered_after hs.registered (.watch key 0 byPrefix)
  have hpos := hs.currentRevision_pos.trans (s.currentRevision_after_le (.watch key 0 byPrefix))
  have hw : (s.after (.watch key 0 byPrefix)).watchMgr.getWatcher s.watchMgr.nextId = some w :=
    OrderedMap.get?_insert_self _ _ _
  obtain ⟨hle, hsublist, htake⟩ := collect_pushed hregistered halone hw rfl 64
  have htold := @told_pushed _ s.watchMgr.nextId w hpos rfl rfl
    (meanwhile s.watchMgr.nextId between 64 (s.after (.watch key 0 byPrefix)))
  refine ⟨hle, ?_, fun hfew => ?_⟩
  · have hmap := hsublist.map WatchEvent.told
    rwa [htold] at hmap
  · have hlength := congrArg List.length htold
    rw [List.length_map] at hlength
    have hevents := congrArg (List.map WatchEvent.told) (htake (hlength ▸ hfew))
    rwa [List.map_take, htold] at hevents

theorem kvstore_run (s : AppliedState) (steps : List Step) :
    (s.run steps).kvstore = processRaftEntries s.kvstore (entries steps) := by
  induction steps generalizing s with
  | nil => rfl
  | cons step rest ih =>
    have hsplit : entries (step :: rest) = step.entry.toList ++ entries rest := by
      cases step <;> rfl
    have happend (a b : List RaftEntry) : processRaftEntries s.kvstore (a ++ b) =
        processRaftEntries (processRaftEntries s.kvstore a) b := List.foldl_append
    rw [hsplit, happend, ← s.kvstore_after step]
    exact ih (s.after step)

end AppliedState

/-- The value under a key is decided by the last write to it. -/
theorem KVStore.value_of_last (kvstore : KVStore) (entries : List RaftEntry) (key : Bytes) :
    ((processRaftEntries kvstore entries).get key 0).map KeyValue.value =
      match lastOn entries key with
      | some e => e.effect
      | none => (kvstore.get key 0).map KeyValue.value := by
  have hshown (kvstore : KVStore) : (kvstore.get key 0).map KeyValue.value =
      (kvstore.shown key).map Prod.fst := by
    rw [KVStore.shown, Option.map_map]
    rfl
  induction entries using List.reverseRecOn with
  | nil => rfl
  | append_singleton front e ih =>
    have hsplit : processRaftEntries kvstore (front ++ [e]) =
        EtcdServer.processEntry (processRaftEntries kvstore front) e := List.foldl_append
    rw [hsplit, lastOn_append]
    by_cases hwrites : Writes e
    · rw [hshown, KVStore.shown_processEntry _ hwrites]
      by_cases hkey : e.key = key
      · have hlast : Writes e ∧ e.key = key := ⟨hwrites, hkey⟩
        rw [if_pos hkey, if_pos hlast]
        rcases hwrites with htype | htype
        · simp [RaftEntry.effect, htype]
        · simp [RaftEntry.effect, htype]
      · have hother : ¬ (Writes e ∧ e.key = key) := fun h => hkey h.2
        rw [if_neg hkey, if_neg hother, ← hshown, ih]
    · have hother : ¬ (Writes e ∧ e.key = key) := fun h => hwrites h.1
      rw [EtcdServer.processEntry_of_not_writes hwrites, if_neg hother, ih]

/-- A client's copy of some keys, when it has been told of an event. -/
def WatchEvent.applyTo (copy : Bytes → Option Bytes) (event : WatchEvent) : Bytes → Option Bytes :=
  Function.update copy event.kv.key (if event.type = .put then some event.kv.value else none)

namespace AppliedState
variable {s : AppliedState} {between : Nat → List Step}

/-- What the copy has under a key is decided by the last put of it. -/
theorem copy_of_told {events : List WatchEvent} {puts : List RaftEntry}
    (htold : events.map WatchEvent.told = puts.map RaftEntry.told) (hputs : ∀ e ∈ puts, e.type = .put)
    (copy : Bytes → Option Bytes) (key : Bytes) :
    events.foldl WatchEvent.applyTo copy key =
      match (puts.filter fun e => e.key = key).getLast? with
      | some e => some e.value
      | none => copy key := by
  induction puts using List.reverseRecOn generalizing events with
  | nil =>
    obtain rfl := List.map_eq_nil_iff.mp htold
    rfl
  | append_singleton front e ih =>
    rw [List.map_append, List.map_singleton] at htold
    obtain ⟨before, last, rfl, hbefore, hlast⟩ := List.map_eq_append_iff.mp htold
    obtain ⟨event, rfl, hevent⟩ := List.map_eq_singleton_iff.mp hlast
    have hput := hputs e (List.mem_append_right _ (List.mem_singleton_self e))
    have hfront := ih hbefore fun x hx => hputs x (List.mem_append_left _ hx)
    rw [RaftEntry.told, hput, if_pos rfl] at hevent
    obtain ⟨htype, hkv⟩ := Prod.mk.inj hevent
    obtain ⟨hkey, hvalue⟩ := Prod.mk.inj hkv
    rw [List.foldl_append, List.foldl_cons, List.foldl_nil, WatchEvent.applyTo, htype, if_pos rfl,
      hkey, hvalue, List.filter_append]
    by_cases heq : e.key = key
    · rw [heq, Function.update_self]
      simp [heq]
    · rw [Function.update_of_ne (Ne.symm heq), hfront]
      simp [heq]

/-- The puts of a covered key are its writes without the deletions. -/
theorem puts_on {w : Watcher} {key : Bytes} (hcovers : w.covers key = true) (steps : List Step) :
    (puts w steps).filter (fun e => e.key = key) =
      ((entries steps).filter fun e => Writes e ∧ e.key = key).filter fun e => e.type = .put := by
  rw [puts, List.filter_filter, List.filter_filter]
  refine List.filter_congr fun e _ => ?_
  rw [Bool.eq_iff_iff, Bool.and_eq_true, Bool.and_eq_true, decide_eq_true_iff, decide_eq_true_iff,
    decide_eq_true_iff, decide_eq_true_iff]
  constructor
  · rintro ⟨hkey, hput, -⟩
    exact ⟨hput, .inl hput, hkey⟩
  · rintro ⟨hput, -, hkey⟩
    exact ⟨hkey, hput, hkey ▸ hcovers⟩

/-- Among the writes to a key, those who hear only of the puts miss a deletion at the end. -/
theorem last_put_decides (writes : List RaftEntry) (before : Option Bytes) :
    (match (writes.filter fun e => e.type = .put).getLast? with
      | some e => some e.value
      | none => before) =
      (match writes.getLast? with
      | some e => e.effect
      | none => before) ↔
    (∀ e, writes.getLast? = some e → e.type = .put) ∨
      before = none ∧ ∀ e ∈ writes, e.type ≠ .put := by
  induction writes using List.reverseRecOn with
  | nil => exact iff_of_true rfl (.inl fun e he => by cases he)
  | append_singleton front last _ =>
    rw [List.getLast?_concat, List.filter_append]
    by_cases htype : last.type = .put
    · have hlast : [last].filter (fun e => e.type = .put) = [last] := by simp [htype]
      rw [hlast, List.getLast?_concat]
      refine iff_of_true ?_ (.inl fun e he => Option.some.inj he ▸ htype)
      dsimp only
      rw [RaftEntry.effect, htype]
    · have hlast : [last].filter (fun e => e.type = .put) = [] := by simp [htype]
      have hdeleted : ¬ ∀ e, some last = some e → e.type = .put := fun h => htype (h last rfl)
      have heffect : last.effect = none := by
        unfold RaftEntry.effect
        split
        · exact absurd ‹_› htype
        · rfl
      rw [hlast, List.append_nil, or_iff_right hdeleted]
      dsimp only
      rw [heffect]
      cases hputs : (front.filter fun e => e.type = .put).getLast? with
      | none =>
        rw [List.getLast?_eq_none_iff, List.filter_eq_nil_iff] at hputs
        refine (and_iff_left fun e he hput => ?_).symm
        rcases List.mem_append.mp he with he | he
        · exact hputs e he (decide_eq_true hput)
        · exact htype (List.mem_singleton.mp he ▸ hput)
      | some e =>
        have he := List.mem_filter.mp (List.mem_of_getLast? hputs)
        refine iff_of_false (fun heq => by cases heq) fun h => ?_
        exact h.2 e (List.mem_append_left _ he.1) (of_decide_eq_true he.2)

/-- A client that has had a key right and is told of all puts has it right after the call just when the
last write to the key has not been a deletion, or there was nothing to forget. -/
theorem copy_follows_iff (hs : Reachable s) {key : Bytes} {byPrefix : Bool}
    (halone : Alone s.watchMgr.nextId between) {k : Bytes}
    (hcovers : (WatchManager.opened s.watchMgr.nextId key 0 byPrefix).covers k = true)
    (hfew : (puts (WatchManager.opened s.watchMgr.nextId key 0 byPrefix)
      (s.watchSteps key 0 byPrefix between)).length ≤ 64)
    {copy : Bytes → Option Bytes} (hcopy : copy k = (s.kvstore.get k 0).map KeyValue.value) :
    let call := watched s key 0 byPrefix between
    let applied := entries (s.watchSteps key 0 byPrefix between)
    call.1.foldl WatchEvent.applyTo copy k = (call.2.kvstore.get k 0).map KeyValue.value ↔
      (∀ e, lastOn applied k = some e → e.type = .put) ∨
      s.kvstore.get k 0 = none ∧ ∀ e ∈ applied, e.type = .put → e.key ≠ k := by
  intro call applied
  have htold : call.1.map WatchEvent.told =
      (puts (WatchManager.opened s.watchMgr.nextId key 0 byPrefix)
        (s.watchSteps key 0 byPrefix between)).map RaftEntry.told := by
    obtain ⟨-, -, hall⟩ := told_watched hs key byPrefix halone
    rw [List.length_map] at hall
    rw [hall (hfew.trans (by decide)), List.take_of_length_le (by rwa [List.length_map])]
  have hcopied := copy_of_told htold (fun e he => (of_decide_eq_true (List.mem_filter.mp he).2).1) copy k
  have hstate : call.2 = s.run (s.watchSteps key 0 byPrefix between) :=
    congrArg Prod.snd (collect_eq (fun n => (halone n).2) 64 (s.after (.watch key 0 byPrefix)))
  have hstored := KVStore.value_of_last s.kvstore applied k
  rw [← kvstore_run, ← hstate] at hstored
  rw [hcopied, hstored, puts_on hcovers, hcopy]
  refine (last_put_decides _ _).trans (or_congr_right ?_)
  rw [Option.map_eq_none_iff]
  refine and_congr_right fun _ => ⟨fun h e he hput hkey => ?_, fun h e he hput => ?_⟩
  · exact h e (List.mem_filter.mpr ⟨he, decide_eq_true ⟨.inl hput, hkey⟩⟩) hput
  · obtain ⟨he, hwrite⟩ := List.mem_filter.mp he
    exact h e he hput (of_decide_eq_true hwrite).2

/-- The copy of a key that is overwritten and then deleted while the call waits keeps the value. -/
theorem copy_follows_iff_forgets :
    let s := (ofServer (.fresh {})).run [.processEntry { index := 1, key := [107], value := [97] }]
    let between := fun n => if n = 63 then
      [.processEntry { index := 2, key := [107], value := [98] },
        .processEntry { index := 3, type := .delete, key := [107] }] else []
    let call := watched s [107] 0 false between
    call.1.foldl WatchEvent.applyTo (fun _ => some [97]) [107] ≠
      (call.2.kvstore.get [107] 0).map KeyValue.value := by
  intro s between call
  have hs : Reachable s := ⟨{}, {}, none, _, _, KVServer.start_fresh {}, rfl⟩
  have halone : Alone s.watchMgr.nextId between := by
    intro n
    dsimp only [between]
    split_ifs <;> decide
  have hcovers : (WatchManager.opened s.watchMgr.nextId [107] 0 false).covers [107] = true := by decide
  have hcopy : (fun _ : Bytes => some [97]) [107] = (s.kvstore.get [107] 0).map KeyValue.value := by
    decide
  have hiff := @copy_follows_iff s between hs [107] false halone [107] hcovers (by decide)
    (fun _ => some [97]) hcopy
  refine hiff.not.mpr ?_
  decide

end AppliedState

namespace Json

def watchValue (watchId : Int) (events : List WatchEvent) : JsonValue :=
  .object [(ascii "watch_id", .number (decimalInt watchId)),
    (ascii "events", .array (events.map watchEventValue))]

theorem print_watchValue (watchId : Int) (events : List WatchEvent) :
    print (watchValue watchId events) = watchJson watchId events := by
  have hevents : (events.map watchEventValue).map print = events.map watchEventToJson := by
    rw [List.map_map]
    exact List.map_congr_left fun ev _ => print_watchEventValue ev
  simp only [watchValue, print_object, List.map_cons, List.map_nil, printMember, print_array, hevents,
    print_number, commas, List.flatMap_cons, List.flatMap_nil, quote, watchJson, List.append_assoc,
    List.cons_append]
  rfl

theorem built_watchValue {P : Bytes → Prop} (hP : ∀ s, Fixed s → P s) (watchId : Int)
    (events : List WatchEvent) :
    Built P (watchValue watchId events) ↔ ∀ ev ∈ events, P ev.kv.key ∧ P ev.kv.value := by
  rw [watchValue, built_object_iff (by simp only [List.forall_mem_cons]; decide)]
  simp [built_watchEventValue hP]

end Json

namespace Transmission
open SimpleHttpServer AppliedState
variable {server : ServerCall → HttpResponse} {authToken : Bytes}

/-- The client of a watch reads the puts that come first, in their order, while the rest of the server
goes on in any way. -/
theorem watch_read (t : Transmission) {key : Bytes} {byPrefix : Bool} {s : AppliedState}
    (hs : Reachable s) {between : Nat → List Step} (halone : Alone s.watchMgr.nextId between)
    (h : Asks t.request (.watch key byPrefix) authToken) (hkey : key ≠ [])
    (hserver : ∀ call, (server call).Made)
    (hwatch : server (.watch key byPrefix) = EtcdServer.watch s key 0 byPrefix between)
    (htext : ∀ e ∈ puts (WatchManager.opened s.watchMgr.nextId key 0 byPrefix)
      (s.watchSteps key 0 byPrefix between), Printable e.key ∧ Printable e.value) :
    let told := (puts (WatchManager.opened s.watchMgr.nextId key 0 byPrefix)
      (s.watchSteps key 0 byPrefix between)).map RaftEntry.told
    ∃ resp events, (handleClientImpl server authToken t.chunks).bind readResponse = some resp ∧
      resp.statusCode = 200 ∧ parse resp.body = some (watchValue s.watchMgr.nextId events) ∧
      events.length ≤ 64 ∧ (events.map WatchEvent.told).Sublist told ∧
      (told.length ≤ Watcher.maxEventQueueSize → events.map WatchEvent.told = told.take 64) := by
  intro told
  obtain ⟨hle, hsublist, hfirst⟩ := told_watched hs key byPrefix halone
  refine ⟨_, _, t.readResponse_call h trivial hkey (fun body hbody => by cases hbody) (hserver _),
    ?_, ?_, hle, hsublist, hfirst⟩
  · rw [hwatch]
    rfl
  · have hbody : (EtcdServer.watch s key 0 byPrefix between).written.body =
        watchJson s.watchMgr.nextId (watched s key 0 byPrefix between).1 := rfl
    rw [hwatch, hbody]
    generalize (watched s key 0 byPrefix between).1 = events at hsublist ⊢
    have hprintable : ∀ ev ∈ events, Printable ev.kv.key ∧ Printable ev.kv.value := by
      intro ev hev
      obtain ⟨e, he, htold⟩ := List.mem_map.mp (hsublist.subset (List.mem_map_of_mem hev))
      have hput := (of_decide_eq_true (List.mem_filter.mp he).2).1
      obtain ⟨-, hkv⟩ := Prod.mk.inj htold
      obtain ⟨hkey, hvalue⟩ := Prod.mk.inj hkv
      rw [if_pos hput] at hvalue
      exact hkey ▸ hvalue ▸ htext e he
    rw [← print_watchValue]
    exact parse_print ((built_watchValue (fun _ hs => ⟨hs.utf8, hs.noControl⟩) _ _).mpr hprintable)

def watchRequest : SentRequest :=
  { readBackRequest with
    target := ascii "/v3/watch?key=a+b HTTP/1.1"
    target_wf := forall_of_all (by decide) }

def watchSent : Transmission where
  request := watchRequest
  chunks := [watchRequest.text]
  whole := by decide
  sizes := by decide
  total := by decide

theorem asks_watchRequest : Asks watchRequest (.watch (ascii "a b") false) (ascii "t") := by
  refine ⟨rfl, ⟨[keyParam], ascii "HTTP/1.1", rfl, by decide, ?_⟩, ?_, asks_readBack.token⟩
  · intro p hp
    rcases List.mem_cons.mp hp with rfl | hp
    · exact .inl rfl
    · obtain rfl := List.mem_singleton.mp hp
      exact .inr ⟨by decide, rfl⟩
  · exact fun body hbody => by cases hbody

def putFirst (n : Nat) : List Step :=
  if n = 63 then [.processEntry { index := 1, key := ascii "a b", value := ascii "xyz" }] else []

def notifier : ServerCall → HttpResponse
  | .watch key byPrefix => EtcdServer.watch (ofServer (.fresh {})) key 0 byPrefix putFirst
  | _ => HttpResponse.setError {} 500 []

theorem watch_read_put : ∃ resp events,
    (handleClientImpl notifier (ascii "t") watchSent.chunks).bind readResponse = some resp ∧
      resp.statusCode = 200 ∧ parse resp.body = some (watchValue 1 events) ∧
      events.map WatchEvent.told = [(.put, ascii "a b", ascii "xyz")] := by
  have hs : Reachable (ofServer (.fresh {})) := ⟨{}, {}, none, _, [], KVServer.start_fresh {}, rfl⟩
  have halone : Alone (ofServer (.fresh {})).watchMgr.nextId putFirst := by
    intro n
    unfold putFirst
    split_ifs <;> decide
  have hserver (call : ServerCall) : (notifier call).Made := by
    cases call with
    | watch key byPrefix => exact .inl ⟨_, rfl⟩
    | _ => exact .inr ⟨500, [], rfl⟩
  have hputs : puts (WatchManager.opened (ofServer (.fresh {})).watchMgr.nextId (ascii "a b") 0 false)
      ((ofServer (.fresh {})).watchSteps (ascii "a b") 0 false putFirst) =
        [{ index := 1, key := ascii "a b", value := ascii "xyz" }] := by decide
  obtain ⟨resp, events, hread, hstatus, hbody, -, -, hall⟩ :=
    watch_read watchSent hs halone asks_watchRequest (by decide) hserver rfl (by
      intro e he
      rw [hputs] at he
      obtain rfl := List.mem_singleton.mp he
      exact ⟨⟨⟨"a b".toList, rfl⟩, by decide⟩, ⟨"xyz".toList, rfl⟩, by decide⟩)
  exact ⟨resp, events, hread, hstatus, hbody, hall (by decide)⟩

end Transmission
end MyEtcd
