import MyEtcd.Library.Text
import MyEtcd.Server.EtcdServer
import MyEtcd.Server.Replay

/-! The running server: the node, the store and the disk behind their locks, and its clients.
A step is one call inside a handler or a request, and steps of different threads alternate in any
order that the locks allow. -/
namespace MyEtcd
open Library

inductive CompareTarget where
  | value
  | version
  | other
  deriving DecidableEq

inductive CompareOp where
  | equal
  | notEqual
  deriving DecidableEq

structure Compare where
  target : CompareTarget
  key : Bytes
  op : CompareOp
  value : Bytes
  deriving DecidableEq

/-- One comparison against what the store has under the key. -/
def Compare.holds (c : Compare) (kv : Option KeyValue) : Bool :=
  match c.target with
  | .value =>
    let current := (kv.map KeyValue.value).getD []
    match c.op with
    | .equal => current = c.value
    | .notEqual => current ≠ c.value
  | .version =>
    let current : Int := (kv.map KeyValue.version).getD 0
    let expected := (stoll c.value).getD 0
    match c.op with
    | .equal => current = expected
    | .notEqual => current ≠ expected
  | .other => false

inductive TxnOpType where
  | put
  | delete
  | other
  deriving DecidableEq

structure TxnOp where
  type : TxnOpType
  key : Bytes
  value : Bytes := []
  deriving DecidableEq

/-- The entry an operation proposes. One without a key or of another type is passed over. -/
def TxnOp.entry (op : TxnOp) : Option RaftEntry :=
  if op.key = [] then none
  else
    match op.type with
    | .put => some { type := .put, key := op.key, value := op.value }
    | .delete => some { type := .delete, key := op.key }
    | .other => none

/-- A client's request; a transaction as its body has been parsed. -/
inductive Request where
  | put (key value : Bytes) (leaseId : Int)
  | delete (key : Bytes)
  | txn (compares : List Compare) (success failure : List TxnOp)
  deriving DecidableEq

def Request.entry : Request → Option RaftEntry
  | .put key value leaseId => some { type := .put, key, value, leaseId }
  | .delete key => some { type := .delete, key }
  | .txn _ _ _ => none

def Request.branch (conditionsMet : Bool) : Request → List TxnOp
  | .txn _ success failure => if conditionsMet then success else failure
  | _ => []

/-- How far a request has come. A result of a transaction is kept with the entry that was accepted
for it, if any. -/
inductive Stage where
  | comparing (rest : List Compare) (conditionsMet : Bool)
  | executing (rest : List TxnOp) (conditionsMet : Bool) (results : List (Option RaftEntry))
  | waiting (entry : RaftEntry)
  | refused
  | succeeded (entry : RaftEntry)
  | reported (conditionsMet : Bool) (results : List (Option RaftEntry))
  deriving DecidableEq

structure Client where
  request : Request
  stage : Stage
  deriving DecidableEq

/-- A call that a handler makes while it holds `server_mu_`. -/
inductive Action where
  | processEntry (entry : RaftEntry)
  | appendEntries (entries : List RaftEntry)
  | saveHardState
  | notify (entries : List RaftEntry)
  | serialize (lastApplied : Nat)
  | createSnapshot (lastApplied : Nat) (data : Bytes)
  | truncateFrom (idx : Nat)
  | setSnapshotIndex (idx : Nat)
  deriving DecidableEq

namespace Action

def isNotify : Action → Bool
  | .notify _ => true
  | _ => false

def processed : Action → List RaftEntry
  | .processEntry entry => [entry]
  | _ => []

def appended : Action → List RaftEntry
  | .appendEntries entries => entries
  | _ => []

def notified : Action → List RaftEntry
  | .notify entries => entries
  | _ => []

def next (kvstore : KVStore) : Action → List Action
  | .serialize lastApplied => [.createSnapshot lastApplied kvstore.serialize]
  | _ => []

end Action

structure KVServer where
  config : ClusterConfig := {}
  node : RaftNode
  kvstore : KVStore := {}
  wal : WAL
  snapshotIndex : Nat := 0
  pendingCommits : OrderedMap Nat Bool := ∅
  /-- The file of the backend, as it was last written. -/
  backendFile : Option Bytes := none
  /-- What `ready_handler_` has been called with, until it gets `server_mu_`. -/
  ready : Option (List RaftEntry) := none
  /-- What the handler that holds `server_mu_` has left to do. -/
  critical : List Action := []
  /-- The index a round of `SnapshotLoop` has read, until it gets `server_mu_`. -/
  lastApplied : Option Nat := none
  clients : List Client := []
  /-- The entries the store has been given since the start, oldest first. -/
  applied : List RaftEntry := []
  /-- The entries `WAL::AppendEntries` has been given since the start. -/
  logged : List RaftEntry := []
  /-- The snapshots written since the start, each with the log of that moment. -/
  written : List (Snapshot × List RaftEntry) := []

namespace KVServer

def raftReadyHandler (entries : List RaftEntry) : List Action :=
  entries.map .processEntry ++ [.appendEntries entries, .saveHardState, .notify entries]

def takeSnapshot (lastApplied : Nat) : List Action :=
  [.serialize lastApplied, .truncateFrom lastApplied, .setSnapshotIndex lastApplied]

/-- `ready_handler_` is called with `mu_` held, which it keeps until it returns. -/
def nodeLocked (s : KVServer) : Bool :=
  s.ready.isSome || s.critical.any Action.isNotify

/-- The calls that do not ask for `mu_`. -/
def lockFree : RaftNode.Call → Bool
  | .proposeBatch _ | .flushBatch => true
  | _ => false

def setSnapshots (s : KVServer) (files : OrderedMap Nat Bytes) : KVServer :=
  { s with wal := { s.wal with disk := { s.wal.disk with snapshots := files } } }

/-- What a call does. `CreateSnapshot` gives up on data that is too large, and the loop goes on. -/
def perform (s : KVServer) : Action → Option KVServer
  | .processEntry entry =>
    some { s with
      kvstore := EtcdServer.processEntry s.kvstore entry
      applied := s.applied ++ [entry] }
  | .appendEntries entries =>
    some { s with wal := s.wal.appendEntries entries, logged := s.logged ++ entries }
  | .saveHardState =>
    let state : RaftHardState :=
      { currentTerm := s.node.currentTerm, commitIndex := s.node.log.lastIndex }
    some { s with wal := s.wal.saveHardState state }
  | .notify entries =>
    some { s with pendingCommits :=
      entries.foldl (fun pending entry => pending.insert entry.index true) s.pendingCommits }
  | .serialize lastApplied =>
    some { s with critical := .createSnapshot lastApplied s.kvstore.serialize :: s.critical }
  | .createSnapshot lastApplied data =>
    let snapshot : Snapshot :=
      { lastIndex := lastApplied, lastTerm := s.node.currentTerm, data := data }
    if ¬ SnapshotManager.fitsFile data then some s
    else if lastApplied < 2 ^ 64 ∧ s.node.currentTerm < 2 ^ 64 then
      some { s.setSnapshots (SnapshotManager.cleanupOldSnapshots
          (SnapshotManager.createSnapshot s.wal.disk.snapshots snapshot)) with
        written := s.written ++ [(snapshot, s.node.log.entries)] }
    else none
  | .truncateFrom idx => (s.wal.truncateFrom idx).map fun wal => { s with wal }
  | .setSnapshotIndex idx => some { s with snapshotIndex := idx }

/-- `Start` on what is on disk, with the backend's file read last. -/
def start (config : ClusterConfig) (disk : Disk) (backendFile : Option Bytes) :
    Option KVServer := do
  let snapshot := SnapshotManager.loadLatestSnapshot disk.snapshots
  let data := (snapshot.map Snapshot.data).getD []
  let kvstore ← (if data = [] then some {} else (KVStore.deserialize {} data).map Prod.snd)
  let (entries, wal) ← (WAL.openDir disk).readAllEntries
  let kvstore := kvstore.restoreFromEntries entries
  some {
    config
    node := .ofSnapshot config snapshot
    kvstore := { kvstore with backend := kvstore.backend.loadFromDisk backendFile }
    wal
    backendFile
    applied := entries }

def accepted (n : RaftNode) (entry : RaftEntry) : Option RaftEntry :=
  match (n.propose entry).1 with
  | .ok index => some { entry with term := n.currentTerm, index }
  | .error _ => none

/-- `Propose` by a request. It asks for `mu_` only after it has seen the node lead. -/
def propose (s : KVServer) (entry : RaftEntry) : Option (Option RaftEntry × KVServer) :=
  if s.node.isLeader ∧ s.nodeLocked then none
  else some (accepted s.node entry, { s with node := (s.node.propose entry).2 })

/-- `Put` and `Delete` up to where they wait for the commit. -/
def submit (s : KVServer) (request : Request) (entry : RaftEntry) : Option KVServer :=
  (s.propose entry).map fun (accepted, s) =>
    let stage :=
      match accepted with
      | some entry => .waiting entry
      | none => .refused
    { s with clients := s.clients ++ [{ request, stage }] }

/-- What can happen next. Requests are numbered in the order in which they came. -/
inductive Event where
  | call (c : RaftNode.Call)
  | enterReady
  | readLastIndex
  | enterSnapshot
  | act
  | request (request : Request)
  | compare (i : Nat)
  | execute (i : Nat)
  | wake (i : Nat)
  | restart (closed : Bool)

def Event.proposes : Event → Bool
  | .request _ | .execute _ => true
  | _ => false

def Event.byClient : Event → Bool
  | .request _ | .compare _ | .execute _ | .wake _ => true
  | _ => false

def setStage (s : KVServer) (i : Nat) (client : Client) (stage : Stage) : KVServer :=
  { s with clients := s.clients.set i { client with stage } }

/-- One comparison of a transaction, or the choice of its branch when there are no more. -/
def compare (s : KVServer) (i : Nat) : Option KVServer := do
  let client ← s.clients[i]?
  match client.request, client.stage with
  | .txn _ success failure, .comparing [] met =>
    some (s.setStage i client (.executing (if met then success else failure) met []))
  | .txn _ _ _, .comparing (c :: rest) met =>
    some (s.setStage i client (.comparing rest (met && c.holds (s.kvstore.get c.key 0))))
  | _, _ => none

/-- One operation of a transaction, or its answer when there are no more. -/
def execute (s : KVServer) (i : Nat) : Option KVServer := do
  let client ← s.clients[i]?
  match client.stage with
  | .executing [] met results => some (s.setStage i client (.reported met results))
  | .executing (op :: rest) met results =>
    match op.entry with
    | none => some (s.setStage i client (.executing rest met results))
    | some entry =>
      (s.propose entry).map fun (accepted, s) =>
        s.setStage i client (.executing rest met (results ++ [accepted]))
  | _ => none

/-- The wait of `Put` and `Delete` ends, by the flag, by the time or because the server stops. -/
def wake (s : KVServer) (i : Nat) : Option KVServer := do
  let client ← s.clients[i]?
  match client.stage with
  | .waiting entry =>
    some { s.setStage i client (.succeeded entry) with
      pendingCommits := s.pendingCommits.erase entry.index }
  | _ => none

def step (s : KVServer) : Event → Option KVServer
  | .call c =>
    if s.nodeLocked ∧ ¬ lockFree c then none
    else
      (s.node.serve c).map fun node =>
        let calls := node.readyCalls.drop s.node.readyCalls.length
        { s with node := node, ready := if calls = [] then s.ready else some calls.flatten }
  | .enterReady =>
    match s.ready, s.critical with
    | some entries, [] => some { s with ready := none, critical := raftReadyHandler entries }
    | _, _ => none
  | .readLastIndex =>
    if s.lastApplied.isSome ∨ s.critical ≠ [] ∧ ¬ s.critical.any Action.isNotify then none
    else if SnapshotManager.shouldSnapshot s.node.log.lastIndex s.snapshotIndex then
      some { s with lastApplied := some s.node.log.lastIndex }
    else some s
  | .enterSnapshot =>
    match s.lastApplied, s.critical with
    | some lastApplied, [] =>
      some { s with lastApplied := none, critical := takeSnapshot lastApplied }
    | _, _ => none
  | .act =>
    match s.critical with
    | [] => none
    | action :: rest => { s with critical := rest }.perform action
  | .request (.put key value leaseId) =>
    s.submit (.put key value leaseId) { type := .put, key, value, leaseId }
  | .request (.delete key) => s.submit (.delete key) { type := .delete, key }
  | .request (.txn compares success failure) =>
    some { s with clients := s.clients ++
      [{ request := .txn compares success failure, stage := .comparing compares true }] }
  | .compare i => s.compare i
  | .execute i => s.execute i
  | .wake i => s.wake i
  | .restart closed =>
    if closed ∧ (s.ready.isSome ∨ s.critical ≠ []) then none
    else
      start s.config s.wal.disk
        (if closed then some s.kvstore.backend.flushToDisk else s.backendFile)

/-- The entry that an event gives to the store. -/
def processing (s : KVServer) : Event → Option RaftEntry
  | .act =>
    match s.critical with
    | .processEntry entry :: _ => some entry
    | _ => none
  | _ => none

variable {s s' : KVServer}

/-- What `Start` reads from the disk, and the server it makes of it. -/
theorem start_cases {config : ClusterConfig} {disk : Disk} {backendFile : Option Bytes}
    (h : start config disk backendFile = some s) : ∃ snapshot data kvstore entries wal,
    snapshot = SnapshotManager.loadLatestSnapshot disk.snapshots ∧
      data = (snapshot.map Snapshot.data).getD [] ∧
      (if data = [] then some {} else (KVStore.deserialize {} data).map Prod.snd) = some kvstore ∧
      (WAL.openDir disk).readAllEntries = some (entries, wal) ∧
      s = {
        config
        node := .ofSnapshot config snapshot
        kvstore := { kvstore.restoreFromEntries entries with
          backend := (kvstore.restoreFromEntries entries).backend.loadFromDisk backendFile }
        wal
        backendFile
        applied := entries } := by
  obtain ⟨kvstore, hkvstore, h⟩ := Option.bind_eq_some_iff.mp h
  obtain ⟨⟨entries, wal⟩, hread, h⟩ := Option.bind_eq_some_iff.mp h
  exact ⟨_, _, kvstore, entries, wal, rfl, rfl, hkvstore, hread, (Option.some.inj h).symm⟩

def fresh (config : ClusterConfig) : KVServer where
  config
  node := .ofConfig config
  wal := .openDir {}

theorem start_fresh (config : ClusterConfig) : start config {} none = some (fresh config) := by
  have hread : (WAL.openDir {}).readAllEntries = some ([], WAL.openDir {}) :=
    WAL.readAllEntries_openDir_empty rfl
  simp only [start, hread]
  rfl

/-- A call of the node hands at most one batch to the handler, and none while one is under way. -/
theorem step_call {c : RaftNode.Call} (h : s.step (.call c) = some s') :
    ∃ node calls, s.node.serve c = some node ∧ node.readyCalls = s.node.readyCalls ++ calls ∧
      (s.nodeLocked = true → calls = []) ∧
      s' = { s with node, ready := if calls = [] then s.ready else some calls.flatten } := by
  obtain ⟨hfree, h⟩ := Option.ite_none_left_eq_some.mp h
  obtain ⟨node, hserve, rfl⟩ := Option.map_eq_some_iff.mp h
  obtain ⟨calls, hcalls, _⟩ := RaftNode.serve_readyCalls hserve
  refine ⟨node, calls, hserve, hcalls, fun hlocked => ?_, by simp [hcalls]⟩
  have hc : lockFree c = true := by
    by_contra hc
    exact hfree ⟨hlocked, hc⟩
  have hsame : node.readyCalls = s.node.readyCalls := by
    cases c with
    | proposeBatch entry =>
      obtain rfl : (s.node.proposeBatch entry).2 = node := Option.some.inj hserve
      rcases s.node.proposeBatch_cases entry with ⟨_, heq⟩ | ⟨_, _, _, _, heq⟩
      · rw [heq]
      · rw [heq]
    | flushBatch =>
      obtain rfl : s.node.flushBatch = node := Option.some.inj hserve
      rcases s.node.flushBatch_cases with ⟨_, heq⟩ | ⟨_, heq⟩
      · rw [heq]
      · rw [heq]
    | _ => cases hc
  exact List.append_cancel_left (by rw [← hcalls, hsame, List.append_nil])

/-- A proposal is refused by a node that does not lead, or stands at the end of the log. -/
theorem propose_cases {entry : RaftEntry} {accepted : Option RaftEntry}
    (h : s.propose entry = some (accepted, s')) :
    s.node.state ≠ .leader ∧ accepted = none ∧ s' = s ∨
    s.node.state = .leader ∧ s.nodeLocked = false ∧ ∃ e : RaftEntry, e = { entry with
        term := s.node.currentTerm
        index := s.node.log.lastIndex + 1 } ∧
      accepted = some e ∧ s' = { s with node := s.node.recordProposal e } := by
  obtain ⟨hfree, h⟩ := Option.ite_none_left_eq_some.mp h
  obtain ⟨rfl, rfl⟩ := Prod.mk.inj (Option.some.inj h)
  by_cases hleads : s.node.state = .leader
  · refine .inr ⟨hleads, ?_, _, rfl, ?_⟩
    · by_contra hlocked
      exact hfree ⟨s.node.isLeader_iff.mpr hleads, eq_true_of_ne_false hlocked⟩
    · have hpropose : s.node.propose entry = (.ok (s.node.log.lastIndex + 1),
          s.node.recordProposal { entry with
            term := s.node.currentTerm
            index := s.node.log.lastIndex + 1 }) := by
        rw [RaftNode.propose, s.node.isLeader_iff.mpr hleads]
        rfl
      rw [accepted, hpropose]
      exact ⟨rfl, rfl⟩
  · refine .inl ⟨hleads, ?_, ?_⟩
    · rw [KVServer.accepted, RaftNode.propose_refused hleads]
    · rw [RaftNode.propose_refused hleads]

theorem submit_cases {request : Request} {entry : RaftEntry}
    (h : s.submit request entry = some s') : ∃ accepted t,
    s.propose entry = some (accepted, t) ∧ s' = { t with clients := t.clients ++ [{
      request
      stage := match accepted with
        | some entry => .waiting entry
        | none => .refused }] } := by
  obtain ⟨⟨accepted, t⟩, hpropose, rfl⟩ := Option.map_eq_some_iff.mp h
  exact ⟨accepted, t, hpropose, rfl⟩

theorem compare_cases {i : Nat} (h : s.compare i = some s') : ∃ client, s.clients[i]? = some client ∧
    ∃ compares success failure met, client.request = .txn compares success failure ∧
      (client.stage = .comparing [] met ∧
          s' = s.setStage i client (.executing (if met then success else failure) met []) ∨
        ∃ c rest, client.stage = .comparing (c :: rest) met ∧
          s' = s.setStage i client
            (.comparing rest (met && c.holds (s.kvstore.get c.key 0)))) := by
  obtain ⟨client, hclient, h⟩ := Option.bind_eq_some_iff.mp h
  refine ⟨client, hclient, ?_⟩
  split at h
  · rename_i success failure met hrequest hstage
    exact ⟨_, _, _, _, hrequest, .inl ⟨hstage, (Option.some.inj h).symm⟩⟩
  · rename_i c rest met hrequest hstage
    exact ⟨_, _, _, _, hrequest, .inr ⟨_, _, hstage, (Option.some.inj h).symm⟩⟩
  · cases h

theorem execute_cases {i : Nat} (h : s.execute i = some s') : ∃ client, s.clients[i]? = some client ∧
    ∃ met results,
      (client.stage = .executing [] met results ∧
          s' = s.setStage i client (.reported met results) ∨
        ∃ op rest, client.stage = .executing (op :: rest) met results ∧
          (op.entry = none ∧ s' = s.setStage i client (.executing rest met results) ∨
            ∃ entry accepted t, op.entry = some entry ∧ s.propose entry = some (accepted, t) ∧
              s' = t.setStage i client (.executing rest met (results ++ [accepted])))) := by
  obtain ⟨client, hclient, h⟩ := Option.bind_eq_some_iff.mp h
  refine ⟨client, hclient, ?_⟩
  split at h
  · rename_i met results hstage
    exact ⟨met, results, .inl ⟨hstage, (Option.some.inj h).symm⟩⟩
  · rename_i op rest met results hstage
    refine ⟨met, results, .inr ⟨op, rest, hstage, ?_⟩⟩
    split at h
    · rename_i hentry
      exact .inl ⟨hentry, (Option.some.inj h).symm⟩
    · rename_i entry hentry
      obtain ⟨⟨accepted, t⟩, hpropose, rfl⟩ := Option.map_eq_some_iff.mp h
      exact .inr ⟨entry, accepted, t, hentry, hpropose, rfl⟩
  · cases h

theorem wake_cases {i : Nat} (h : s.wake i = some s') : ∃ client entry,
    s.clients[i]? = some client ∧ client.stage = .waiting entry ∧
      s' = { s.setStage i client (.succeeded entry) with
        pendingCommits := s.pendingCommits.erase entry.index } := by
  obtain ⟨client, hclient, h⟩ := Option.bind_eq_some_iff.mp h
  split at h
  · rename_i entry hstage
    exact ⟨client, entry, hclient, hstage, (Option.some.inj h).symm⟩
  · cases h

theorem step_act (h : s.step .act = some s') : ∃ action rest, s.critical = action :: rest ∧
    { s with critical := rest }.perform action = some s' := by
  dsimp only [step] at h
  split at h
  · cases h
  · exact ⟨_, _, ‹_›, h⟩

theorem step_enterReady (h : s.step .enterReady = some s') : ∃ entries,
    s.ready = some entries ∧ s.critical = [] ∧
      s' = { s with ready := none, critical := raftReadyHandler entries } := by
  dsimp only [step] at h
  split at h
  · exact ⟨_, ‹_›, ‹_›, (Option.some.inj h).symm⟩
  · cases h

theorem step_enterSnapshot (h : s.step .enterSnapshot = some s') : ∃ lastApplied,
    s.lastApplied = some lastApplied ∧ s.critical = [] ∧
      s' = { s with lastApplied := none, critical := takeSnapshot lastApplied } := by
  dsimp only [step] at h
  split at h
  · exact ⟨_, ‹_›, ‹_›, (Option.some.inj h).symm⟩
  · cases h

theorem step_readLastIndex (h : s.step .readLastIndex = some s') : s' = s ∨
    SnapshotManager.shouldSnapshot s.node.log.lastIndex s.snapshotIndex = true ∧
      s' = { s with lastApplied := some s.node.log.lastIndex } := by
  obtain ⟨_, h⟩ := Option.ite_none_left_eq_some.mp h
  split_ifs at h with hshould
  · exact .inr ⟨hshould, (Option.some.inj h).symm⟩
  · exact .inl (Option.some.inj h).symm

/-- A request for one operation proposes its entry, and a transaction starts with its comparisons. -/
theorem step_request {request : Request} (h : s.step (.request request) = some s') :
    (∃ entry, request.entry = some entry ∧ s.submit request entry = some s') ∨
    ∃ compares success failure, request = .txn compares success failure ∧
      s' = { s with clients := s.clients ++ [{ request, stage := .comparing compares true }] } := by
  cases request with
  | put key value leaseId => exact .inl ⟨_, rfl, h⟩
  | delete key => exact .inl ⟨_, rfl, h⟩
  | txn compares success failure => exact .inr ⟨_, _, _, rfl, (Option.some.inj h).symm⟩

/-- A step of a request is about the requests and their flags, and it may put an entry of a leader at
the end of its log. -/
theorem step_byClient {event : Event} (hclient : event.byClient = true)
    (h : s.step event = some s') : ∃ node clients pendingCommits,
    s' = { s with node, clients, pendingCommits } ∧
      (node = s.node ∨ event.proposes = true ∧ s.node.state = .leader ∧
        ∃ e : RaftEntry, e.index = s.node.log.lastIndex + 1 ∧ node = s.node.recordProposal e) := by
  have hpropose {entry : RaftEntry} {accepted : Option RaftEntry} {t : KVServer}
      (hp : s.propose entry = some (accepted, t)) : ∃ node, t = { s with node } ∧
        (node = s.node ∨ s.node.state = .leader ∧
          ∃ e : RaftEntry, e.index = s.node.log.lastIndex + 1 ∧
            node = s.node.recordProposal e) := by
    rcases propose_cases hp with ⟨_, _, rfl⟩ | ⟨hleads, _, e, he, _, rfl⟩
    · exact ⟨_, rfl, .inl rfl⟩
    · exact ⟨_, rfl, .inr ⟨hleads, e, by rw [he], rfl⟩⟩
  cases event with
  | request request =>
    rcases step_request h with ⟨entry, _, hsubmit⟩ | ⟨_, _, _, _, rfl⟩
    · obtain ⟨_, _, hp, rfl⟩ := submit_cases hsubmit
      obtain ⟨node, rfl, hnode⟩ := hpropose hp
      exact ⟨node, _, _, rfl, hnode.imp_right fun h => ⟨rfl, h⟩⟩
    · exact ⟨_, _, _, rfl, .inl rfl⟩
  | compare i =>
    obtain ⟨_, _, _, _, _, _, _, ⟨_, rfl⟩ | ⟨_, _, _, rfl⟩⟩ := compare_cases h
    · exact ⟨_, _, _, rfl, .inl rfl⟩
    · exact ⟨_, _, _, rfl, .inl rfl⟩
  | execute i =>
    obtain ⟨_, _, _, _, ⟨_, rfl⟩ | ⟨_, _, _, ⟨_, rfl⟩ | ⟨_, _, _, _, hp, rfl⟩⟩⟩ := execute_cases h
    · exact ⟨_, _, _, rfl, .inl rfl⟩
    · exact ⟨_, _, _, rfl, .inl rfl⟩
    · obtain ⟨node, rfl, hnode⟩ := hpropose hp
      exact ⟨node, _, _, rfl, hnode.imp_right fun h => ⟨rfl, h⟩⟩
  | wake i =>
    obtain ⟨_, _, _, _, rfl⟩ := wake_cases h
    exact ⟨_, _, _, rfl, .inl rfl⟩
  | _ => cases hclient

/-- What an action does to everything but the disk. -/
structure Performed (s : KVServer) (action : Action) (s' : KVServer) : Prop where
  config : s'.config = s.config
  node : s'.node = s.node
  ready : s'.ready = s.ready
  lastApplied : s'.lastApplied = s.lastApplied
  clients : s'.clients = s.clients
  backendFile : s'.backendFile = s.backendFile
  kvstore : s'.kvstore = EtcdServer.processRaftEntries s.kvstore action.processed
  applied : s'.applied = s.applied ++ action.processed
  logged : s'.logged = s.logged ++ action.appended
  pendingCommits : s'.pendingCommits = (action.notified.map RaftEntry.index).foldl
    (fun pending i => pending.insert i true) s.pendingCommits
  critical : s'.critical = action.next s.kvstore ++ s.critical

theorem perform_performed {action : Action} (h : s.perform action = some s') :
    Performed s action s' := by
  have hsame {t : KVServer} (ha : action.processed = [] ∧ action.appended = [] ∧
      action.notified = [] ∧ action.next s.kvstore = []) (ht : t = { s with
        wal := t.wal
        snapshotIndex := t.snapshotIndex
        written := t.written }) : Performed s action t := by
    obtain ⟨hprocessed, happended, hnotified, hnext⟩ := ha
    rw [ht]
    constructor <;> simp [hprocessed, happended, hnotified, hnext, EtcdServer.processRaftEntries]
  cases action with
  | processEntry entry =>
    obtain rfl := Option.some.inj h
    constructor <;> simp [Action.processed, Action.appended, Action.notified, Action.next,
      EtcdServer.processRaftEntries]
  | appendEntries entries =>
    obtain rfl := Option.some.inj h
    constructor <;> simp [Action.processed, Action.appended, Action.notified, Action.next,
      EtcdServer.processRaftEntries]
  | notify entries =>
    obtain rfl := Option.some.inj h
    constructor <;> simp [Action.processed, Action.appended, Action.notified, Action.next,
      EtcdServer.processRaftEntries, List.foldl_map]
  | serialize lastApplied =>
    obtain rfl := Option.some.inj h
    constructor <;> simp [Action.processed, Action.appended, Action.notified, Action.next,
      EtcdServer.processRaftEntries]
  | createSnapshot lastApplied data =>
    dsimp only [perform] at h
    split_ifs at h
    · obtain rfl := Option.some.inj h
      exact hsame ⟨rfl, rfl, rfl, rfl⟩ rfl
    · obtain rfl := Option.some.inj h
      exact hsame ⟨rfl, rfl, rfl, rfl⟩ rfl
  | truncateFrom idx =>
    obtain ⟨_, _, rfl⟩ := Option.map_eq_some_iff.mp h
    exact hsame ⟨rfl, rfl, rfl, rfl⟩ rfl
  | saveHardState =>
    obtain rfl := Option.some.inj h
    exact hsame ⟨rfl, rfl, rfl, rfl⟩ rfl
  | setSnapshotIndex idx =>
    obtain rfl := Option.some.inj h
    exact hsame ⟨rfl, rfl, rfl, rfl⟩ rfl

/-- What is the same after a step that is neither an action of a handler nor a restart. -/
structure Undisturbed (s s' : KVServer) : Prop where
  kvstore : s'.kvstore = s.kvstore
  wal : s'.wal = s.wal
  applied : s'.applied = s.applied
  logged : s'.logged = s.logged
  written : s'.written = s.written
  lastApplied : ∀ n, s'.lastApplied = some n →
    s.lastApplied = some n ∨ SnapshotManager.shouldSnapshot n s.snapshotIndex = true
  critical : s'.critical = s.critical ∨ s.critical = [] ∧
    ((∃ entries, s'.critical = raftReadyHandler entries) ∨
      ∃ n, s.lastApplied = some n ∧ s'.critical = takeSnapshot n)

theorem step_undisturbed {event : Event} (hact : event ≠ .act)
    (hrunning : ∀ closed, event ≠ .restart closed) (h : s.step event = some s') :
    Undisturbed s s' := by
  have hsame : Undisturbed s s := ⟨rfl, rfl, rfl, rfl, rfl, fun _ hn => .inl hn, .inl rfl⟩
  have hclient (hclient : event.byClient = true) : Undisturbed s s' := by
    obtain ⟨_, _, _, rfl, _⟩ := step_byClient hclient h
    exact ⟨rfl, rfl, rfl, rfl, rfl, fun _ hn => .inl hn, .inl rfl⟩
  cases event with
  | call c =>
    obtain ⟨_, _, _, _, _, rfl⟩ := step_call h
    exact ⟨rfl, rfl, rfl, rfl, rfl, fun _ hn => .inl hn, .inl rfl⟩
  | enterReady =>
    obtain ⟨entries, _, hnone, rfl⟩ := step_enterReady h
    exact ⟨rfl, rfl, rfl, rfl, rfl, fun _ hn => .inl hn, .inr ⟨hnone, .inl ⟨entries, rfl⟩⟩⟩
  | readLastIndex =>
    rcases step_readLastIndex h with rfl | ⟨hshould, rfl⟩
    · exact hsame
    · refine ⟨rfl, rfl, rfl, rfl, rfl, fun n hn => .inr ?_, .inl rfl⟩
      obtain rfl := Option.some.inj hn
      exact hshould
  | enterSnapshot =>
    obtain ⟨n, hn, hnone, rfl⟩ := step_enterSnapshot h
    exact ⟨rfl, rfl, rfl, rfl, rfl, fun m hm => (by cases hm), .inr ⟨hnone, .inr ⟨n, hn, rfl⟩⟩⟩
  | act => exact absurd rfl hact
  | restart closed => exact absurd rfl (hrunning closed)
  | _ => exact hclient rfl

theorem processed_next (kvstore : KVStore) (action : Action) :
    (action.next kvstore).flatMap Action.processed = [] := by
  cases action <;> rfl

theorem appended_next (kvstore : KVStore) (action : Action) :
    (action.next kvstore).flatMap Action.appended = [] := by
  cases action <;> rfl

/-- The handler gives all its entries to the store, and then all of them to the log on disk. -/
theorem processed_raftReadyHandler (entries : List RaftEntry) :
    (raftReadyHandler entries).flatMap Action.processed = entries := by
  have hmap : (entries.map Action.processEntry).flatMap Action.processed = entries := by
    rw [List.flatMap_map]
    exact List.flatMap_singleton' entries
  rw [raftReadyHandler, List.flatMap_append, hmap]
  simp [Action.processed]

theorem appended_raftReadyHandler (entries : List RaftEntry) :
    (raftReadyHandler entries).flatMap Action.appended = entries := by
  have hmap : (entries.map Action.processEntry).flatMap Action.appended = [] := by
    rw [List.flatMap_map]
    exact List.flatMap_eq_nil_iff.mpr fun e _ => rfl
  rw [raftReadyHandler, List.flatMap_append, hmap]
  simp [Action.appended]

/-- What an event of a running server does to the store. -/
theorem kvstore_step {event : Event} (hrunning : ∀ closed, event ≠ .restart closed)
    (h : s.step event = some s') :
    s'.kvstore = EtcdServer.processRaftEntries s.kvstore (s.processing event).toList := by
  by_cases hact : event = .act
  · subst hact
    obtain ⟨action, rest, hcritical, hperform⟩ := step_act h
    have hprocessing : (s.processing .act).toList = action.processed := by
      simp only [processing, hcritical]
      cases action with
      | processEntry entry => rfl
      | _ => rfl
    rw [(perform_performed hperform).kvstore, hprocessing]
  · have hnone : s.processing event = none := by
      cases event with
      | act => exact absurd rfl hact
      | _ => rfl
    rw [(step_undisturbed hact hrunning h).kvstore, hnone]
    rfl

end KVServer
end MyEtcd
