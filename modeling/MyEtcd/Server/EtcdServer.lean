import MyEtcd.Raft.Service
import MyEtcd.Snapshot.SnapshotManager

/-! The server around a node: what its handlers write to disk and answer, and what `Start` reads.
Every handler does its effects in order, and the handlers take turns in any way. -/
namespace MyEtcd
open Library

/-- Something a handler does apart from changing the node. -/
inductive Effect where
  | appendEntries (entries : List RaftEntry)
  | saveHardState
  | createSnapshot (lastIndex : Nat) (data : Bytes)
  | cleanupOldSnapshots
  | truncateFrom (idx : Nat)
  | setSnapshotIndex (idx : Nat)
  | answerVote (req : RequestVoteRequest) (resp : RequestVoteResponse)
  | answerAppend (req : AppendEntriesRequest) (resp : AppendEntriesResponse)

structure EtcdServer where
  node : RaftNode
  wal : WAL
  snapshotIndex : Nat := 0
  /-- What each handler has left to do. -/
  handlers : List (List Effect) := []

namespace EtcdServer

/-- What `Start` finds on disk, and the server it leaves running. The hard state is printed, the
snapshot is given to the node, and the entries go to the key-value store. -/
structure Started where
  hardState : Option RaftHardState
  snapshot : Option Snapshot
  entries : List RaftEntry
  server : EtcdServer

def start (config : ClusterConfig) (disk : Disk) : Option Started := do
  let hardState := WAL.loadHardState disk
  let snapshot := SnapshotManager.loadLatestSnapshot disk.snapshots
  let (entries, wal) ← (WAL.openDir disk).readAllEntries
  some { hardState, snapshot, entries, server := { node := .ofSnapshot config snapshot, wal } }

def raftReadyHandler (entries : List RaftEntry) : List Effect :=
  [.appendEntries entries, .saveHardState]

/-- The answer to a request, which goes out when the handler has nothing else to do. -/
def answer (n : RaftNode) : RaftNode.Call → List Effect
  | .handleRequestVote req => [.answerVote req (n.handleRequestVote req).1]
  | .handleAppendEntries req => [.answerAppend req (n.handleAppendEntries req).1]
  | _ => []

/-- A call changes the node, and its handler goes on with what `ready_handler_` was called for. -/
def call (s : EtcdServer) (c : RaftNode.Call) : EtcdServer :=
  let node := s.node.after c
  let calls := node.readyCalls.drop s.node.readyCalls.length
  { s with
    node := node
    handlers := s.handlers ++ [calls.flatMap raftReadyHandler ++ answer s.node c] }

/-- One round of `SnapshotLoop`, `data` being what the store serializes. -/
def snapshotLoop (s : EtcdServer) (data : Bytes) : EtcdServer :=
  let lastApplied := s.node.log.lastIndex
  if SnapshotManager.shouldSnapshot lastApplied s.snapshotIndex then
    let create :=
      if SnapshotManager.fitsFile data then
        [.createSnapshot lastApplied data, .cleanupOldSnapshots]
      else []
    { s with handlers := s.handlers ++
        [create ++ [.truncateFrom lastApplied, .setSnapshotIndex lastApplied]] }
  else s

def setSnapshots (s : EtcdServer) (files : OrderedMap Nat Bytes) : EtcdServer :=
  { s with wal := { s.wal with disk := { s.wal.disk with snapshots := files } } }

/-- An effect on the server. Terms and indices of a snapshot are the machine's, of 64 bits. -/
def perform (s : EtcdServer) : Effect → Option EtcdServer
  | .appendEntries entries => some { s with wal := s.wal.appendEntries entries }
  | .saveHardState =>
    let state : RaftHardState :=
      { currentTerm := s.node.currentTerm, commitIndex := s.node.log.lastIndex }
    some { s with wal := s.wal.saveHardState state }
  | .createSnapshot lastIndex data =>
    if lastIndex < 2 ^ 64 ∧ s.node.currentTerm < 2 ^ 64 then
      some (s.setSnapshots (SnapshotManager.createSnapshot s.wal.disk.snapshots
        { lastIndex, lastTerm := s.node.currentTerm, data }))
    else none
  | .cleanupOldSnapshots =>
    some (s.setSnapshots (SnapshotManager.cleanupOldSnapshots s.wal.disk.snapshots))
  | .truncateFrom idx => (s.wal.truncateFrom idx).map fun wal => { s with wal }
  | .setSnapshotIndex idx => some { s with snapshotIndex := idx }
  | .answerVote _ _ => some s
  | .answerAppend _ _ => some s

/-- The disk in the middle of an effect, `n` telling how far it has come. Renaming is atomic. -/
def midway (s : EtcdServer) (n : Nat) : Effect → Option Disk
  | .appendEntries entries => some (s.wal.appendEntriesPartly entries n)
  | .truncateFrom idx => s.wal.truncateFromPartly idx n
  | .cleanupOldSnapshots =>
    some (s.setSnapshots (SnapshotManager.cleanupPartly s.wal.disk.snapshots n)).wal.disk
  | _ => some s.wal.disk

/-- The disk a crash leaves behind while the handler in place `k`, if any, is at work. -/
def crash (s : EtcdServer) (k n : Nat) : Option Disk :=
  match s.handlers[k]? with
  | some (effect :: _) => s.midway n effect
  | _ => some s.wal.disk

end EtcdServer
end MyEtcd
