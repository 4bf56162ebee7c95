import Mathlib.Data.List.Sort
import MyEtcd.Raft.RaftLog
import MyEtcd.Raft.Transport

/-! The consensus node: state transitions, proposals, replication, commit and apply.
Every method is a function on the node's state. The blocking calls of `StartElection` and
`BroadcastHeartbeat` are cut there: one function builds the request, another takes the answer. -/
namespace MyEtcd
open Library

structure RaftNode where
  nodeId : Nat
  currentTerm : Nat := 0
  votedFor : Nat := 0
  log : RaftLog := {}
  commitIndex : Nat := 0
  lastApplied : Nat := 0
  state : NodeState := .follower
  leaderId : Nat := 0
  nextIndex : OrderedMap Nat Nat := ∅
  matchIndex : OrderedMap Nat Nat := ∅
  peers : OrderedMap Nat Unit := ∅
  pendingCommitted : List RaftEntry := []
  batchBuffer : List RaftEntry := []
  /-- The arguments `ready_handler_` was called with, oldest first. -/
  readyCalls : List (List RaftEntry) := []
  /-- The arguments `conf_change_handler_` was called with, oldest first. -/
  confChangeCalls : List ConfChange := []

namespace RaftNode

/-- The constructor: every configured address but the node's own is a peer. -/
def ofConfig (config : ClusterConfig) : RaftNode where
  nodeId := config.nodeId
  peers := config.peerAddresses.keys.foldl
    (fun peers id => if id ≠ config.nodeId then peers.insert id () else peers) ∅

/-- The entries handed to `ready_handler_` so far, in order. -/
def delivered (n : RaftNode) : List RaftEntry := n.readyCalls.flatten

def isLeader (n : RaftNode) : Bool := n.state = .leader

def becomeFollowerLocked (n : RaftNode) (term : Nat) : RaftNode :=
  let n := if term > n.currentTerm then { n with currentTerm := term, votedFor := 0 } else n
  { n with state := .follower }

def becomeCandidateLocked (n : RaftNode) : RaftNode :=
  { n with
    state := .candidate
    currentTerm := n.currentTerm + 1
    votedFor := n.nodeId
    leaderId := 0 }

def becomeLeaderLocked (n : RaftNode) : RaftNode :=
  let lastIdx := n.log.lastIndex
  { n with
    state := .leader
    leaderId := n.nodeId
    nextIndex := n.peers.keys.foldl (fun m peer => m.insert peer (lastIdx + 1)) ∅
    matchIndex := n.peers.keys.foldl (fun m peer => m.insert peer 0) ∅ }

/-- What `StartElection` reads before its first call, and sends to every peer. -/
def voteRequest (n : RaftNode) : RequestVoteRequest where
  term := n.currentTerm
  candidateId := n.nodeId
  lastLogIndex := n.log.lastIndex
  lastLogTerm := n.log.lastTerm

/-- `needed` of `StartElection` and `majority` of `AdvanceCommitIndex`. -/
def majority (n : RaftNode) : Nat := (n.peers.size + 1) / 2 + 1

/-- Append an accepted entry and record it as the node's own match, as `Propose` and
`ProposeConfChange` do. -/
def recordProposal (n : RaftNode) (e : RaftEntry) : RaftNode :=
  { n with log := n.log.append e, matchIndex := n.matchIndex.insert n.nodeId e.index }

def propose (n : RaftNode) (entry : RaftEntry) : Except String Nat × RaftNode :=
  if ¬ n.isLeader then (.error s!"not leader, current leader is {n.leaderId}", n)
  else
    let e := { entry with term := n.currentTerm, index := n.log.lastIndex + 1 }
    (.ok e.index, n.recordProposal e)

def proposeBatch (n : RaftNode) (entry : RaftEntry) : Except String Nat × RaftNode :=
  if ¬ n.isLeader then (.error s!"not leader, current leader is {n.leaderId}", n)
  else
    let e := { entry with
      term := n.currentTerm
      index := n.log.lastIndex + 1 + n.batchBuffer.length }
    (.ok e.index, { n with batchBuffer := n.batchBuffer ++ [e] })

/-- The buffered entries with the indices `FlushBatch` gives them; their terms stay as buffered. -/
def renumberedBatch (n : RaftNode) : List RaftEntry :=
  n.batchBuffer.mapIdx fun i e => { e with index := n.log.lastIndex + 1 + i }

def flushBatch (n : RaftNode) : RaftNode :=
  match n.renumberedBatch.getLast? with
  | none => n
  | some back =>
    { n with
      batchBuffer := []
      log := n.log.appendAll n.renumberedBatch
      matchIndex := n.matchIndex.insert n.nodeId back.index }

def proposeConfChange (n : RaftNode) (cc : ConfChange) : Except String Nat × RaftNode :=
  if ¬ n.isLeader then (.error "not leader", n)
  else
    let e : RaftEntry :=
      { term := n.currentTerm, index := n.log.lastIndex + 1, type := .confChange, confChange := cc }
    (.ok e.index, n.recordProposal e)

def maxEntriesPerMsg : Nat := 128

/-- The request `BroadcastHeartbeat` builds for `peer`. A missing `next_index_` reads as zero. -/
def appendRequest (n : RaftNode) (peer currentCommit : Nat) : AppendEntriesRequest :=
  let next := n.nextIndex.getD peer 0
  { term := n.currentTerm
    leaderId := n.nodeId
    prevLogIndex := predIndex next
    prevLogTerm := n.log.termAt (predIndex next)
    entries := (n.log.entriesFrom next 0).take maxEntriesPerMsg
    leaderCommit := currentCommit }

/-- The binary search of `FindConflictTermIndex` on the range from `lo` to `hi`. -/
def conflictSearch (log : RaftLog) (conflictTerm lo hi : Nat) : Nat :=
  if lo < hi then
    let mid := lo + (hi - lo) / 2
    if log.termAt mid < conflictTerm then conflictSearch log conflictTerm (mid + 1) hi
    else conflictSearch log conflictTerm lo mid
  else lo
  termination_by hi - lo

def findConflictTermIndex (n : RaftNode) (conflictTerm conflictIndexHint : Nat) : Nat :=
  let first := n.log.firstIndex
  let last := n.log.lastIndex
  let hasTerm := (List.range' first (last + 1 - first)).any fun i => n.log.termAt i = conflictTerm
  if ¬ hasTerm then if conflictIndexHint > 0 then conflictIndexHint else 1
  else
    let result := conflictSearch n.log conflictTerm first (last + 1)
    if result ≥ first ∧ result ≤ last ∧ n.log.termAt result = conflictTerm then result
    else if conflictIndexHint > 0 then conflictIndexHint
    else if first > 0 then first
    else 1

/-- The value `next_index_[peer]` falls back to when the peer rejects a request. -/
def nextAfterReject (n : RaftNode) (peer : Nat) (resp : AppendEntriesResponse) : Nat :=
  let next := n.nextIndex.getD peer 0
  let back := if next > 1 then next - 1 else next
  if resp.conflictTerm > 0 then
    let newNext := n.findConflictTermIndex resp.conflictTerm resp.conflictIndex
    if newNext > 0 ∧ newNext < next then newNext
    else if resp.conflictIndex > 0 ∧ resp.conflictIndex < next then resp.conflictIndex
    else back
  else if resp.conflictIndex > 0 then
    if resp.conflictIndex < next then resp.conflictIndex else back
  else back

/-- What `BroadcastHeartbeat` does with the answer of `peer` to a request with `entries`.
On a larger term it steps down, and the loop over the peers ends. -/
def appendResponse (n : RaftNode) (peer : Nat) (entries : List RaftEntry)
    (resp : AppendEntriesResponse) : RaftNode :=
  if resp.term > n.currentTerm then n.becomeFollowerLocked resp.term
  else if resp.success then
    match entries.getLast? with
    | some back =>
      { n with
        matchIndex := n.matchIndex.insert peer back.index
        nextIndex := n.nextIndex.insert peer (back.index + 1) }
    | none =>
      { n with
        matchIndex := n.matchIndex.insert peer (max (n.matchIndex.getD peer 0) resp.lastLogIndex) }
  else { n with nextIndex := n.nextIndex.insert peer (n.nextAfterReject peer resp) }

/-- The list `AdvanceCommitIndex` sorts: its own last index, then every value of `match_index_`. -/
def matchIndices (n : RaftNode) : List Nat := n.log.lastIndex :: n.matchIndex.values

def advanceCommitIndex (n : RaftNode) : RaftNode :=
  if n.state ≠ .leader then n
  else
    let sorted := n.matchIndices.insertionSort (· ≥ ·)
    if n.majority ≤ sorted.length then
      let newCommit := sorted.getD (n.majority - 1) 0
      if newCommit > n.commitIndex ∧ n.log.termAt newCommit = n.currentTerm then
        { n with commitIndex := newCommit }
      else n
    else n

def applyConfChange (n : RaftNode) (cc : ConfChange) : RaftNode :=
  if cc.nodeId = 0 then n
  else
    match cc.type with
    | .addNode =>
      if n.peers.contains cc.nodeId then n
      else
        let n := { n with peers := n.peers.insert cc.nodeId () }
        let n :=
          if n.isLeader then
            { n with
              nextIndex := n.nextIndex.insert cc.nodeId (n.log.lastIndex + 1)
              matchIndex := n.matchIndex.insert cc.nodeId 0 }
          else n
        { n with confChangeCalls := n.confChangeCalls ++ [cc] }
    | .removeNode =>
      if cc.nodeId = n.nodeId then n
      else
        let remaining := n.peers.size - 1
        if n.peers.contains cc.nodeId ∧ remaining + 1 < (remaining + 1) / 2 + 1 then n
        else
          { n with
            peers := n.peers.erase cc.nodeId
            nextIndex := n.nextIndex.erase cc.nodeId
            matchIndex := n.matchIndex.erase cc.nodeId
            confChangeCalls := n.confChangeCalls ++ [cc] }
    | .other _ _ => n

def applyCommittedEntries (n : RaftNode) : RaftNode :=
  let committed := n.commitIndex
  let applied := n.lastApplied
  if committed > applied then
    let entries := n.log.slice (applied + 1) (committed + 1)
    let n := (entries.filter (fun e => e.type = .confChange)).foldl
      (fun n e => n.applyConfChange e.confChange) n
    let n := { n with
      pendingCommitted := n.pendingCommitted ++ entries
      lastApplied := committed }
    if entries.isEmpty then n else { n with readyCalls := n.readyCalls ++ [entries] }
  else n

def handleRequestVote (n : RaftNode) (req : RequestVoteRequest) : RequestVoteResponse × RaftNode :=
  if req.term < n.currentTerm then (⟨n.currentTerm, false⟩, n)
  else
    let n := if req.term > n.currentTerm then n.becomeFollowerLocked req.term else n
    if n.votedFor = 0 ∨ n.votedFor = req.candidateId then
      let logOk := req.lastLogTerm > n.log.lastTerm ∨
        req.lastLogTerm = n.log.lastTerm ∧ req.lastLogIndex ≥ n.log.lastIndex
      if logOk then (⟨req.term, true⟩, { n with votedFor := req.candidateId })
      else (⟨req.term, false⟩, n)
    else (⟨req.term, false⟩, n)

/-- The scan for the first index of the conflicting term; zero when the loop does not break. -/
def conflictScan (log : RaftLog) (conflictTerm : Nat) : Nat → Nat
  | 0 => 0
  | i + 1 =>
    if i + 1 < log.firstIndex then 0
    else if log.termAt (i + 1) ≠ conflictTerm then i + 2
    else conflictScan log conflictTerm i

/-- Conflict information a follower adds when the entry before the new ones does not match. -/
def rejection (log : RaftLog) (req : AppendEntriesRequest) : AppendEntriesResponse :=
  let conflictTerm := log.termAt req.prevLogIndex
  let scanned := conflictScan log conflictTerm req.prevLogIndex
  { term := req.term
    success := false
    lastLogIndex := log.lastIndex
    conflictIndex := if scanned = 0 then log.firstIndex else scanned
    conflictTerm := conflictTerm }

/-- The consistency check of `HandleAppendEntries`. -/
def prevMatches (log : RaftLog) (req : AppendEntriesRequest) : Bool :=
  req.prevLogIndex = 0 ∨ log.termAt req.prevLogIndex = req.prevLogTerm

/-- The truncation and the append of `HandleAppendEntries`. -/
def storeEntries (log : RaftLog) (entries : List RaftEntry) : RaftLog :=
  match entries with
  | [] => log
  | front :: _ => (log.truncateTo (predIndex front.index)).appendAll entries

def handleAppendEntries (n : RaftNode) (req : AppendEntriesRequest) :
    AppendEntriesResponse × RaftNode :=
  if req.term < n.currentTerm then
    ({ term := n.currentTerm, success := false, lastLogIndex := n.log.lastIndex }, n)
  else
    let n := { n.becomeFollowerLocked req.term with leaderId := req.leaderId }
    if ¬ prevMatches n.log req then (rejection n.log req, n)
    else
      let n := { n with log := storeEntries n.log req.entries }
      let n :=
        if req.leaderCommit > n.commitIndex then
          { n with commitIndex := min req.leaderCommit n.log.lastIndex }.applyCommittedEntries
        else n
      ({ term := req.term, success := true, lastLogIndex := n.log.lastIndex }, n)

def applySnapshot (n : RaftNode) (snapshot : Snapshot) : RaftNode :=
  if snapshot.lastIndex < n.commitIndex then n
  else
    { n with
      log := n.log.restore snapshot.lastIndex
      commitIndex := snapshot.lastIndex
      lastApplied := snapshot.lastIndex
      currentTerm :=
        if snapshot.lastTerm > n.currentTerm then snapshot.lastTerm else n.currentTerm }

end RaftNode
end MyEtcd
