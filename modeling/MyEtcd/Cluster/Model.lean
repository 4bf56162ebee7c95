import Mathlib.Logic.Function.Basic
import MyEtcd.Library.Execution
import MyEtcd.Raft.RaftNode

/-! A cluster of nodes with one worker thread each, and the calls between them.
Calls and answers are never removed from the network: each may be taken up at any later time, any
number of times, or never. A caller may also give up and see the call as failed. -/
namespace MyEtcd
open Library

/-- How far the worker thread of a node is in `Run`. A thread inside `StartElection` or
`BroadcastHeartbeat` carries the local variables that are still read. -/
inductive RunPoint where
  | loop
  | election
  | collecting (req : RequestVoteRequest) (votes : Nat) (rest : List Nat)
  | awaitVote (req : RequestVoteRequest) (votes : Nat) (rest : List Nat) (call : Nat)
  | heartbeat
  | replicating (commit : Nat) (rest : List Nat)
  | awaitAppend (commit : Nat) (rest : List Nat) (call : Nat)
  | advance
  | apply
  deriving DecidableEq

structure Call (Request : Type) where
  source : Nat
  dest : Nat
  request : Request

/-- A call is known by its position in the list of all calls made so far. -/
structure Cluster where
  node : Nat → RaftNode
  point : Nat → RunPoint
  voteCalls : List (Call RequestVoteRequest) := []
  voteReplies : List (Nat × RequestVoteResponse) := []
  appendCalls : List (Call AppendEntriesRequest) := []
  appendReplies : List (Nat × AppendEntriesResponse) := []

namespace Cluster

def start (addresses : OrderedMap Nat Bytes) : Cluster where
  node := fun i => .ofConfig ⟨i, addresses⟩
  point := fun _ => .loop

def setNode (s : Cluster) (i : Nat) (n : RaftNode) : Cluster :=
  { s with node := Function.update s.node i n }

def setPoint (s : Cluster) (i : Nat) (p : RunPoint) : Cluster :=
  { s with point := Function.update s.point i p }

inductive Action where
  | timeout (i : Nat)
  | enterElection (i : Nat)
  | beginElection (i : Nat)
  | sendVote (i : Nat)
  | recvVote (i : Nat) (resp : RequestVoteResponse)
  | finishElection (i : Nat)
  | enterHeartbeat (i : Nat)
  | beginHeartbeat (i : Nat)
  | sendAppend (i : Nat)
  | recvAppend (i : Nat) (resp : AppendEntriesResponse)
  | finishHeartbeat (i : Nat)
  | advance (i : Nat)
  | apply (i : Nat)
  | handleVote (call : Nat)
  | handleAppend (call : Nat)
  | propose (i : Nat) (entry : RaftEntry)
  | proposeBatch (i : Nat) (entry : RaftEntry)
  | flushBatch (i : Nat)

/-- One atomic step. The first three cases of `Run` are taken by configured nodes only; proposals
carry no membership change, so the configuration stays as it is. -/
def step (addresses : OrderedMap Nat Bytes) (s : Cluster) : Action → Option Cluster
  | .timeout i =>
    if i ∈ addresses.keys ∧ s.point i = .loop ∧ (s.node i).state = .follower then
      some (s.setNode i (s.node i).becomeCandidateLocked)
    else none
  | .enterElection i =>
    if i ∈ addresses.keys ∧ s.point i = .loop ∧ (s.node i).state = .candidate then
      some (s.setPoint i .election)
    else none
  | .beginElection i =>
    if s.point i = .election then
      if (s.node i).peers.keys = [] then
        some ((s.setNode i (s.node i).becomeLeaderLocked).setPoint i .loop)
      else some (s.setPoint i (.collecting (s.node i).voteRequest 1 (s.node i).peers.keys))
    else none
  | .sendVote i =>
    match s.point i with
    | .collecting req votes (peer :: rest) =>
      some { s.setPoint i (.awaitVote req votes rest s.voteCalls.length) with
        voteCalls := s.voteCalls ++ [⟨i, peer, req⟩] }
    | _ => none
  | .recvVote i resp =>
    match s.point i with
    | .awaitVote req votes rest call =>
      if resp = .unreachable ∨ (call, resp) ∈ s.voteReplies then
        if resp.term > (s.node i).currentTerm then
          some ((s.setNode i ((s.node i).becomeFollowerLocked resp.term)).setPoint i .loop)
        else
          some (s.setPoint i
            (.collecting req (if resp.voteGranted then votes + 1 else votes) rest))
      else none
    | _ => none
  | .finishElection i =>
    match s.point i with
    | .collecting _ votes [] =>
      if votes ≥ (s.node i).majority then
        some ((s.setNode i (s.node i).becomeLeaderLocked).setPoint i .loop)
      else some (s.setPoint i .loop)
    | _ => none
  | .enterHeartbeat i =>
    if i ∈ addresses.keys ∧ s.point i = .loop ∧ (s.node i).state = .leader then
      some (s.setPoint i .heartbeat)
    else none
  | .beginHeartbeat i =>
    if s.point i = .heartbeat then
      some ((s.setNode i (s.node i).flushBatch).setPoint i
        (.replicating (s.node i).commitIndex (s.node i).peers.keys))
    else none
  | .sendAppend i =>
    match s.point i with
    | .replicating commit (peer :: rest) =>
      some { s.setPoint i (.awaitAppend commit rest s.appendCalls.length) with
        appendCalls := s.appendCalls ++ [⟨i, peer, (s.node i).appendRequest peer commit⟩] }
    | _ => none
  | .recvAppend i resp =>
    match s.point i with
    | .awaitAppend commit rest id =>
      match s.appendCalls[id]? with
      | some call =>
        if resp = .unreachable ∨ (id, resp) ∈ s.appendReplies then
          some ((s.setNode i ((s.node i).appendResponse call.dest call.request.entries resp)).setPoint
            i (if resp.term > (s.node i).currentTerm then .advance else .replicating commit rest))
        else none
      | none => none
    | _ => none
  | .finishHeartbeat i =>
    match s.point i with
    | .replicating _ [] => some (s.setPoint i .advance)
    | _ => none
  | .advance i =>
    if s.point i = .advance then
      some ((s.setNode i (s.node i).advanceCommitIndex).setPoint i .apply)
    else none
  | .apply i =>
    if s.point i = .apply then
      some ((s.setNode i (s.node i).applyCommittedEntries).setPoint i .loop)
    else none
  | .handleVote id =>
    match s.voteCalls[id]? with
    | some call =>
      let answer := (s.node call.dest).handleRequestVote call.request
      some { s.setNode call.dest answer.2 with voteReplies := s.voteReplies ++ [(id, answer.1)] }
    | none => none
  | .handleAppend id =>
    match s.appendCalls[id]? with
    | some call =>
      let answer := (s.node call.dest).handleAppendEntries call.request
      some { s.setNode call.dest answer.2 with
        appendReplies := s.appendReplies ++ [(id, answer.1)] }
    | none => none
  | .propose i entry =>
    if entry.type = .confChange then none
    else some (s.setNode i ((s.node i).propose entry).2)
  | .proposeBatch i entry =>
    if entry.type = .confChange then none
    else some (s.setNode i ((s.node i).proposeBatch entry).2)
  | .flushBatch i => some (s.setNode i (s.node i).flushBatch)

/-- What one step can do, one constructor for each outcome. -/
inductive Stepped (addresses : OrderedMap Nat Bytes) (s : Cluster) : Action → Cluster → Prop where
  | timeout {i : Nat} (configured : i ∈ addresses.keys) (here : s.point i = .loop)
      (state : (s.node i).state = .follower) :
      Stepped addresses s (.timeout i) (s.setNode i (s.node i).becomeCandidateLocked)
  | enterElection {i : Nat} (configured : i ∈ addresses.keys) (here : s.point i = .loop)
      (state : (s.node i).state = .candidate) :
      Stepped addresses s (.enterElection i) (s.setPoint i .election)
  | winAlone {i : Nat} (here : s.point i = .election) (alone : (s.node i).peers.keys = []) :
      Stepped addresses s (.beginElection i)
        ((s.setNode i (s.node i).becomeLeaderLocked).setPoint i .loop)
  | canvass {i : Nat} (here : s.point i = .election) (others : (s.node i).peers.keys ≠ []) :
      Stepped addresses s (.beginElection i)
        (s.setPoint i (.collecting (s.node i).voteRequest 1 (s.node i).peers.keys))
  | sendVote {i votes peer : Nat} {req : RequestVoteRequest} {rest : List Nat}
      (here : s.point i = .collecting req votes (peer :: rest)) :
      Stepped addresses s (.sendVote i)
        { s.setPoint i (.awaitVote req votes rest s.voteCalls.length) with
          voteCalls := s.voteCalls ++ [⟨i, peer, req⟩] }
  | deposed {i votes call : Nat} {req : RequestVoteRequest} {rest : List Nat}
      {resp : RequestVoteResponse} (here : s.point i = .awaitVote req votes rest call)
      (later : (s.node i).currentTerm < resp.term) :
      Stepped addresses s (.recvVote i resp)
        ((s.setNode i ((s.node i).becomeFollowerLocked resp.term)).setPoint i .loop)
  | countVote {i votes call : Nat} {req : RequestVoteRequest} {rest : List Nat}
      {resp : RequestVoteResponse} (here : s.point i = .awaitVote req votes rest call)
      (answered : resp = .unreachable ∨ (call, resp) ∈ s.voteReplies)
      (current : resp.term ≤ (s.node i).currentTerm) :
      Stepped addresses s (.recvVote i resp) (s.setPoint i
        (.collecting req (if resp.voteGranted then votes + 1 else votes) rest))
  | win {i votes : Nat} {req : RequestVoteRequest} (here : s.point i = .collecting req votes [])
      (enough : (s.node i).majority ≤ votes) :
      Stepped addresses s (.finishElection i)
        ((s.setNode i (s.node i).becomeLeaderLocked).setPoint i .loop)
  | lose {i votes : Nat} {req : RequestVoteRequest} (here : s.point i = .collecting req votes [])
      (short : votes < (s.node i).majority) :
      Stepped addresses s (.finishElection i) (s.setPoint i .loop)
  | enterHeartbeat {i : Nat} (configured : i ∈ addresses.keys) (here : s.point i = .loop)
      (state : (s.node i).state = .leader) :
      Stepped addresses s (.enterHeartbeat i) (s.setPoint i .heartbeat)
  | beginHeartbeat {i : Nat} (here : s.point i = .heartbeat) :
      Stepped addresses s (.beginHeartbeat i) ((s.setNode i (s.node i).flushBatch).setPoint i
        (.replicating (s.node i).commitIndex (s.node i).peers.keys))
  | sendAppend {i commit peer : Nat} {rest : List Nat}
      (here : s.point i = .replicating commit (peer :: rest)) :
      Stepped addresses s (.sendAppend i)
        { s.setPoint i (.awaitAppend commit rest s.appendCalls.length) with
          appendCalls := s.appendCalls ++ [⟨i, peer, (s.node i).appendRequest peer commit⟩] }
  | recvAppend {i commit id : Nat} {rest : List Nat} {call : Call AppendEntriesRequest}
      {resp : AppendEntriesResponse} (here : s.point i = .awaitAppend commit rest id)
      (sent : s.appendCalls[id]? = some call)
      (answered : resp = .unreachable ∨ (id, resp) ∈ s.appendReplies) :
      Stepped addresses s (.recvAppend i resp)
        ((s.setNode i ((s.node i).appendResponse call.dest call.request.entries resp)).setPoint i
          (if resp.term > (s.node i).currentTerm then .advance else .replicating commit rest))
  | finishHeartbeat {i commit : Nat} (here : s.point i = .replicating commit []) :
      Stepped addresses s (.finishHeartbeat i) (s.setPoint i .advance)
  | advance {i : Nat} (here : s.point i = .advance) :
      Stepped addresses s (.advance i)
        ((s.setNode i (s.node i).advanceCommitIndex).setPoint i .apply)
  | apply {i : Nat} (here : s.point i = .apply) :
      Stepped addresses s (.apply i)
        ((s.setNode i (s.node i).applyCommittedEntries).setPoint i .loop)
  | handleVote {id : Nat} {call : Call RequestVoteRequest} (sent : s.voteCalls[id]? = some call) :
      Stepped addresses s (.handleVote id)
        { s.setNode call.dest ((s.node call.dest).handleRequestVote call.request).2 with
          voteReplies := s.voteReplies ++
            [(id, ((s.node call.dest).handleRequestVote call.request).1)] }
  | handleAppend {id : Nat} {call : Call AppendEntriesRequest}
      (sent : s.appendCalls[id]? = some call) :
      Stepped addresses s (.handleAppend id)
        { s.setNode call.dest ((s.node call.dest).handleAppendEntries call.request).2 with
          appendReplies := s.appendReplies ++
            [(id, ((s.node call.dest).handleAppendEntries call.request).1)] }
  | propose {i : Nat} {entry : RaftEntry} (plain : entry.type ≠ .confChange) :
      Stepped addresses s (.propose i entry) (s.setNode i ((s.node i).propose entry).2)
  | proposeBatch {i : Nat} {entry : RaftEntry} (plain : entry.type ≠ .confChange) :
      Stepped addresses s (.proposeBatch i entry) (s.setNode i ((s.node i).proposeBatch entry).2)
  | flushBatch {i : Nat} :
      Stepped addresses s (.flushBatch i) (s.setNode i (s.node i).flushBatch)

theorem step_cases {addresses : OrderedMap Nat Bytes} {s s' : Cluster} {a : Action}
    (h : step addresses s a = some s') : Stepped addresses s a s' := by
  cases a with
  | timeout i =>
    rw [step] at h
    split_ifs at h with hc
    exact Option.some.inj h ▸ .timeout hc.1 hc.2.1 hc.2.2
  | enterElection i =>
    rw [step] at h
    split_ifs at h with hc
    exact Option.some.inj h ▸ .enterElection hc.1 hc.2.1 hc.2.2
  | beginElection i =>
    rw [step] at h
    split_ifs at h with hat halone
    · exact Option.some.inj h ▸ .winAlone hat halone
    · exact Option.some.inj h ▸ .canvass hat halone
  | sendVote i =>
    rw [step] at h
    split at h
    · next hat => exact Option.some.inj h ▸ .sendVote hat
    · cases h
  | recvVote i resp =>
    rw [step] at h
    split at h
    · next hat =>
      obtain ⟨hanswered, h⟩ := Option.ite_none_right_eq_some.mp h
      by_cases hlater : resp.term > (s.node i).currentTerm
      · exact Option.some.inj ((if_pos hlater).symm.trans h) ▸ .deposed hat hlater
      · exact Option.some.inj ((if_neg hlater).symm.trans h) ▸
          .countVote hat hanswered (not_lt.mp hlater)
    · cases h
  | finishElection i =>
    rw [step] at h
    split at h
    · next hat =>
      split_ifs at h with henough
      · exact Option.some.inj h ▸ .win hat henough
      · exact Option.some.inj h ▸ .lose hat (not_le.mp henough)
    · cases h
  | enterHeartbeat i =>
    rw [step] at h
    split_ifs at h with hc
    exact Option.some.inj h ▸ .enterHeartbeat hc.1 hc.2.1 hc.2.2
  | beginHeartbeat i =>
    rw [step] at h
    split_ifs at h with hat
    exact Option.some.inj h ▸ .beginHeartbeat hat
  | sendAppend i =>
    rw [step] at h
    split at h
    · next hat => exact Option.some.inj h ▸ .sendAppend hat
    · cases h
  | recvAppend i resp =>
    rw [step] at h
    split at h
    · next hat =>
      split at h
      · next hsent =>
        obtain ⟨hanswered, h⟩ := Option.ite_none_right_eq_some.mp h
        exact Option.some.inj h ▸ .recvAppend hat hsent hanswered
      · cases h
    · cases h
  | finishHeartbeat i =>
    rw [step] at h
    split at h
    · next hat => exact Option.some.inj h ▸ .finishHeartbeat hat
    · cases h
  | advance i =>
    rw [step] at h
    split_ifs at h with hat
    exact Option.some.inj h ▸ .advance hat
  | apply i =>
    rw [step] at h
    split_ifs at h with hat
    exact Option.some.inj h ▸ .apply hat
  | handleVote id =>
    rw [step] at h
    split at h
    · next hsent => exact Option.some.inj h ▸ .handleVote hsent
    · cases h
  | handleAppend id =>
    rw [step] at h
    split at h
    · next hsent => exact Option.some.inj h ▸ .handleAppend hsent
    · cases h
  | propose i entry =>
    rw [step] at h
    split_ifs at h with hplain
    exact Option.some.inj h ▸ .propose hplain
  | proposeBatch i entry =>
    rw [step] at h
    split_ifs at h with hplain
    exact Option.some.inj h ▸ .proposeBatch hplain
  | flushBatch i =>
    rw [step] at h
    exact Option.some.inj h ▸ .flushBatch

end Cluster
end MyEtcd
