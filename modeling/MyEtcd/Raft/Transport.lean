import MyEtcd.Common.Types

/-! Requests and responses of the two Raft calls, and what a failed call reports. -/
namespace MyEtcd

structure RequestVoteRequest where
  term : Nat
  candidateId : Nat
  lastLogIndex : Nat
  lastLogTerm : Nat
  deriving DecidableEq

structure RequestVoteResponse where
  term : Nat
  voteGranted : Bool
  deriving DecidableEq

structure AppendEntriesRequest where
  term : Nat
  leaderId : Nat
  prevLogIndex : Nat
  prevLogTerm : Nat
  entries : List RaftEntry
  leaderCommit : Nat
  deriving DecidableEq

structure AppendEntriesResponse where
  term : Nat
  success : Bool
  lastLogIndex : Nat
  conflictIndex : Nat := 0
  conflictTerm : Nat := 0
  deriving DecidableEq

/-- What `SendRequestVote` returns when the peer cannot be reached. -/
def RequestVoteResponse.unreachable : RequestVoteResponse := ⟨0, false⟩

/-- What `SendAppendEntries` returns when the peer cannot be reached. -/
def AppendEntriesResponse.unreachable : AppendEntriesResponse := ⟨0, false, 0, 0, 0⟩

end MyEtcd
