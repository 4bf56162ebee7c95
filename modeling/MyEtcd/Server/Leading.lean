import MyEtcd.Raft.CommitQuorum
import MyEtcd.Server.KVServer

/-! A server that leads: what its log holds behind what it has applied.
Entries only move towards the store, so the store with the whole log applied to it changes when
something is proposed and at no other time. -/
namespace MyEtcd
open Library

namespace KVServer

/-- The entries on their way from the log to the store, in the order in which they will get there:
those the handler holds, those it has been called with, and those not handed over. -/
def backlog (s : KVServer) : List RaftEntry :=
  s.critical.flatMap Action.processed ++
    (s.ready.getD [] ++ s.node.log.entriesFrom (s.node.lastApplied + 1) 0)

def settled (s : KVServer) : KVStore := EtcdServer.processRaftEntries s.kvstore s.backlog

/-- What the server does as long as nobody else takes over: it replicates, commits and applies, it
takes snapshots, and it serves its clients. -/
def Serving (s : KVServer) : Event → Prop
  | .call (.appendResponse _ _ resp) => resp.term ≤ s.node.currentTerm
  | .call .advanceCommitIndex | .call .applyCommittedEntries => True
  | .call _ => False
  | .restart _ => False
  | _ => True

instance (s : KVServer) (event : Event) : Decidable (s.Serving event) :=
  match event with
  | .call (.appendResponse _ _ resp) => inferInstanceAs (Decidable (resp.term ≤ s.node.currentTerm))
  | .call .advanceCommitIndex | .call .applyCommittedEntries | .enterReady | .readLastIndex
  | .enterSnapshot | .act | .request _ | .compare _ | .execute _
  | .wake _ => inferInstanceAs (Decidable True)
  | .call (.becomeFollower _) | .call .becomeCandidate | .call .becomeLeader | .call (.propose _)
  | .call (.proposeConfChange _) | .call (.proposeBatch _) | .call .flushBatch
  | .call (.handleRequestVote _) | .call (.handleAppendEntries _)
  | .restart _ => inferInstanceAs (Decidable False)

/-- The node leads, and its counters stay inside its log. -/
structure Leading (s : KVServer) : Prop where
  leads : s.node.state = .leader
  term : 0 < s.node.currentTerm
  based : ∃ base, s.node.log.Based base ∧ base ≤ s.node.lastApplied
  ready : s.node.log.Ready
  committed : s.node.commitIndex ≤ s.node.log.lastIndex
  applied : s.node.lastApplied ≤ s.node.log.lastIndex

namespace Leading
variable {s s' : KVServer}

theorem congr (h : Leading s) (hnode : s'.node = s.node) : Leading s' := by
  obtain ⟨leads, term, based, ready, committed, applied⟩ := h
  rw [← hnode] at leads term based ready committed applied
  exact ⟨leads, term, based, ready, committed, applied⟩

theorem lastIndex_succ (h : Leading s) :
    s.node.log.lastIndex + 1 = s.node.log.firstIndex + s.node.log.entries.length := by
  obtain ⟨base, hbased, _⟩ := h.based
  exact h.ready.lastIndex_succ hbased.aligned

theorem record (h : Leading s) {e : RaftEntry} (he : e.index = s.node.log.lastIndex + 1) :
    Leading { s with node := s.node.recordProposal e } := by
  obtain ⟨base, hbased, hbase⟩ := h.based
  have hlast : (s.node.recordProposal e).log.lastIndex = s.node.log.lastIndex + 1 := by
    simp [RaftNode.recordProposal, RaftLog.append, RaftLog.lastIndex, he]
  refine ⟨h.leads, h.term, ⟨base, hbased.append h.ready he, hbase⟩, .inl (by
    simp [RaftNode.recordProposal, RaftLog.append]), ?_, ?_⟩
  · exact h.committed.trans (by rw [hlast]; omega)
  · exact h.applied.trans (by rw [hlast]; omega)

theorem backlog_record (h : Leading s) {e : RaftEntry}
    (he : e.index = s.node.log.lastIndex + 1) :
    backlog { s with node := s.node.recordProposal e } = s.backlog ++ [e] := by
  obtain ⟨base, hbased, _⟩ := h.based
  have hlast := h.lastIndex_succ
  have happlied := h.applied
  have happend := hbased.append h.ready he
  have hlog : (s.node.log.append e).entriesFrom (s.node.lastApplied + 1) 0 =
      s.node.log.entriesFrom (s.node.lastApplied + 1) 0 ++ [e] := by
    rw [happend.aligned.entriesFrom happend.positive, hbased.aligned.entriesFrom hbased.positive]
    exact List.drop_append_of_le_length (by dsimp only [RaftLog.append]; omega)
  simp only [backlog, RaftNode.recordProposal, hlog, List.append_assoc]

/-- Replicating, committing and applying leave the backlog as it is. -/
theorem call (h : Leading s) {c : RaftNode.Call} (hok : s.Serving (.call c))
    (hs : s.step (.call c) = some s') :
    Leading s' ∧ s'.backlog = s.backlog ∧ s'.kvstore = s.kvstore ∧ s'.clients = s.clients := by
  have hfree := (Option.ite_none_left_eq_some.mp hs).1
  obtain ⟨node, calls, hserve, hcalls, _, rfl⟩ := step_call hs
  have hquiet (hsame : node.readyCalls = s.node.readyCalls) : calls = [] :=
    List.append_cancel_left (by rw [← hcalls, hsame, List.append_nil])
  obtain ⟨base, hbased, hbase⟩ := h.based
  cases c with
  | appendResponse peer entries resp =>
    obtain rfl : s.node.appendResponse peer entries resp = node := Option.some.inj hserve
    rcases s.node.appendResponse_cases peer entries resp with ⟨hlt, _⟩ | ⟨_, _, _, heq⟩
    · exact absurd hok (not_le.mpr hlt)
    · have hnone := hquiet (by rw [heq])
      refine ⟨?_, ?_, rfl, rfl⟩
      · rw [heq]
        exact ⟨h.leads, h.term, h.based, h.ready, h.committed, h.applied⟩
      · simp only [hnone, heq, if_true]
        rfl
  | advanceCommitIndex =>
    obtain rfl : s.node.advanceCommitIndex = node := Option.some.inj hserve
    obtain ⟨commit, hkept⟩ := s.node.advanceCommitIndex_kept
    have hnone := hquiet (by rw [hkept])
    have hbacklog : backlog { s with
        node := s.node.advanceCommitIndex
        ready := if calls = [] then s.ready else some calls.flatten } = s.backlog := by
      simp only [hnone, hkept, if_true]
      rfl
    refine ⟨?_, hbacklog, rfl, rfl⟩
    have hwithin := RaftNode.advanceCommitIndex_within hbased.aligned h.term h.committed
    rw [hkept] at hwithin ⊢
    exact ⟨h.leads, h.term, h.based, h.ready, hwithin, h.applied⟩
  | applyCommittedEntries =>
    obtain rfl : s.node.applyCommittedEntries = node := Option.some.inj hserve
    have hkept := s.node.applyCommittedEntries_kept
    obtain ⟨hdelivered, happlied⟩ := s.node.applyCommittedEntries_delivered
    have hready : s.ready = none := by
      by_contra hsome
      refine hfree ⟨?_, by simp [lockFree]⟩
      simp [nodeLocked, Option.isSome_iff_ne_none.mpr hsome]
    have hflatten : calls.flatten = if s.node.commitIndex > s.node.lastApplied then
        s.node.log.slice (s.node.lastApplied + 1) (s.node.commitIndex + 1) else [] := by
      rw [RaftNode.delivered, hcalls, List.flatten_append, RaftNode.delivered] at hdelivered
      exact List.append_cancel_left hdelivered
    have hlast := h.lastIndex_succ
    have hcommitted := h.committed
    have happlied' := h.applied
    refine ⟨⟨hkept.state ▸ h.leads, hkept.currentTerm ▸ h.term, ⟨base, hkept.log ▸ hbased, ?_⟩,
      hkept.log ▸ h.ready, hkept.log ▸ hkept.commitIndex ▸ h.committed, ?_⟩, ?_, rfl, rfl⟩
    · rw [happlied]
      omega
    · rw [happlied, ← hkept.log]
      omega
    · have hhanded : (if calls = [] then s.ready else some calls.flatten).getD [] =
          calls.flatten := by
        split_ifs with hnone
        · rw [hready, hnone]
          rfl
        · rfl
      have hmoved : calls.flatten ++ s.node.log.entriesFrom
          (s.node.applyCommittedEntries.lastApplied + 1) 0 =
            s.node.log.entriesFrom (s.node.lastApplied + 1) 0 := by
        rw [hflatten]
        exact RaftNode.unapplied_applyCommittedEntries hbased.aligned hbased.positive (by omega)
      have hnone : s.ready.getD [] = [] := by rw [hready, Option.getD_none]
      simp only [backlog, hhanded, ← hkept.log, hmoved, hnone, List.nil_append]
  | _ => exact absurd hok id

end Leading

variable {s s' : KVServer}

/-- The handler takes the entries from the front of the backlog. -/
theorem settled_act (hs : s.step .act = some s') :
    s'.settled = s.settled ∧ s'.node = s.node ∧ s'.clients = s.clients := by
  obtain ⟨action, rest, hcritical, hperform⟩ := step_act hs
  have hp := perform_performed hperform
  refine ⟨?_, hp.node, hp.clients⟩
  have hbacklog : s.backlog = action.processed ++ s'.backlog := by
    rw [backlog, backlog, hp.critical, hp.ready, hp.node, hcritical, List.flatMap_cons,
      List.flatMap_append, processed_next, List.nil_append, List.append_assoc]
  rw [settled, settled, hbacklog, hp.kvstore, EtcdServer.processRaftEntries,
    EtcdServer.processRaftEntries, EtcdServer.processRaftEntries, List.foldl_append]

theorem settled_enterReady (hs : s.step .enterReady = some s') :
    s'.settled = s.settled ∧ s'.node = s.node ∧ s'.clients = s.clients := by
  obtain ⟨entries, hready, hnone, rfl⟩ := step_enterReady hs
  refine ⟨?_, rfl, rfl⟩
  simp only [settled, backlog, hready, hnone, processed_raftReadyHandler]
  rfl

theorem settled_enterSnapshot (hs : s.step .enterSnapshot = some s') :
    s'.settled = s.settled ∧ s'.node = s.node ∧ s'.clients = s.clients := by
  obtain ⟨n, _, hnone, rfl⟩ := step_enterSnapshot hs
  refine ⟨?_, rfl, rfl⟩
  simp only [settled, backlog, hnone]
  rfl

end KVServer
end MyEtcd
