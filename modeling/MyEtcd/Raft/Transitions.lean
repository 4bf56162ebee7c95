import MyEtcd.Raft.RaftNode

/-! What each method of the node can do to its state, one lemma a method.
Later proofs cite these and do not unfold the methods. -/
namespace MyEtcd
open Library

namespace RaftNode

/-- The state that neither membership changes nor applying committed entries touch. -/
structure Kept (n n' : RaftNode) : Prop where
  nodeId : n.nodeId = n'.nodeId
  currentTerm : n.currentTerm = n'.currentTerm
  votedFor : n.votedFor = n'.votedFor
  log : n.log = n'.log
  commitIndex : n.commitIndex = n'.commitIndex
  state : n.state = n'.state
  batchBuffer : n.batchBuffer = n'.batchBuffer

theorem Kept.refl (n : RaftNode) : Kept n n := ⟨rfl, rfl, rfl, rfl, rfl, rfl, rfl⟩

theorem Kept.trans {a b c : RaftNode} (h : Kept a b) (h' : Kept b c) : Kept a c :=
  ⟨h.nodeId.trans h'.nodeId, h.currentTerm.trans h'.currentTerm, h.votedFor.trans h'.votedFor,
    h.log.trans h'.log, h.commitIndex.trans h'.commitIndex, h.state.trans h'.state,
    h.batchBuffer.trans h'.batchBuffer⟩

theorem applyConfChange_cases (n : RaftNode) (cc : ConfChange) :
    n.applyConfChange cc = n ∨
    (cc.nodeId ∉ n.peers.keys ∧ n.applyConfChange cc =
      { n with
        peers := n.peers.insert cc.nodeId ()
        nextIndex :=
          if n.isLeader then n.nextIndex.insert cc.nodeId (n.log.lastIndex + 1) else n.nextIndex
        matchIndex := if n.isLeader then n.matchIndex.insert cc.nodeId 0 else n.matchIndex
        confChangeCalls := n.confChangeCalls ++ [cc] }) ∨
    (cc.nodeId ≠ n.nodeId ∧ n.applyConfChange cc =
      { n with
        peers := n.peers.erase cc.nodeId
        nextIndex := n.nextIndex.erase cc.nodeId
        matchIndex := n.matchIndex.erase cc.nodeId
        confChangeCalls := n.confChangeCalls ++ [cc] }) := by
  unfold applyConfChange
  by_cases hzero : cc.nodeId = 0
  · exact .inl (if_pos hzero)
  rw [if_neg hzero]
  cases cc.type with
  | addNode =>
    by_cases hpeer : n.peers.contains cc.nodeId
    · exact .inl (if_pos hpeer)
    · refine .inr (.inl ⟨mt (OrderedMap.contains_iff _ _).mpr hpeer, ?_⟩)
      cases hleader : n.isLeader <;> simp_all [isLeader]
  | removeNode =>
    by_cases hself : cc.nodeId = n.nodeId
    · exact .inl (if_pos hself)
    · by_cases hlast : n.peers.contains cc.nodeId ∧
          n.peers.size - 1 + 1 < (n.peers.size - 1 + 1) / 2 + 1
      · exact .inl (by simp only [if_neg hself, if_pos hlast])
      · exact .inr (.inr ⟨hself, by simp only [if_neg hself, if_neg hlast]⟩)
  | other code unnamed => exact .inl rfl

theorem applyConfChange_kept (n : RaftNode) (cc : ConfChange) : Kept n (n.applyConfChange cc) := by
  rcases n.applyConfChange_cases cc with heq | ⟨_, heq⟩ | ⟨_, heq⟩
  · exact heq.symm ▸ .refl n
  · exact heq.symm ▸ ⟨rfl, rfl, rfl, rfl, rfl, rfl, rfl⟩
  · exact heq.symm ▸ ⟨rfl, rfl, rfl, rfl, rfl, rfl, rfl⟩

/-- What every membership change keeps, applying the committed entries keeps, as long as it does
not depend on the counters and queues that applying itself writes. -/
theorem applyCommittedEntries_induction {P : RaftNode → Prop} {n : RaftNode} (h : P n)
    (hconf : ∀ m cc, P m → P (m.applyConfChange cc))
    (hqueue : ∀ m pending applied calls, P m →
      P { m with pendingCommitted := pending, lastApplied := applied, readyCalls := calls }) :
    P n.applyCommittedEntries := by
  have hfold (l : List RaftEntry) (m : RaftNode) (hm : P m) :
      P (l.foldl (fun n e => n.applyConfChange e.confChange) m) := by
    induction l generalizing m with
    | nil => exact hm
    | cons e rest ih => exact ih _ (hconf m e.confChange hm)
  unfold applyCommittedEntries
  dsimp only
  split_ifs
  · exact hqueue _ _ _ _ (hfold _ n h)
  · exact hqueue _ _ _ _ (hfold _ n h)
  · exact h

theorem applyCommittedEntries_kept (n : RaftNode) : Kept n n.applyCommittedEntries :=
  applyCommittedEntries_induction (.refl n)
    (fun m cc hm => hm.trans (m.applyConfChange_kept cc))
    (fun _ _ _ _ hm => ⟨hm.nodeId, hm.currentTerm, hm.votedFor, hm.log, hm.commitIndex, hm.state,
      hm.batchBuffer⟩)

/-- Without membership changes in the log, applying only moves the counters and queues. -/
theorem applyCommittedEntries_of_plain {n : RaftNode}
    (h : ∀ e ∈ n.log.entries, e.type ≠ .confChange) :
    ∃ pending applied calls, n.applyCommittedEntries =
      { n with pendingCommitted := pending, lastApplied := applied, readyCalls := calls } := by
  have hnone (start stop : Nat) :
      (n.log.slice start stop).filter (fun e => e.type = .confChange) = [] := by
    refine List.filter_eq_nil_iff.mpr fun e he => ?_
    simpa using h e (RaftLog.mem_slice he)
  unfold applyCommittedEntries
  simp only [hnone, List.foldl_nil]
  split_ifs
  · exact ⟨_, _, _, rfl⟩
  · exact ⟨_, _, _, rfl⟩
  · exact ⟨_, _, _, rfl⟩

private theorem readyCalls_foldl_applyConfChange (l : List RaftEntry) (m : RaftNode) :
    (l.foldl (fun n e => n.applyConfChange e.confChange) m).readyCalls = m.readyCalls := by
  induction l generalizing m with
  | nil => rfl
  | cons e rest ih =>
    rw [List.foldl_cons, ih]
    rcases m.applyConfChange_cases e.confChange with heq | ⟨_, heq⟩ | ⟨_, heq⟩
    · rw [heq]
    · rw [heq]
    · rw [heq]

/-- What applying hands over, and how far it moves, whatever was read from the log. -/
theorem applyCommittedEntries_delivered (n : RaftNode) :
    n.applyCommittedEntries.delivered = n.delivered ++
      (if n.commitIndex > n.lastApplied then n.log.slice (n.lastApplied + 1) (n.commitIndex + 1)
        else []) ∧
    n.applyCommittedEntries.lastApplied = max n.lastApplied n.commitIndex := by
  unfold applyCommittedEntries
  dsimp only
  split_ifs with hmore hempty
  · refine ⟨?_, (max_eq_right hmore.le).symm⟩
    simp [delivered, List.isEmpty_iff.mp hempty]
  · refine ⟨?_, (max_eq_right hmore.le).symm⟩
    simp [delivered, readyCalls_foldl_applyConfChange]
  · exact ⟨(List.append_nil _).symm, (max_eq_left (not_lt.mp hmore)).symm⟩

/-- What applying hands over and what is left after it make up what was left before. -/
theorem unapplied_applyCommittedEntries {n : RaftNode} (h : n.log.Aligned)
    (hpos : 0 < n.log.firstIndex)
    (hcommit : n.commitIndex < n.log.firstIndex + n.log.entries.length) :
    (if n.commitIndex > n.lastApplied then n.log.slice (n.lastApplied + 1) (n.commitIndex + 1)
      else []) ++ n.log.entriesFrom (n.applyCommittedEntries.lastApplied + 1) 0 =
    n.log.entriesFrom (n.lastApplied + 1) 0 := by
  rw [n.applyCommittedEntries_delivered.2]
  split_ifs with hmore
  · rw [max_eq_right hmore.le]
    exact h.slice_append_entriesFrom hpos (by omega) hcommit
  · rw [max_eq_left (not_lt.mp hmore), List.nil_append]

/-- `ready_handler_` is called once or not at all, and with entries of the log. -/
theorem applyCommittedEntries_readyCalls (n : RaftNode) :
    ∃ calls, n.applyCommittedEntries.readyCalls = n.readyCalls ++ calls ∧
      ∀ e ∈ calls.flatten, e ∈ n.log.entries := by
  unfold applyCommittedEntries
  dsimp only
  split_ifs
  · exact ⟨[], by simp [readyCalls_foldl_applyConfChange], by simp⟩
  · refine ⟨[n.log.slice (n.lastApplied + 1) (n.commitIndex + 1)], ?_, fun e he => ?_⟩
    · rw [readyCalls_foldl_applyConfChange]
    · rw [List.flatten_singleton] at he
      exact RaftLog.mem_slice he
  · exact ⟨[], by simp, by simp⟩

theorem isLeader_iff (n : RaftNode) : n.isLeader = true ↔ n.state = .leader := decide_eq_true_iff

theorem propose_refused {n : RaftNode} (h : n.state ≠ .leader) (entry : RaftEntry) :
    n.propose entry = (.error s!"not leader, current leader is {n.leaderId}", n) :=
  if_pos (mt n.isLeader_iff.mp h)

theorem proposeBatch_refused {n : RaftNode} (h : n.state ≠ .leader) (entry : RaftEntry) :
    n.proposeBatch entry = (.error s!"not leader, current leader is {n.leaderId}", n) :=
  if_pos (mt n.isLeader_iff.mp h)

theorem proposeConfChange_refused {n : RaftNode} (h : n.state ≠ .leader) (cc : ConfChange) :
    n.proposeConfChange cc = (.error "not leader", n) :=
  if_pos (mt n.isLeader_iff.mp h)

/-- Refused by a node that does not lead, or appended with its term at the next index. -/
theorem propose_cases (n : RaftNode) (entry : RaftEntry) :
    n.state ≠ .leader ∧ (n.propose entry).2 = n ∨
    n.state = .leader ∧ ∃ e : RaftEntry, e = { entry with
        term := n.currentTerm
        index := n.log.lastIndex + 1 } ∧
      (n.propose entry).1 = .ok e.index ∧ (n.propose entry).2 = n.recordProposal e := by
  unfold propose
  by_cases h : n.isLeader
  · rw [if_neg (not_not.mpr h)]
    exact .inr ⟨of_decide_eq_true h, _, rfl, rfl, rfl⟩
  · exact .inl ⟨mt decide_eq_true h, congrArg Prod.snd (if_pos h)⟩

theorem proposeConfChange_cases (n : RaftNode) (cc : ConfChange) :
    n.state ≠ .leader ∧ (n.proposeConfChange cc).2 = n ∨
    n.state = .leader ∧ ∃ e : RaftEntry, e =
        { term := n.currentTerm
          index := n.log.lastIndex + 1
          type := .confChange
          confChange := cc } ∧
      (n.proposeConfChange cc).1 = .ok e.index ∧
      (n.proposeConfChange cc).2 = n.recordProposal e := by
  unfold proposeConfChange
  by_cases h : n.isLeader
  · rw [if_neg (not_not.mpr h)]
    exact .inr ⟨of_decide_eq_true h, _, rfl, rfl, rfl⟩
  · exact .inl ⟨mt decide_eq_true h, congrArg Prod.snd (if_pos h)⟩

theorem proposeBatch_cases (n : RaftNode) (entry : RaftEntry) :
    n.state ≠ .leader ∧ (n.proposeBatch entry).2 = n ∨
    n.state = .leader ∧ ∃ e : RaftEntry, e = { entry with
        term := n.currentTerm
        index := n.log.lastIndex + 1 + n.batchBuffer.length } ∧
      (n.proposeBatch entry).1 = .ok e.index ∧
      (n.proposeBatch entry).2 = { n with batchBuffer := n.batchBuffer ++ [e] } := by
  unfold proposeBatch
  by_cases h : n.isLeader
  · rw [if_neg (not_not.mpr h)]
    exact .inr ⟨of_decide_eq_true h, _, rfl, rfl, rfl⟩
  · exact .inl ⟨mt decide_eq_true h, congrArg Prod.snd (if_pos h)⟩

theorem renumberedBatch_length (n : RaftNode) :
    n.renumberedBatch.length = n.batchBuffer.length := List.length_mapIdx

theorem renumberedBatch_contiguous (n : RaftNode) :
    RaftLog.Contiguous (n.log.lastIndex + 1) n.renumberedBatch := by
  intro k e he
  obtain ⟨e', _, rfl⟩ := Option.map_eq_some_iff.mp (List.getElem?_mapIdx.symm.trans he)
  rfl

/-- Nothing is buffered, or the whole buffer is offered to the log. -/
theorem flushBatch_cases (n : RaftNode) :
    (n.batchBuffer = [] ∧ n.flushBatch = n) ∨
    (n.batchBuffer ≠ [] ∧ n.flushBatch =
      { n with
        batchBuffer := []
        log := n.log.appendAll n.renumberedBatch
        matchIndex := n.matchIndex.insert n.nodeId (n.log.lastIndex + n.batchBuffer.length) }) := by
  by_cases hempty : n.batchBuffer = []
  · refine .inl ⟨hempty, ?_⟩
    simp [flushBatch, renumberedBatch, hempty]
  · refine .inr ⟨hempty, ?_⟩
    have hpos := List.length_pos_iff.mpr hempty
    have hlength := n.renumberedBatch_length
    unfold flushBatch
    cases hlast : n.renumberedBatch.getLast? with
    | none =>
      rw [List.getLast?_eq_none_iff.mp hlast] at hlength
      exact absurd hlength hpos.ne
    | some back =>
      have hback : back.index = n.log.lastIndex + n.batchBuffer.length := by
        have := n.renumberedBatch_contiguous _ _ (List.getLast?_eq_getElem?.symm.trans hlast)
        omega
      simp only [hback]

theorem becomeFollowerLocked_of_lt {n : RaftNode} {term : Nat} (h : n.currentTerm < term) :
    n.becomeFollowerLocked term =
      { n with currentTerm := term, votedFor := 0, state := .follower } := by
  simp [becomeFollowerLocked, h]

theorem becomeFollowerLocked_of_le {n : RaftNode} {term : Nat} (h : term ≤ n.currentTerm) :
    n.becomeFollowerLocked term = { n with state := .follower } := by
  simp [becomeFollowerLocked, not_lt.mpr h]

/-- An old request is turned down, and so is one from a candidate that was not chosen or has the
older log. -/
theorem handleRequestVote_cases (n : RaftNode) (req : RequestVoteRequest) :
    (req.term < n.currentTerm ∧ n.handleRequestVote req = (⟨n.currentTerm, false⟩, n)) ∨
    n.currentTerm ≤ req.term ∧ ∃ m : RaftNode,
      m = (if req.term > n.currentTerm then n.becomeFollowerLocked req.term else n) ∧
      (n.handleRequestVote req = (⟨req.term, false⟩, m) ∨
        (m.votedFor = 0 ∨ m.votedFor = req.candidateId) ∧
        (req.lastLogTerm > n.log.lastTerm ∨
          req.lastLogTerm = n.log.lastTerm ∧ req.lastLogIndex ≥ n.log.lastIndex) ∧
        n.handleRequestVote req = (⟨req.term, true⟩, { m with votedFor := req.candidateId })) := by
  unfold handleRequestVote
  by_cases hold : req.term < n.currentTerm
  · exact .inl ⟨hold, if_pos hold⟩
  refine .inr ⟨not_lt.mp hold, _, rfl, ?_⟩
  rw [if_neg hold]
  have hlog : (if req.term > n.currentTerm then n.becomeFollowerLocked req.term else n).log =
      n.log := by
    split_ifs with hlater
    · rw [becomeFollowerLocked_of_lt hlater]
    · rfl
  dsimp only
  rw [hlog]
  split_ifs
  all_goals simp_all

/-- An old request is turned down, a mismatch is reported, or the entries are stored. -/
theorem handleAppendEntries_cases (n : RaftNode) (req : AppendEntriesRequest) :
    (req.term < n.currentTerm ∧ n.handleAppendEntries req =
      ({ term := n.currentTerm, success := false, lastLogIndex := n.log.lastIndex }, n)) ∨
    n.currentTerm ≤ req.term ∧
      (prevMatches n.log req = false ∧ n.handleAppendEntries req = (rejection n.log req,
        { n.becomeFollowerLocked req.term with leaderId := req.leaderId }) ∨
      prevMatches n.log req = true ∧
        (n.handleAppendEntries req).1 =
          { term := req.term
            success := true
            lastLogIndex := (storeEntries n.log req.entries).lastIndex } ∧
        ∃ m : RaftNode, m = { n.becomeFollowerLocked req.term with
            leaderId := req.leaderId
            log := storeEntries n.log req.entries } ∧
          (req.leaderCommit ≤ n.commitIndex ∧ (n.handleAppendEntries req).2 = m ∨
            n.commitIndex < req.leaderCommit ∧ (n.handleAppendEntries req).2 =
              { m with
                commitIndex := min req.leaderCommit m.log.lastIndex }.applyCommittedEntries)) := by
  have hkept : (n.becomeFollowerLocked req.term).log = n.log ∧
      (n.becomeFollowerLocked req.term).commitIndex = n.commitIndex := by
    unfold becomeFollowerLocked
    dsimp only
    split_ifs
    · exact ⟨rfl, rfl⟩
    · exact ⟨rfl, rfl⟩
  unfold handleAppendEntries
  by_cases hold : req.term < n.currentTerm
  · exact .inl ⟨hold, if_pos hold⟩
  refine .inr ⟨not_lt.mp hold, ?_⟩
  rw [if_neg hold]
  dsimp only
  rw [hkept.1, hkept.2]
  cases hprev : prevMatches n.log req with
  | false => exact .inl ⟨rfl, by simp⟩
  | true =>
    refine .inr ⟨rfl, ?_⟩
    simp only [not_true_eq_false, if_false]
    refine ⟨?_, _, rfl, ?_⟩
    · split_ifs
      · rw [← (applyCommittedEntries_kept _).log]
      · rfl
    · split_ifs with hmore
      · exact .inr ⟨hmore, rfl⟩
      · exact .inl ⟨not_lt.mp hmore, rfl⟩

/-- A node that leads after it was asked for a vote led before, and has given its vote at most. -/
theorem handleRequestVote_of_leader {n : RaftNode} {req : RequestVoteRequest}
    (h : (n.handleRequestVote req).2.state = .leader) :
    ∃ v, (n.handleRequestVote req).2 = { n with votedFor := v } := by
  rcases n.handleRequestVote_cases req with ⟨_, heq⟩ | ⟨_, m, hm, hcases⟩
  · exact ⟨n.votedFor, by rw [heq]⟩
  · have hkept : m.state = .leader → m = n := by
      rw [hm]
      split_ifs with hlater
      · rw [becomeFollowerLocked_of_lt hlater]
        exact fun hl => by cases hl
      · exact fun _ => rfl
    rcases hcases with heq | ⟨_, _, heq⟩
    · rw [heq] at h ⊢
      exact ⟨n.votedFor, hkept h⟩
    · rw [heq] at h ⊢
      obtain rfl := hkept h
      exact ⟨_, rfl⟩

theorem handleRequestVote_leader (n : RaftNode) (req : RequestVoteRequest)
    (h : (n.handleRequestVote req).2.state = .leader) :
    n.state = .leader ∧ n.commitIndex ≤ (n.handleRequestVote req).2.commitIndex := by
  obtain ⟨v, heq⟩ := handleRequestVote_of_leader h
  rw [heq] at h ⊢
  exact ⟨h, le_rfl⟩

/-- A node that leads after an append request has turned it down. -/
theorem handleAppendEntries_of_leader {n : RaftNode} {req : AppendEntriesRequest}
    (h : (n.handleAppendEntries req).2.state = .leader) : (n.handleAppendEntries req).2 = n := by
  rcases n.handleAppendEntries_cases req with ⟨_, heq⟩ | ⟨_, ⟨_, heq⟩ | ⟨_, _, m, hm, hcases⟩⟩
  · rw [heq]
  · rw [heq] at h
    cases h
  · have hfollows : m.state = .follower := by
      rw [hm]
      rfl
    rcases hcases with ⟨_, heq⟩ | ⟨_, heq⟩
    · rw [heq, hfollows] at h
      cases h
    · rw [heq, ← (applyCommittedEntries_kept _).state] at h
      cases hfollows.symm.trans h

theorem handleAppendEntries_leader (n : RaftNode) (req : AppendEntriesRequest)
    (h : (n.handleAppendEntries req).2.state = .leader) :
    n.state = .leader ∧ n.commitIndex ≤ (n.handleAppendEntries req).2.commitIndex := by
  have hsame := handleAppendEntries_of_leader h
  rw [hsame] at h ⊢
  exact ⟨h, le_rfl⟩

/-- An answer makes the node step down, or changes its bookkeeping about the peer. -/
theorem appendResponse_cases (n : RaftNode) (peer : Nat) (entries : List RaftEntry)
    (resp : AppendEntriesResponse) :
    (n.currentTerm < resp.term ∧
      n.appendResponse peer entries resp = n.becomeFollowerLocked resp.term) ∨
    resp.term ≤ n.currentTerm ∧ ∃ nextIndex matchIndex, n.appendResponse peer entries resp =
      { n with nextIndex := nextIndex, matchIndex := matchIndex } := by
  unfold appendResponse
  split_ifs with hterm
  · exact .inl ⟨hterm, rfl⟩
  · refine .inr ⟨not_lt.mp hterm, ?_⟩
    split
    · exact ⟨_, _, rfl⟩
    · exact ⟨_, _, rfl⟩
  · exact .inr ⟨not_lt.mp hterm, _, _, rfl⟩

theorem advanceCommitIndex_kept (n : RaftNode) :
    ∃ commit, n.advanceCommitIndex = { n with commitIndex := commit } := by
  unfold advanceCommitIndex
  dsimp only
  split_ifs
  · exact ⟨_, rfl⟩
  · exact ⟨_, rfl⟩
  · exact ⟨_, rfl⟩
  · exact ⟨_, rfl⟩

theorem mem_storeEntries {log : RaftLog} {entries : List RaftEntry} {e : RaftEntry}
    (h : e ∈ (storeEntries log entries).entries) : e ∈ log.entries ∨ e ∈ entries := by
  unfold storeEntries at h
  split at h
  · exact .inl h
  · exact (RaftLog.mem_appendAll h).imp RaftLog.mem_truncateTo id

/-- A rejection moves the next index back, and never below one. -/
theorem nextAfterReject_bounds (n : RaftNode) (peer : Nat) (resp : AppendEntriesResponse)
    (h : 1 ≤ n.nextIndex.getD peer 0) :
    1 ≤ n.nextAfterReject peer resp ∧ n.nextAfterReject peer resp ≤ n.nextIndex.getD peer 0 := by
  unfold nextAfterReject
  dsimp only
  split_ifs <;> omega

theorem storeEntries_aligned {log : RaftLog} (h : log.Aligned) {start : Nat}
    {entries : List RaftEntry} (hc : RaftLog.Contiguous start entries) :
    (storeEntries log entries).Aligned := by
  cases entries with
  | nil => exact h
  | cons front rest => exact (h.truncateTo _).appendAll hc

/-- Received entries may reach below the first slot, and never move it up. -/
theorem storeEntries_firstIndex (log : RaftLog) (entries : List RaftEntry) :
    (storeEntries log entries).firstIndex ≤ log.firstIndex := by
  have happend (log : RaftLog) : (log.appendAll entries).firstIndex = log.firstIndex := by
    unfold RaftLog.appendAll
    dsimp only
    split
    · rfl
    · split_ifs <;> rfl
  have htruncate (idx : Nat) : (log.truncateTo idx).firstIndex ≤ log.firstIndex := by
    unfold RaftLog.truncateTo
    dsimp only
    split_ifs with hlt
    · exact hlt
    · exact le_rfl
    · exact le_rfl
  unfold storeEntries
  split
  · exact le_rfl
  · exact (happend _).trans_le (htruncate _)

/-- Contiguous entries replace the end of an aligned log, unless they would leave a gap. -/
theorem storeEntries_cases {log : RaftLog} (h : log.Aligned) {k : Nat} {entries : List RaftEntry}
    (hc : RaftLog.Contiguous (k + 1) entries) (hne : entries ≠ []) :
    k < log.firstIndex ∧ storeEntries log entries = ⟨entries, k + 1⟩ ∨
    log.firstIndex ≤ k ∧ k < log.firstIndex + log.entries.length ∧
      storeEntries log entries =
        { log with entries := log.entries.take (k + 1 - log.firstIndex) ++ entries } ∨
    log.firstIndex ≤ k ∧ log.firstIndex + log.entries.length ≤ k ∧
      storeEntries log entries = log := by
  have hstore : storeEntries log entries = (log.truncateTo k).appendAll entries := by
    cases entries with
    | nil => exact absurd rfl hne
    | cons front rest =>
      have hfront : front.index = k + 1 := hc 0 front rfl
      simp only [storeEntries, hfront, predIndex_succ]
  rw [hstore]
  have htrunc := h.truncateTo k
  rcases Nat.lt_or_ge k log.firstIndex with hlt | hle
  · refine .inl ⟨hlt, ?_⟩
    rw [RaftLog.truncateTo, if_pos hlt] at htrunc ⊢
    exact htrunc.appendAll_next hc
  rcases Nat.lt_or_ge k (log.firstIndex + log.entries.length) with hin | hout
  · refine .inr (.inl ⟨hle, hin, ?_⟩)
    have hkeep : log.truncateTo k =
        { log with entries := log.entries.take (k + 1 - log.firstIndex) } := by
      rw [RaftLog.truncateTo, if_neg (not_lt.mpr hle), Nat.sub_add_comm hle]
      dsimp only
      split_ifs with hall
      · rw [List.take_of_length_le hall]
      · rfl
    rw [hkeep] at htrunc ⊢
    refine htrunc.appendAll_next ?_
    have hlen : log.firstIndex + (log.entries.take (k + 1 - log.firstIndex)).length = k + 1 := by
      rw [List.length_take]
      omega
    rwa [hlen]
  · refine .inr (.inr ⟨hle, hout, ?_⟩)
    have hkeep : log.truncateTo k = log := by
      rw [RaftLog.truncateTo, if_neg (not_lt.mpr hle)]
      dsimp only
      rw [if_pos (by omega)]
    rw [hkeep]
    exact h.appendAll_refused hc (by omega)

end RaftNode
end MyEtcd
