import MyEtcd.Raft.Service

/-! The log of a node that applies snapshots, next to what the node has promised.
A snapshot empties the log, and `LastIndex` of an empty log is zero whatever the snapshot covers. -/
namespace MyEtcd
open Library

/-- A node with the proposals it has accepted. -/
structure Logbook where
  node : RaftNode
  /-- The index of the last snapshot applied, zero before the first. -/
  snapshotIndex : Nat := 0
  /-- Accepted proposals under the index they were given. -/
  accepted : List RaftEntry := []
  /-- What `ProposeBatch` has accepted since the last flush. -/
  buffered : List RaftEntry := []
  /-- Accepted proposals that had to give way to another leader's entries. -/
  overwritten : List RaftEntry := []

namespace Logbook

def start (config : ClusterConfig) : Logbook where
  node := .ofConfig config

inductive Action where
  | applySnapshot (snapshot : Snapshot)
  | serve (call : RaftNode.Call)

/-- At the place of `e` or before it, the entries have another term than the log. -/
def Conflict (log : RaftLog) (entries : List RaftEntry) (e : RaftEntry) : Prop :=
  ∃ x ∈ entries, x.index ≤ e.index ∧ ∃ old ∈ log.entries, old.index = x.index ∧ old.term ≠ x.term

instance (log : RaftLog) (entries : List RaftEntry) (e : RaftEntry) :
    Decidable (Conflict log entries e) := by
  unfold Conflict
  infer_instance

/-- Proposals enter the book by the answer they get, batches when they are flushed. -/
def record (s : Logbook) : RaftNode.Call → Logbook
  | .propose entry =>
    match (s.node.propose entry).1 with
    | .ok idx =>
      { s with accepted := s.accepted ++ [{ entry with term := s.node.currentTerm, index := idx }] }
    | .error _ => s
  | .proposeConfChange cc =>
    match (s.node.proposeConfChange cc).1 with
    | .ok idx =>
      { s with accepted := s.accepted ++ [
          { term := s.node.currentTerm, index := idx, type := .confChange, confChange := cc }] }
    | .error _ => s
  | .proposeBatch entry =>
    match (s.node.proposeBatch entry).1 with
    | .ok idx =>
      { s with buffered := s.buffered ++ [{ entry with term := s.node.currentTerm, index := idx }] }
    | .error _ => s
  | .flushBatch =>
    { s with
      accepted := s.accepted ++ { s.node with batchBuffer := s.buffered }.renumberedBatch
      buffered := [] }
  | .handleAppendEntries req =>
    if (s.node.handleAppendEntries req).1.success then
      { s with overwritten := s.overwritten ++
          s.accepted.filter fun e => Conflict s.node.log req.entries e }
    else s
  | _ => s

def step (s : Logbook) : Action → Option Logbook
  | .applySnapshot snapshot =>
    if snapshot.lastIndex < s.node.commitIndex then
      some { s with node := s.node.applySnapshot snapshot }
    else
      some { s with node := s.node.applySnapshot snapshot, snapshotIndex := snapshot.lastIndex }
  | .serve call => (s.node.serve call).map fun n => { s.record call with node := n }

/-- A snapshot is not applied by a leader, unless it is empty, and covers what has been accepted. A
node takes office and flushes its buffer only where the log reaches the last snapshot. A request that
is accepted sends again what it reaches back to, unless the entries conflict. -/
def Numbered (s : Logbook) : Action → Prop
  | .applySnapshot snapshot =>
    snapshot.lastIndex < s.node.commitIndex ∨
      (s.node.state = .leader → snapshot.lastIndex = 0) ∧
        ∀ e ∈ s.accepted, e ∈ s.overwritten ∨ e.index ≤ snapshot.lastIndex
  | .serve .becomeLeader => s.snapshotIndex ≤ s.node.log.lastIndex
  | .serve .flushBatch => s.node.batchBuffer ≠ [] → s.snapshotIndex ≤ s.node.log.lastIndex
  | .serve (.handleAppendEntries req) =>
    s.node.currentTerm ≤ req.term → RaftNode.prevMatches s.node.log req = true →
      ∀ e ∈ s.accepted, e ∈ s.node.log.entries → RaftLog.ReachesBack req.entries e →
        Conflict s.node.log req.entries e ∨ e ∈ req.entries
  | _ => True

instance (s : Logbook) (a : Action) : Decidable (Numbered s a) := by
  unfold Numbered
  split <;> infer_instance

/-- The book and the node agree. -/
structure Kept (s : Logbook) : Prop where
  based : s.node.log.Based s.snapshotIndex
  leads : s.node.state = .leader → s.snapshotIndex ≤ s.node.log.lastIndex
  accepted : ∀ e ∈ s.accepted,
    e ∈ s.node.log.entries ∨ e.index ≤ s.snapshotIndex ∨ e ∈ s.overwritten
  buffered : s.buffered = s.node.batchBuffer

namespace Kept
variable {s s' : Logbook}

theorem start (config : ClusterConfig) : Kept (start config) where
  based := ⟨RaftLog.aligned_empty 1, Nat.one_pos, le_rfl, fun _ => rfl⟩
  leads _ := le_rfl
  accepted e he := by cases he
  buffered := rfl

private theorem applySnapshot (h : Kept s) {snapshot : Snapshot}
    (hok : Numbered s (.applySnapshot snapshot)) (hs : step s (.applySnapshot snapshot) = some s') :
    Kept s' := by
  simp only [step] at hs
  split_ifs at hs with hold
  · obtain rfl := Option.some.inj hs
    have hsame : s.node.applySnapshot snapshot = s.node := if_pos hold
    rwa [hsame]
  · obtain rfl := Option.some.inj hs
    obtain ⟨hleads, hcovered⟩ := hok.resolve_left hold
    rw [RaftNode.applySnapshot, if_neg hold]
    refine ⟨.restore s.node.log _, fun hl => ?_, fun e he => ?_, h.buffered⟩
    · exact (hleads hl).le
    · exact .inr (hcovered e he).symm

private theorem recordProposal (h : Kept s) {e : RaftEntry} (he : e.index = s.node.log.lastIndex + 1)
    (hle : s.snapshotIndex ≤ s.node.log.lastIndex) :
    Kept { s with node := s.node.recordProposal e, accepted := s.accepted ++ [e] } where
  based := h.based.append (h.based.ready hle) he
  leads _ := by
    have hlast : (s.node.recordProposal e).log.lastIndex = e.index := by
      simp [RaftNode.recordProposal, RaftLog.append, RaftLog.lastIndex]
    dsimp only
    omega
  accepted x hx := by
    rcases List.mem_append.mp hx with hx | hx
    · exact (h.accepted x hx).imp_left (List.mem_append_left _)
    · exact .inl (List.mem_append_right _ hx)
  buffered := h.buffered

private theorem flushBatch (h : Kept s)
    (hok : s.node.batchBuffer ≠ [] → s.snapshotIndex ≤ s.node.log.lastIndex) :
    Kept { s.record .flushBatch with node := s.node.flushBatch } := by
  have hbuffer : { s.node with batchBuffer := s.buffered } = s.node := by rw [h.buffered]
  simp only [record, hbuffer]
  rcases s.node.flushBatch_cases with ⟨hempty, heq⟩ | ⟨hne, heq⟩
  · have hnone : s.node.renumberedBatch = [] := by simp [RaftNode.renumberedBatch, hempty]
    rw [heq, hnone, List.append_nil]
    exact ⟨h.based, h.leads, h.accepted, hempty.symm⟩
  · have hreach := hok hne
    have hready := h.based.ready hreach
    have hcontiguous := s.node.renumberedBatch_contiguous
    have hbatch : s.node.renumberedBatch ≠ [] := by
      rw [← List.length_pos_iff, RaftNode.renumberedBatch_length]
      exact List.length_pos_of_ne_nil hne
    rw [heq]
    refine ⟨h.based.appendAll hready hcontiguous, fun _ => ?_, fun e he => ?_, rfl⟩
    · have hlast := (h.based.appendAll hready hcontiguous).aligned.lastIndex_succ (by
        rw [h.based.appendAll_eq hready hcontiguous]
        exact List.append_ne_nil_of_right_ne_nil _ hbatch)
      have hbefore := hready.lastIndex_succ h.based.aligned
      rw [h.based.appendAll_eq hready hcontiguous] at hlast ⊢
      dsimp only at hlast ⊢
      rw [List.length_append] at hlast
      omega
    · dsimp only
      rw [h.based.appendAll_eq hready hcontiguous]
      rcases List.mem_append.mp he with he | he
      · exact (h.accepted e he).imp_left (List.mem_append_left _)
      · exact .inl (List.mem_append_right _ he)

private theorem handleAppendEntries (h : Kept s) {req : AppendEntriesRequest}
    (hsuccessive : RaftLog.Successive req.entries)
    (hok : Numbered s (.serve (.handleAppendEntries req))) :
    Kept { s.record (.handleAppendEntries req) with
      node := (s.node.handleAppendEntries req).2 } := by
  obtain ⟨prev, hc⟩ := hsuccessive.contiguous
  obtain ⟨hlog, hbuffer⟩ := s.node.handleAppendEntries_log req
  have hleads : (s.node.handleAppendEntries req).2.state = .leader →
      s.snapshotIndex ≤ (s.node.handleAppendEntries req).2.log.lastIndex := fun hl => by
    have hsame := RaftNode.handleAppendEntries_of_leader hl
    rw [hsame] at hl ⊢
    exact h.leads hl
  by_cases hsuccess : (s.node.handleAppendEntries req).1.success = true
  swap
  · rw [if_neg hsuccess] at hlog
    rw [record, if_neg hsuccess]
    exact ⟨by rw [hlog]; exact h.based, hleads, by rw [hlog]; exact h.accepted,
      h.buffered.trans hbuffer.symm⟩
  rw [if_pos hsuccess] at hlog
  rw [record, if_pos hsuccess]
  refine ⟨by rw [hlog]; exact h.based.storeEntries hc, hleads, fun e he => ?_,
    h.buffered.trans hbuffer.symm⟩
  dsimp only at he ⊢
  rw [hlog]
  rcases h.accepted e he with hmem | hcovered | hover
  · by_cases hconflict : Conflict s.node.log req.entries e
    · refine .inr (.inr (List.mem_append_right _ (List.mem_filter.mpr ⟨he, ?_⟩)))
      exact decide_eq_true hconflict
    · have hkept := RaftNode.handleAppendEntries_retains h.based.aligned hsuccessive hmem
        fun hterm hprev hreaches => (hok hterm hprev e he hmem hreaches).resolve_left hconflict
      rw [hlog] at hkept
      exact .inl hkept
  · exact .inr (.inl hcovered)
  · exact .inr (.inr (List.mem_append_left _ hover))

private theorem quiet (h : Kept s) {call : RaftNode.Call} {n : RaftNode}
    (hn : s.node.serve call = some n) (hquiet : call.Quiet)
    (hleads : n.state = .leader → s.node.state = .leader ∨ s.snapshotIndex ≤ s.node.log.lastIndex) :
    Kept { s with node := n } := by
  obtain ⟨hlog, hbuffer⟩ := RaftNode.serve_quiet hn hquiet
  refine ⟨by dsimp only; rw [hlog]; exact h.based, fun hl => ?_,
    by dsimp only; rw [hlog]; exact h.accepted, h.buffered.trans hbuffer.symm⟩
  dsimp only
  rw [hlog]
  exact (hleads hl).elim h.leads id

theorem step (h : Kept s) {a : Action} (hok : Numbered s a) (hs : Logbook.step s a = some s') :
    Kept s' := by
  cases a with
  | applySnapshot snapshot => exact h.applySnapshot hok hs
  | serve call =>
    obtain ⟨n, hn, rfl⟩ := Option.map_eq_some_iff.mp hs
    cases call with
    | propose entry =>
      obtain rfl : (s.node.propose entry).2 = n := Option.some.inj hn
      rcases s.node.propose_cases entry with ⟨hstate, _⟩ | ⟨hleads, e, he, hres, heq⟩
      · simp only [record, RaftNode.propose_refused hstate]
        exact h
      · simp only [record, hres, heq]
        have hentry : { entry with term := s.node.currentTerm, index := e.index } = e := by rw [he]
        rw [hentry]
        exact h.recordProposal (by rw [he]) (h.leads hleads)
    | proposeConfChange cc =>
      obtain rfl : (s.node.proposeConfChange cc).2 = n := Option.some.inj hn
      rcases s.node.proposeConfChange_cases cc with ⟨hstate, _⟩ | ⟨hleads, e, he, hres, heq⟩
      · simp only [record, RaftNode.proposeConfChange_refused hstate]
        exact h
      · simp only [record, hres, heq]
        have hentry : ({
            term := s.node.currentTerm
            index := e.index
            type := .confChange
            confChange := cc } : RaftEntry) = e := by rw [he]
        rw [hentry]
        exact h.recordProposal (by rw [he]) (h.leads hleads)
    | proposeBatch entry =>
      obtain rfl : (s.node.proposeBatch entry).2 = n := Option.some.inj hn
      rcases s.node.proposeBatch_cases entry with ⟨hstate, _⟩ | ⟨_, e, he, hres, heq⟩
      · simp only [record, RaftNode.proposeBatch_refused hstate]
        exact h
      · simp only [record, hres, heq]
        have hentry : { entry with term := s.node.currentTerm, index := e.index } = e := by rw [he]
        rw [hentry, h.buffered]
        exact ⟨h.based, h.leads, h.accepted, rfl⟩
    | flushBatch =>
      obtain rfl : s.node.flushBatch = n := Option.some.inj hn
      exact h.flushBatch hok
    | handleAppendEntries req =>
      obtain ⟨hsuccessive, hn⟩ := Option.ite_none_right_eq_some.mp hn
      obtain rfl : (s.node.handleAppendEntries req).2 = n := Option.some.inj hn
      exact h.handleAppendEntries hsuccessive hok
    | becomeLeader => exact h.quiet hn trivial fun _ => .inr hok
    | becomeFollower term =>
      refine h.quiet hn trivial fun hl => ?_
      obtain rfl : s.node.becomeFollowerLocked term = n := Option.some.inj hn
      cases hl
    | becomeCandidate =>
      refine h.quiet hn trivial fun hl => ?_
      obtain rfl : s.node.becomeCandidateLocked = n := Option.some.inj hn
      cases hl
    | handleRequestVote req =>
      refine h.quiet hn trivial fun hl => .inl ?_
      obtain rfl : (s.node.handleRequestVote req).2 = n := Option.some.inj hn
      exact (s.node.handleRequestVote_leader req hl).1
    | appendResponse peer entries resp =>
      refine h.quiet hn trivial fun hl => .inl ?_
      obtain rfl : s.node.appendResponse peer entries resp = n := Option.some.inj hn
      rcases s.node.appendResponse_cases peer entries resp with ⟨_, heq⟩ | ⟨_, _, _, heq⟩
      · rw [heq] at hl
        cases hl
      · rw [heq] at hl
        exact hl
    | advanceCommitIndex =>
      refine h.quiet hn trivial fun hl => .inl ?_
      obtain rfl : s.node.advanceCommitIndex = n := Option.some.inj hn
      obtain ⟨_, heq⟩ := s.node.advanceCommitIndex_kept
      rw [heq] at hl
      exact hl
    | applyCommittedEntries =>
      refine h.quiet hn trivial fun hl => .inl ?_
      obtain rfl : s.node.applyCommittedEntries = n := Option.some.inj hn
      rwa [← s.node.applyCommittedEntries_kept.state] at hl

end Kept

/-- The index a proposal gets on each of the paths: `ProposeBatch` counts what is buffered, which a
flush numbers from `idx` on. -/
structure NextIndex (n : RaftNode) (idx : Nat) : Prop where
  propose : ∀ entry, (n.propose entry).1 = .ok idx
  proposeConfChange : ∀ cc, (n.proposeConfChange cc).1 = .ok idx
  proposeBatch : ∀ entry, (n.proposeBatch entry).1 = .ok (idx + n.batchBuffer.length)
  flushBatch : RaftLog.Contiguous idx n.renumberedBatch

/-- A leader numbers from the last entry, zero for an empty log. -/
theorem nextIndex_of_leader {n : RaftNode} (h : n.state = .leader) :
    NextIndex n (n.log.lastIndex + 1) := by
  have hleads := not_not.mpr (n.isLeader_iff.mpr h)
  refine ⟨fun entry => ?_, fun cc => ?_, fun entry => ?_, n.renumberedBatch_contiguous⟩
  · rw [RaftNode.propose, if_neg hleads]
  · rw [RaftNode.proposeConfChange, if_neg hleads]
  · rw [RaftNode.proposeBatch, if_neg hleads]

/-- As long as nobody takes office behind a snapshot and snapshots and requests respect what has been
accepted, the slots stay numbered, a leader numbers on behind the last entry and the last snapshot,
and every accepted proposal is in the log, unless a snapshot covers it or a conflict has taken it. -/
theorem log_representation (config : ClusterConfig) {s : Logbook}
    (hrun : Run step Numbered (start config) s) :
    s.node.log.Aligned ∧
    (s.node.state = .leader → NextIndex s.node (max s.node.log.lastIndex s.snapshotIndex + 1)) ∧
    (∀ e ∈ s.accepted, e ∈ s.node.log.entries ∨ e.index ≤ s.snapshotIndex ∨ e ∈ s.overwritten) ∧
    s.buffered = s.node.batchBuffer := by
  have h := hrun.invariant (P := Kept) (fun h hok hs => h.step hok hs) (.start config)
  refine ⟨h.based.aligned, fun hleads => ?_, h.accepted, h.buffered⟩
  rw [max_eq_left (h.leads hleads)]
  exact nextIndex_of_leader hleads

/-- A snapshot up to index 5, and then a term as leader. -/
def restoredLeader : List Action :=
  [.applySnapshot { lastIndex := 5, lastTerm := 1 }, .serve .becomeCandidate, .serve .becomeLeader]

/-- Two proposals, of which the leader of the next term sends the first one once more. -/
def sentAgain : List Action :=
  [.serve .becomeCandidate, .serve .becomeLeader, .serve (.propose {}), .serve (.propose {}),
    .serve (.handleAppendEntries ⟨2, 2, 0, 0, [{ term := 1, index := 1 }], 0⟩)]

/-- Behind a snapshot, a proposal gets index 1 in slot 6 and a batch is lost; and a request without a
conflict takes away the proposal behind its end. -/
theorem proposals_behind_snapshot :
    (∃ s, Run step (fun _ _ => True) (start {}) s ∧ ¬ s.node.log.Aligned ∧
      s.snapshotIndex = 5 ∧ s.accepted.map RaftEntry.index = [1]) ∧
    (∃ s, Run step (fun _ _ => True) (start {}) s ∧ s.snapshotIndex = 5 ∧ s.buffered = [] ∧
      ∃ e ∈ s.accepted, e ∉ s.node.log.entries ∧ e ∉ s.overwritten) ∧
    ∃ s, Run step (fun _ _ => True) (start {}) s ∧ s.snapshotIndex = 0 ∧ s.overwritten = [] ∧
      ∃ e ∈ s.accepted, e ∉ s.node.log.entries :=
  ⟨reachable_of_execute step (fun _ _ => True) (start {})
      (restoredLeader ++ [.serve (.propose {})]) (by decide),
    reachable_of_execute step (fun _ _ => True) (start {})
      (restoredLeader ++ [.serve (.proposeBatch {}), .serve .flushBatch]) (by decide),
    reachable_of_execute step (fun _ _ => True) (start {}) sentAgain (by decide)⟩

/-- A restored node that has caught up by two entries proposes as their leader's successor, and gives
way to the next leader with the last of its proposals. -/
theorem log_representation_caughtUp : ∃ s, Run step Numbered (start {}) s ∧
    (s.snapshotIndex = 5 ∧ s.accepted.map RaftEntry.index = [8, 9, 10] ∧
      s.overwritten.map RaftEntry.index = [10]) ∧ s.node.log.Aligned := by
  obtain ⟨s, hrun, hbook⟩ := reachable_of_execute step Numbered (start {})
    [.applySnapshot { lastIndex := 5, lastTerm := 1 },
      .serve (.handleAppendEntries
        ⟨1, 2, 5, 0, [{ term := 1, index := 6 }, { term := 1, index := 7 }], 7⟩),
      .serve .becomeCandidate, .serve .becomeLeader, .serve (.propose {}),
      .serve (.proposeBatch {}), .serve (.proposeBatch {}), .serve .flushBatch,
      .serve (.handleAppendEntries ⟨3, 3, 9, 2, [{ term := 3, index := 10 }], 7⟩)]
    (P := fun s => s.snapshotIndex = 5 ∧ s.accepted.map RaftEntry.index = [8, 9, 10] ∧
      s.overwritten.map RaftEntry.index = [10]) (by decide)
  exact ⟨s, hrun, hbook, (log_representation {} hrun).1⟩

end Logbook
end MyEtcd
