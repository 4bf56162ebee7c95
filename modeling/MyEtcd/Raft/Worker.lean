import MyEtcd.Raft.Service

/-! The worker thread of one node with a clock: `Run`, the waits in it, and calls in between.
A wait ends at its deadline, or before it where it is woken and its predicate holds; the one of a
follower has a predicate that only `Stop` makes true. -/
namespace MyEtcd
open Library

structure Timing where
  electionTimeout : Nat
  maxElectionTimeout : Nat
  heartbeatInterval : Nat

/-- How far the worker thread is in `Run`, and what it still reads of its local variables. -/
inductive RunStage where
  /-- Before the `switch`, after the case named. -/
  | switch (last : Option NodeState)
  | follower
  | followerWait (deadline : Nat)
  | election
  | collecting (votes : Nat) (rest : List Nat)
  | candidate
  | candidateWait (deadline : Nat)
  | heartbeat
  | replicating (commit : Nat) (rest : List Nat)
  | awaitAppend (commit peer : Nat) (entries : List RaftEntry) (rest : List Nat)
  | advance
  | apply
  | leader
  | leaderWait (deadline : Nat)
  deriving DecidableEq

namespace RunStage

/-- When the wait that the thread is in runs out. -/
def deadline : RunStage → Option Nat
  | .followerWait deadline | .candidateWait deadline | .leaderWait deadline => some deadline
  | _ => none

/-- The stages of the Leader case. -/
def Leading : RunStage → Prop
  | .heartbeat | .replicating .. | .awaitAppend .. | .advance | .apply | .leader
  | .leaderWait _ => True
  | _ => False

/-- The stages of the Candidate case from the call of `StartElection` on. -/
def Standing : RunStage → Prop
  | .collecting .. | .candidate | .candidateWait _ => True
  | _ => False

end RunStage

/-- A node with its worker thread, the clock, the terms of its elections (newest first) and the times
at which it has handled an append request of a term that is not old. -/
structure Worker where
  node : RaftNode
  stage : RunStage := .switch none
  now : Nat := 0
  elections : List Nat := []
  heard : List Nat := []

namespace Worker

inductive Event where
  | tick
  /-- The thread reads `state_` at the `switch`. -/
  | enter
  /-- The thread begins a wait; the timeout of an election is drawn at random. -/
  | wait (timeout : Nat)
  | expire
  | wake
  | beginElection
  | recvVote (resp : RequestVoteResponse)
  | finishElection
  | beginHeartbeat
  | sendAppend
  | recvAppend (resp : AppendEntriesResponse)
  | finishHeartbeat
  | advance
  | apply
  /-- Another thread calls a handler or proposes. -/
  | call (c : RaftNode.Call)

def outside : RaftNode.Call → Bool
  | .propose _ | .proposeConfChange _ | .proposeBatch _ => true
  | .handleRequestVote _ | .handleAppendEntries _ => true
  | _ => false

/-- Whether a call is an append request of a term that is not old. -/
def hears (n : RaftNode) : RaftNode.Call → Bool
  | .handleAppendEntries req => n.currentTerm ≤ req.term
  | _ => false

def goTo (w : Worker) (n : RaftNode) (stage : RunStage) : Worker :=
  { w with node := n, stage := stage }

/-- One step of the thread, of the clock or of another thread. -/
def step (timing : Timing) (w : Worker) : Event → Option Worker
  | .tick =>
    if w.stage.deadline.all (w.now < ·) then some { w with now := w.now + 1 } else none
  | .enter =>
    match w.stage with
    | .switch _ =>
      match w.node.state with
      | .follower => some (w.goTo w.node .follower)
      | .candidate => some (w.goTo w.node .election)
      | .leader => some (w.goTo w.node .heartbeat)
    | _ => none
  | .wait timeout =>
    match w.stage with
    | .follower =>
      if timing.electionTimeout ≤ timeout ∧ timeout ≤ timing.maxElectionTimeout then
        some (w.goTo w.node (.followerWait (w.now + timeout)))
      else none
    | .candidate =>
      if timing.electionTimeout ≤ timeout ∧ timeout ≤ timing.maxElectionTimeout then
        some (w.goTo w.node (.candidateWait (w.now + timeout)))
      else none
    | .leader =>
      if timeout = timing.heartbeatInterval then
        some (w.goTo w.node (.leaderWait (w.now + timeout)))
      else none
    | _ => none
  | .expire =>
    if w.stage.deadline = some w.now then
      match w.stage with
      | .followerWait _ => some (w.goTo w.node.becomeCandidateLocked (.switch (some .follower)))
      | .candidateWait _ => some (w.goTo w.node (.switch (some .candidate)))
      | .leaderWait _ => some (w.goTo w.node (.switch (some .leader)))
      | _ => none
    else none
  | .wake =>
    match w.stage with
    | .candidateWait _ =>
      if w.node.state ≠ .candidate then some (w.goTo w.node (.switch (some .candidate))) else none
    | .leaderWait _ =>
      if w.node.state ≠ .leader then some (w.goTo w.node (.switch (some .leader))) else none
    | _ => none
  | .beginElection =>
    if w.stage = .election then
      let started := { w with elections := w.node.voteRequest.term :: w.elections }
      if w.node.peers.keys = [] then some (started.goTo w.node.becomeLeaderLocked .candidate)
      else some (started.goTo w.node (.collecting 1 w.node.peers.keys))
    else none
  | .recvVote resp =>
    match w.stage with
    | .collecting votes (_ :: rest) =>
      if resp.term > w.node.currentTerm then
        some (w.goTo (w.node.becomeFollowerLocked resp.term) .candidate)
      else
        some (w.goTo w.node (.collecting (if resp.voteGranted then votes + 1 else votes) rest))
    | _ => none
  | .finishElection =>
    match w.stage with
    | .collecting votes [] =>
      if votes ≥ w.node.majority then some (w.goTo w.node.becomeLeaderLocked .candidate)
      else some (w.goTo w.node .candidate)
    | _ => none
  | .beginHeartbeat =>
    if w.stage = .heartbeat then
      some (w.goTo w.node.flushBatch
        (.replicating w.node.commitIndex w.node.flushBatch.peers.keys))
    else none
  | .sendAppend =>
    match w.stage with
    | .replicating commit (peer :: rest) =>
      some (w.goTo w.node
        (.awaitAppend commit peer (w.node.appendRequest peer commit).entries rest))
    | _ => none
  | .recvAppend resp =>
    match w.stage with
    | .awaitAppend commit peer entries rest =>
      some (w.goTo (w.node.appendResponse peer entries resp)
        (if resp.term > w.node.currentTerm then .advance else .replicating commit rest))
    | _ => none
  | .finishHeartbeat =>
    match w.stage with
    | .replicating _ [] => some (w.goTo w.node .advance)
    | _ => none
  | .advance =>
    if w.stage = .advance then some (w.goTo w.node.advanceCommitIndex .apply) else none
  | .apply =>
    if w.stage = .apply then some (w.goTo w.node.applyCommittedEntries .leader) else none
  | .call c =>
    if outside c then
      some { w with
        node := w.node.after c
        heard := if hears w.node c then w.now :: w.heard else w.heard }
    else none

def start (config : ClusterConfig) (snapshot : Option Snapshot) : Worker :=
  { node := (RaftNode.ofSnapshot config snapshot).becomeFollowerLocked 0 }

end Worker

namespace RaftNode

/-- The term does not fall, and only who was a candidate in that term is one. -/
structure Yields (n n' : RaftNode) : Prop where
  term : n.currentTerm ≤ n'.currentTerm
  candidate : n'.state = .candidate → n.state = .candidate ∧ n'.currentTerm = n.currentTerm

namespace Yields
variable {n n' : RaftNode}

theorem of_eq (hterm : n'.currentTerm = n.currentTerm) (hstate : n'.state = n.state) :
    Yields n n' :=
  ⟨hterm.ge, fun h => ⟨hstate ▸ h, hterm⟩⟩

theorem refl (n : RaftNode) : Yields n n := .of_eq rfl rfl

theorem of_state (hterm : n.currentTerm ≤ n'.currentTerm) (hstate : n'.state ≠ .candidate) :
    Yields n n' :=
  ⟨hterm, fun h => absurd h hstate⟩

theorem becomeFollowerLocked (n : RaftNode) (term : Nat) :
    Yields n (n.becomeFollowerLocked term) := by
  rcases Nat.lt_or_ge n.currentTerm term with hlt | hle
  · rw [becomeFollowerLocked_of_lt hlt]
    exact .of_state hlt.le (by simp)
  · rw [becomeFollowerLocked_of_le hle]
    exact .of_state le_rfl (by simp)

theorem becomeLeaderLocked (n : RaftNode) : Yields n n.becomeLeaderLocked :=
  .of_state le_rfl (by simp [RaftNode.becomeLeaderLocked])

theorem flushBatch (n : RaftNode) : Yields n n.flushBatch := by
  rcases n.flushBatch_cases with ⟨_, heq⟩ | ⟨_, heq⟩
  · rw [heq]
    exact .refl n
  · rw [heq]
    exact .of_eq rfl rfl

theorem appendResponse (n : RaftNode) (peer : Nat) (entries : List RaftEntry)
    (resp : AppendEntriesResponse) : Yields n (n.appendResponse peer entries resp) := by
  rcases n.appendResponse_cases peer entries resp with ⟨_, heq⟩ | ⟨_, _, _, heq⟩
  · rw [heq]
    exact becomeFollowerLocked n resp.term
  · rw [heq]
    exact .of_eq rfl rfl

theorem advanceCommitIndex (n : RaftNode) : Yields n n.advanceCommitIndex := by
  obtain ⟨_, heq⟩ := n.advanceCommitIndex_kept
  rw [heq]
  exact .of_eq rfl rfl

theorem applyCommittedEntries (n : RaftNode) : Yields n n.applyCommittedEntries :=
  have h := n.applyCommittedEntries_kept
  .of_eq h.currentTerm.symm h.state.symm

theorem handleRequestVote (n : RaftNode) (req : RequestVoteRequest) :
    Yields n (n.handleRequestVote req).2 := by
  rcases n.handleRequestVote_cases req with ⟨_, heq⟩ | ⟨_, m, hm, hcases⟩
  · rw [heq]
    exact .refl n
  have hyields : Yields n m := by
    rw [hm]
    split_ifs
    · exact becomeFollowerLocked n req.term
    · exact .refl n
  rcases hcases with heq | ⟨_, _, heq⟩
  · rwa [heq]
  · rw [heq]
    exact ⟨hyields.term, hyields.candidate⟩

theorem handleAppendEntries (n : RaftNode) (req : AppendEntriesRequest) :
    Yields n (n.handleAppendEntries req).2 := by
  have hfollower := becomeFollowerLocked n req.term
  rcases n.handleAppendEntries_cases req with
    ⟨_, heq⟩ | ⟨_, ⟨_, heq⟩ | ⟨_, _, m, hm, ⟨_, heq⟩ | ⟨_, heq⟩⟩⟩
  · rw [heq]
    exact .refl n
  · rw [heq]
    exact ⟨hfollower.term, hfollower.candidate⟩
  · rw [heq, hm]
    exact ⟨hfollower.term, hfollower.candidate⟩
  · have hkept := applyCommittedEntries { m with
      commitIndex := min req.leaderCommit m.log.lastIndex }
    rw [hm] at hkept heq
    rw [heq]
    exact ⟨hfollower.term.trans hkept.term, fun h =>
      have hbefore := hkept.candidate h
      have hfirst := hfollower.candidate hbefore.1
      ⟨hfirst.1, hbefore.2.trans hfirst.2⟩⟩

/-- What other threads call makes nobody a candidate. -/
theorem after (n : RaftNode) {c : Call} (h : Worker.outside c = true) : Yields n (n.after c) := by
  cases c with
  | propose entry =>
    rcases n.propose_cases entry with ⟨_, heq⟩ | ⟨_, _, _, _, heq⟩
    · rw [RaftNode.after, heq]
      exact .refl n
    · rw [RaftNode.after, heq]
      exact .of_eq rfl rfl
  | proposeConfChange cc =>
    rcases n.proposeConfChange_cases cc with ⟨_, heq⟩ | ⟨_, _, _, _, heq⟩
    · rw [RaftNode.after, heq]
      exact .refl n
    · rw [RaftNode.after, heq]
      exact .of_eq rfl rfl
  | proposeBatch entry =>
    rcases n.proposeBatch_cases entry with ⟨_, heq⟩ | ⟨_, _, _, _, heq⟩
    · rw [RaftNode.after, heq]
      exact .refl n
    · rw [RaftNode.after, heq]
      exact .of_eq rfl rfl
  | handleRequestVote req => exact handleRequestVote n req
  | handleAppendEntries req => exact handleAppendEntries n req
  | _ => cases h

end Yields
end RaftNode

namespace Worker

/-- What one step can do. Inside the Candidate case and the Leader case it matters only that the
thread stays there or goes back to the `switch`. -/
inductive Stepped (timing : Timing) (w : Worker) : Event → Worker → Prop where
  | tick (room : ∀ deadline ∈ w.stage.deadline, w.now < deadline) :
      Stepped timing w .tick { w with now := w.now + 1 }
  | enterFollower {last : Option NodeState} (here : w.stage = .switch last)
      (state : w.node.state = .follower) : Stepped timing w .enter (w.goTo w.node .follower)
  | enterCandidate {last : Option NodeState} (here : w.stage = .switch last)
      (state : w.node.state = .candidate) : Stepped timing w .enter (w.goTo w.node .election)
  | enterLeader {last : Option NodeState} (here : w.stage = .switch last)
      (state : w.node.state = .leader) : Stepped timing w .enter (w.goTo w.node .heartbeat)
  | waitFollower {timeout : Nat} (here : w.stage = .follower)
      (least : timing.electionTimeout ≤ timeout) :
      Stepped timing w (.wait timeout) (w.goTo w.node (.followerWait (w.now + timeout)))
  | challenge (here : w.stage = .followerWait w.now) :
      Stepped timing w .expire (w.goTo w.node.becomeCandidateLocked (.switch (some .follower)))
  | elect {n : RaftNode} {stage : RunStage} (here : w.stage = .election)
      (yields : RaftNode.Yields w.node n) (goes : stage.Standing) :
      Stepped timing w .beginElection
        ({ w with elections := w.node.currentTerm :: w.elections }.goTo n stage)
  | standing {e : Event} {n : RaftNode} {stage : RunStage} (here : w.stage.Standing)
      (yields : RaftNode.Yields w.node n)
      (goes : stage.Standing ∨ stage = .switch (some .candidate)) :
      Stepped timing w e (w.goTo n stage)
  | leading {e : Event} {n : RaftNode} {stage : RunStage} (here : w.stage.Leading)
      (yields : RaftNode.Yields w.node n) (goes : stage.Leading ∨ stage = .switch (some .leader)) :
      Stepped timing w e (w.goTo n stage)
  | call {c : RaftNode.Call} (yields : RaftNode.Yields w.node (w.node.after c)) :
      Stepped timing w (.call c) { w with
        node := w.node.after c
        heard := if hears w.node c then w.now :: w.heard else w.heard }

theorem step_cases {timing : Timing} {w w' : Worker} {e : Event} (h : step timing w e = some w') :
    Stepped timing w e w' := by
  cases e with
  | tick =>
    obtain ⟨hroom, h⟩ := Option.ite_none_right_eq_some.mp h
    obtain rfl := Option.some.inj h
    refine .tick fun deadline hd => ?_
    simpa [Option.mem_def.mp hd] using hroom
  | enter =>
    rw [step] at h
    split at h
    · next here =>
      cases hstate : w.node.state with
      | follower =>
        rw [hstate] at h
        exact Option.some.inj h ▸ .enterFollower here hstate
      | candidate =>
        rw [hstate] at h
        exact Option.some.inj h ▸ .enterCandidate here hstate
      | leader =>
        rw [hstate] at h
        exact Option.some.inj h ▸ .enterLeader here hstate
    · cases h
  | wait timeout =>
    rw [step] at h
    split at h
    · next here =>
      obtain ⟨hbounds, h⟩ := Option.ite_none_right_eq_some.mp h
      exact Option.some.inj h ▸ .waitFollower here hbounds.1
    · next here =>
      obtain ⟨_, h⟩ := Option.ite_none_right_eq_some.mp h
      exact Option.some.inj h ▸ .standing (by simp [here, RunStage.Standing]) (.refl _)
        (.inl trivial)
    · next here =>
      obtain ⟨_, h⟩ := Option.ite_none_right_eq_some.mp h
      exact Option.some.inj h ▸ .leading (by simp [here, RunStage.Leading]) (.refl _) (.inl trivial)
    · cases h
  | expire =>
    obtain ⟨hdue, h⟩ := Option.ite_none_right_eq_some.mp h
    split at h
    · next here =>
      rw [here] at hdue
      obtain rfl := Option.some.inj hdue
      exact Option.some.inj h ▸ .challenge here
    · next here =>
      exact Option.some.inj h ▸ .standing (by simp [here, RunStage.Standing]) (.refl _) (.inr rfl)
    · next here =>
      exact Option.some.inj h ▸ .leading (by simp [here, RunStage.Leading]) (.refl _) (.inr rfl)
    · cases h
  | wake =>
    rw [step] at h
    split at h
    · next here =>
      obtain ⟨_, h⟩ := Option.ite_none_right_eq_some.mp h
      exact Option.some.inj h ▸ .standing (by simp [here, RunStage.Standing]) (.refl _) (.inr rfl)
    · next here =>
      obtain ⟨_, h⟩ := Option.ite_none_right_eq_some.mp h
      exact Option.some.inj h ▸ .leading (by simp [here, RunStage.Leading]) (.refl _) (.inr rfl)
    · cases h
  | beginElection =>
    obtain ⟨here, h⟩ := Option.ite_none_right_eq_some.mp h
    split_ifs at h
    · exact Option.some.inj h ▸ .elect here (.becomeLeaderLocked _) trivial
    · exact Option.some.inj h ▸ .elect here (.refl _) trivial
  | recvVote resp =>
    rw [step] at h
    split at h
    · next here =>
      have hstanding : w.stage.Standing := by simp [here, RunStage.Standing]
      split_ifs at h
      · exact Option.some.inj h ▸ .standing hstanding (.becomeFollowerLocked _ _) (.inl trivial)
      · exact Option.some.inj h ▸ .standing hstanding (.refl _) (.inl trivial)
      · exact Option.some.inj h ▸ .standing hstanding (.refl _) (.inl trivial)
    · cases h
  | finishElection =>
    rw [step] at h
    split at h
    · next here =>
      have hstanding : w.stage.Standing := by simp [here, RunStage.Standing]
      split_ifs at h
      · exact Option.some.inj h ▸ .standing hstanding (.becomeLeaderLocked _) (.inl trivial)
      · exact Option.some.inj h ▸ .standing hstanding (.refl _) (.inl trivial)
    · cases h
  | beginHeartbeat =>
    obtain ⟨here, h⟩ := Option.ite_none_right_eq_some.mp h
    exact Option.some.inj h ▸ .leading (by simp [here, RunStage.Leading]) (.flushBatch _)
      (.inl trivial)
  | sendAppend =>
    rw [step] at h
    split at h
    · next here =>
      exact Option.some.inj h ▸ .leading (by simp [here, RunStage.Leading]) (.refl _) (.inl trivial)
    · cases h
  | recvAppend resp =>
    rw [step] at h
    split at h
    · next here =>
      refine Option.some.inj h ▸ .leading (by simp [here, RunStage.Leading])
        (.appendResponse _ _ _ _) (.inl ?_)
      split_ifs
      · trivial
      · trivial
    · cases h
  | finishHeartbeat =>
    rw [step] at h
    split at h
    · next here =>
      exact Option.some.inj h ▸ .leading (by simp [here, RunStage.Leading]) (.refl _) (.inl trivial)
    · cases h
  | advance =>
    obtain ⟨here, h⟩ := Option.ite_none_right_eq_some.mp h
    exact Option.some.inj h ▸ .leading (by simp [here, RunStage.Leading]) (.advanceCommitIndex _)
      (.inl trivial)
  | apply =>
    obtain ⟨here, h⟩ := Option.ite_none_right_eq_some.mp h
    exact Option.some.inj h ▸ .leading (by simp [here, RunStage.Leading]) (.applyCommittedEntries _)
      (.inl trivial)
  | call c =>
    obtain ⟨hother, h⟩ := Option.ite_none_right_eq_some.mp h
    exact Option.some.inj h ▸ .call (.after _ hother)

end Worker
end MyEtcd
