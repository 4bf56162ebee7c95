import MyEtcd.Cluster.Elections

/-! Who sends append requests.
`BroadcastHeartbeat` walks over the peers whatever has become of the node meanwhile. A request
is compared with the tenure in which it goes out: the states since the node last became leader. -/
namespace MyEtcd
open Library

namespace Cluster
variable {addresses : OrderedMap Nat Bytes} {s s' : Cluster} {i : Nat}

/-- Node `i` leads in `s` and has led without a break since it became leader in term `T`. The
earlier states of the run are listed from the newest on. -/
def Tenure (i T : Nat) (s : Cluster) : List Cluster → Prop
  | [] => False
  | prev :: older => (s.node i).state = .leader ∧
    ((prev.node i).state ≠ .leader ∧ (s.node i).currentTerm = T ∨ Tenure i T prev older)

theorem Tenure.leads {T : Nat} {older : List Cluster} (h : Tenure i T s older) :
    (s.node i).state = .leader := by
  cases older with
  | nil => exact absurd h id
  | cons prev rest => exact h.1

/-- A node that leads after a change of its state is in the term it was in. -/
def TermKept (n n' : RaftNode) : Prop := n'.state = .leader → n'.currentTerm = n.currentTerm

theorem termKept_becomeFollowerLocked (n : RaftNode) (term : Nat) :
    TermKept n (n.becomeFollowerLocked term) := by
  intro hstate
  cases hstate

theorem termKept_handleRequestVote (n : RaftNode) (req : RequestVoteRequest) :
    TermKept n (n.handleRequestVote req).2 := by
  rcases n.handleRequestVote_cases req with ⟨_, heq⟩ | ⟨_, m, hm, hcases⟩
  · rw [heq]
    exact fun _ => rfl
  · have hkept : TermKept n m := by
      rw [hm]
      split_ifs
      · exact termKept_becomeFollowerLocked n req.term
      · exact fun _ => rfl
    rcases hcases with heq | ⟨_, _, heq⟩
    · rwa [heq]
    · rw [heq]
      exact hkept

theorem termKept_handleAppendEntries (n : RaftNode) (req : AppendEntriesRequest) :
    TermKept n (n.handleAppendEntries req).2 := by
  rcases n.handleAppendEntries_cases req with ⟨_, heq⟩ | ⟨_, ⟨_, heq⟩ | ⟨_, _, m, hm, hcases⟩⟩
  · rw [heq]
    exact fun _ => rfl
  · rw [heq]
    exact termKept_becomeFollowerLocked n req.term
  · have hfollows : m.state = .follower := by
      rw [hm]
      rfl
    intro hstate
    rcases hcases with ⟨_, heq⟩ | ⟨_, heq⟩
    · rw [heq, hfollows] at hstate
      cases hstate
    · rw [heq, ← (RaftNode.applyCommittedEntries_kept _).state] at hstate
      cases hfollows.symm.trans hstate

theorem termKept_appendResponse (n : RaftNode) (peer : Nat) (entries : List RaftEntry)
    (resp : AppendEntriesResponse) : TermKept n (n.appendResponse peer entries resp) := by
  rcases n.appendResponse_cases peer entries resp with ⟨_, heq⟩ | ⟨_, _, _, heq⟩
  · rw [heq]
    exact termKept_becomeFollowerLocked n resp.term
  · rw [heq]
    exact fun _ => rfl

theorem termKept_propose (n : RaftNode) (entry : RaftEntry) : TermKept n (n.propose entry).2 := by
  rcases n.propose_cases entry with ⟨_, heq⟩ | ⟨_, _, _, _, heq⟩
  · rw [heq]
    exact fun _ => rfl
  · rw [heq]
    exact fun _ => rfl

theorem termKept_proposeBatch (n : RaftNode) (entry : RaftEntry) :
    TermKept n (n.proposeBatch entry).2 := by
  rcases n.proposeBatch_cases entry with ⟨_, heq⟩ | ⟨_, _, _, _, heq⟩
  · rw [heq]
    exact fun _ => rfl
  · rw [heq]
    exact fun _ => rfl

theorem termKept_flushBatch (n : RaftNode) : TermKept n n.flushBatch := by
  rcases n.flushBatch_cases with ⟨_, heq⟩ | ⟨_, heq⟩
  · rw [heq]
    exact fun _ => rfl
  · rw [heq]
    exact fun _ => rfl

/-- No step changes the term of a node that leads after it. -/
theorem termKept_step {a : Action} (hs : step addresses s a = some s') (i : Nat) :
    TermKept (s.node i) (s'.node i) := by
  have hset {j : Nat} {n : RaftNode} (hn : TermKept (s.node j) n) :
      TermKept (s.node i) ((s.setNode j n).node i) := by
    rcases eq_or_ne i j with rfl | hne
    · simpa [setNode] using hn
    · simp [setNode, hne, TermKept]
  cases step_cases hs with
  | timeout configured here state => exact hset (fun hl => by cases hl)
  | winAlone here alone => exact hset (n := (s.node _).becomeLeaderLocked) (fun _ => rfl)
  | deposed here later => exact hset (termKept_becomeFollowerLocked _ _)
  | win here enough => exact hset (n := (s.node _).becomeLeaderLocked) (fun _ => rfl)
  | beginHeartbeat here => exact hset (termKept_flushBatch _)
  | recvAppend here sent answered => exact hset (termKept_appendResponse _ _ _ _)
  | @advance j here =>
    obtain ⟨_, heq⟩ := (s.node j).advanceCommitIndex_kept
    rw [heq]
    exact hset (n := { s.node j with commitIndex := _ }) (fun _ => rfl)
  | @apply j here =>
    exact hset (fun _ => (s.node j).applyCommittedEntries_kept.currentTerm.symm)
  | handleVote sent => exact hset (termKept_handleRequestVote _ _)
  | handleAppend sent => exact hset (termKept_handleAppendEntries _ _)
  | propose plain => exact hset (termKept_propose _ _)
  | proposeBatch plain => exact hset (termKept_proposeBatch _ _)
  | flushBatch => exact hset (termKept_flushBatch _)
  | _ => exact fun _ => rfl

/-- Whoever leads has led since it became leader in its present term. -/
theorem tenure_of_leader {older : List Cluster}
    (h : Trace (step addresses) (start addresses) older s) (hstate : (s.node i).state = .leader) :
    Tenure i (s.node i).currentTerm s older := by
  induction h with
  | start => cases hstate
  | @next older t u a before taken ih =>
    refine ⟨hstate, ?_⟩
    by_cases hbefore : (t.node i).state = .leader
    · rw [termKept_step taken i hstate]
      exact .inr (ih hbefore)
    · exact .inl ⟨hbefore, rfl⟩

/-- A request names a tenure its sender is in exactly when the sender still leads. -/
theorem sends_in_tenure_iff {older : List Cluster}
    (h : Trace (step addresses) (start addresses) older s)
    (hs : step addresses s (.sendAppend i) = some s') :
    ∃ c, s'.appendCalls = s.appendCalls ++ [c] ∧ c.source = i ∧ c.request.leaderId = i ∧
      (Tenure i c.request.term s older ↔ (s.node i).state = .leader) := by
  have hrouted : Routed addresses s :=
    h.run.invariant (fun hr _ hstep => hr.step hstep) (.start addresses)
  cases step_cases hs with
  | @sendAppend i commit peer rest here =>
    exact ⟨⟨i, peer, (s.node i).appendRequest peer commit⟩, rfl, rfl, (hrouted.node i).nodeId,
      Tenure.leads, tenure_of_leader h⟩

/-- Node 1 leads term 1, sends to node 2 and votes for node 3 in term 2 before the next request. -/
def interruptedBroadcast : List Action :=
  canvass ++ [.finishElection 1, .enterHeartbeat 1, .beginHeartbeat 1, .sendAppend 1,
    .recvAppend 1 .unreachable, .timeout 3, .enterElection 3, .beginElection 3, .sendVote 3,
    .handleVote 2]

/-- The second request says that node 1 leads term 2. -/
theorem sends_as_follower : ¬ ∀ (addresses : OrderedMap Nat Bytes) (older : List Cluster)
    (s s' : Cluster) (i : Nat), Trace (step addresses) (start addresses) older s →
    step addresses s (.sendAppend i) = some s' →
    ∀ c, s'.appendCalls = s.appendCalls ++ [c] → Tenure i c.request.term s older := by
  intro h
  obtain ⟨s, hrun, hstate, hsome⟩ := reachable_of_execute (step trio.addresses)
    (fun _ _ => True) (start trio.addresses) interruptedBroadcast
    (P := fun s => (s.node 1).state = .follower ∧
      (step trio.addresses s (.sendAppend 1)).isSome = true) (by decide)
  obtain ⟨older, htrace⟩ := hrun.trace
  obtain ⟨s', hs'⟩ := Option.isSome_iff_exists.mp hsome
  cases step_cases hs' with
  | sendAppend here =>
    have hleads := (h _ _ _ _ _ htrace hs' _ rfl).leads
    rw [hstate] at hleads
    cases hleads

/-- Before the interruption node 1 sends in its own tenure. -/
theorem sends_in_tenure_canvass : ∃ older s s', Trace (step trio.addresses) (start trio.addresses)
    older s ∧ step trio.addresses s (.sendAppend 1) = some s' ∧
    ∃ c, s'.appendCalls = s.appendCalls ++ [c] ∧ Tenure 1 c.request.term s older := by
  obtain ⟨s, hrun, hstate, hsome⟩ := reachable_of_execute (step trio.addresses)
    (fun _ _ => True) (start trio.addresses)
    (canvass ++ [.finishElection 1, .enterHeartbeat 1, .beginHeartbeat 1])
    (P := fun s => (s.node 1).state = .leader ∧
      (step trio.addresses s (.sendAppend 1)).isSome = true) (by decide)
  obtain ⟨older, htrace⟩ := hrun.trace
  obtain ⟨s', hs'⟩ := Option.isSome_iff_exists.mp hsome
  obtain ⟨c, hc, _, _, hiff⟩ := sends_in_tenure_iff htrace hs'
  exact ⟨older, s, s', htrace, hs', c, hc, hiff.mpr hstate⟩

end Cluster
end MyEtcd
