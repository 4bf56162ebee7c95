import MyEtcd.Cluster.Agreement
import MyEtcd.Raft.SingleNode

/-! What is committed stays committed, and all nodes deliver one and the same sequence of entries.
A later state of a run is compared with an earlier one: the history only grows in between. -/
namespace MyEtcd
open Library Library.Consensus

namespace RaftNode

structure Applies (n : RaftNode) : Prop where
  committed : n.lastApplied ≤ n.commitIndex
  delivered : n.delivered = n.log.entries.take n.lastApplied

structure Extends (n n' : RaftNode) : Prop where
  commit : n.commitIndex ≤ n'.commitIndex
  log : n'.log.entries.take n.commitIndex = n.log.entries.take n.commitIndex

namespace Extends
variable {n n' n'' : RaftNode}

theorem refl (n : RaftNode) : n.Extends n := ⟨le_rfl, rfl⟩

theorem trans (h : n.Extends n') (h' : n'.Extends n'') : n.Extends n'' where
  commit := h.commit.trans h'.commit
  log := (take_eq_mono h'.log h.commit).trans h.log

theorem of_isPrefix (hlog : n.log.entries <+: n'.log.entries)
    (hcommit : n.commitIndex ≤ n'.commitIndex) (hreach : n.commitIndex ≤ n.log.entries.length) :
    n.Extends n' :=
  ⟨hcommit, take_eq_of_isPrefix hlog hreach⟩

end Extends

/-- A call that is no append request adds to the log or leaves it alone. -/
theorem after_extends {n : RaftNode} (h : n.log.Whole)
    (hreach : n.commitIndex ≤ n.log.entries.length) {c : Call}
    (hc : ∀ req, c ≠ .handleAppendEntries req) : n.Extends (n.after c) := by
  have hsame {m : RaftNode} (hlog : m.log = n.log) (hcommit : m.commitIndex = n.commitIndex) :
      n.Extends m := ⟨hcommit.ge, by rw [hlog]⟩
  cases c with
  | becomeFollower term =>
    obtain ⟨_, _, heq⟩ := n.becomeFollowerLocked_eq term
    rw [after, heq]
    exact hsame rfl rfl
  | becomeCandidate => exact hsame rfl rfl
  | becomeLeader => exact hsame rfl rfl
  | propose entry =>
    rw [after]
    rcases n.propose_cases entry with ⟨_, heq⟩ | ⟨_, _, _, _, heq⟩
    · rw [heq]
      exact .refl n
    · rw [heq]
      exact .of_isPrefix (List.prefix_append _ _) le_rfl hreach
  | proposeConfChange cc =>
    rw [after]
    rcases n.proposeConfChange_cases cc with ⟨_, heq⟩ | ⟨_, _, _, _, heq⟩
    · rw [heq]
      exact .refl n
    · rw [heq]
      exact .of_isPrefix (List.prefix_append _ _) le_rfl hreach
  | proposeBatch entry =>
    rw [after]
    rcases n.proposeBatch_cases entry with ⟨_, heq⟩ | ⟨_, _, _, _, heq⟩
    · rw [heq]
      exact .refl n
    · rw [heq]
      exact hsame rfl rfl
  | flushBatch =>
    rw [after]
    rcases n.flushBatch_cases with ⟨_, heq⟩ | ⟨_, heq⟩
    · rw [heq]
      exact .refl n
    · rw [heq, h.appendAll n.renumberedBatch_contiguous]
      exact .of_isPrefix (List.prefix_append _ _) le_rfl hreach
  | handleRequestVote req =>
    obtain ⟨_, _, _, heq⟩ := n.handleRequestVote_eq req
    rw [after, heq]
    exact hsame rfl rfl
  | handleAppendEntries req => exact absurd rfl (hc req)
  | appendResponse peer entries resp =>
    obtain ⟨_, _, hfollower⟩ := n.becomeFollowerLocked_eq resp.term
    rw [after]
    rcases n.appendResponse_cases peer entries resp with ⟨_, heq⟩ | ⟨_, _, _, heq⟩
    · rw [heq, hfollower]
      exact hsame rfl rfl
    · rw [heq]
      exact hsame rfl rfl
  | advanceCommitIndex =>
    rw [after]
    rcases n.advanceCommitIndex_cases with heq | ⟨N, heq, _, hlater, _⟩
    · rw [heq]
      exact .refl n
    · rw [heq]
      exact .of_isPrefix List.prefix_rfl hlater.le hreach
  | applyCommittedEntries =>
    have hk := n.applyCommittedEntries_kept
    exact hsame hk.log.symm hk.commitIndex.symm

/-- No call takes back what has been handed over. -/
theorem delivered_after (n : RaftNode) (c : Call) : n.delivered <+: (n.after c).delivered := by
  obtain ⟨m, hm, _, _, hcalls, _⟩ := n.after_cases c
  have hdelivered : m.delivered = n.delivered := congrArg List.flatten hcalls
  rw [← hdelivered]
  rcases hm with heq | ⟨heq, _⟩
  · rw [heq]
  · rw [heq, m.applyCommittedEntries_delivered.1]
    exact List.prefix_append _ _

/-- Whatever is called, the front of the log is handed over in order, as long as what is committed
stays. -/
theorem Applies.after {n : RaftNode} (h : n.Applies) {c : Call} (hext : n.Extends (n.after c))
    (hwhole : (n.after c).log.Whole)
    (hreach : (n.after c).commitIndex ≤ (n.after c).log.entries.length) : (n.after c).Applies := by
  have htake : (n.after c).log.entries.take n.lastApplied = n.log.entries.take n.lastApplied :=
    take_eq_mono hext.log h.committed
  have hle := h.committed.trans hext.commit
  obtain ⟨m, hm, _, _, hcalls, happlied⟩ := n.after_cases c
  have hdelivered : m.delivered = n.delivered := congrArg List.flatten hcalls
  rcases hm with rfl | ⟨heq, _⟩
  · exact ⟨happlied ▸ hle, by rw [hdelivered, happlied, h.delivered, htake]⟩
  · obtain ⟨hmore, hlast⟩ := m.applyCommittedEntries_delivered
    have hk := m.applyCommittedEntries_kept
    rw [heq] at hwhole hreach htake hle ⊢
    rw [← hk.commitIndex] at hle
    rw [← hk.commitIndex, ← hk.log] at hreach
    rw [← hk.log] at hwhole htake
    rw [happlied] at hmore hlast
    refine ⟨by rw [hlast, ← hk.commitIndex, max_eq_right hle], ?_⟩
    rw [hmore, hlast, max_eq_right hle, ← hk.log, hdelivered, h.delivered, ← htake]
    split_ifs with hbehind
    · have hsplit : m.log.entries.take n.lastApplied =
          (m.log.entries.take m.commitIndex).take n.lastApplied := by
        rw [List.take_take, min_eq_left hle]
      rw [hwhole.slice hle hreach, hsplit, List.take_append_drop]
    · rw [List.append_nil, hle.antisymm (not_lt.mp hbehind)]

end RaftNode

namespace Cluster
variable {addresses : OrderedMap Nat Bytes} {s s' : Cluster} {P : History}

/-- A step of the cluster leaves a node as it is, or is one call on it. -/
theorem step_node {a : Action} (hs : step addresses s a = some s') (j : Nat) :
    s'.node j = s.node j ∨ ∃ c, s'.node j = (s.node j).after c ∧
      ∀ req, c = .handleAppendEntries req →
        ∃ id call, a = .handleAppend id ∧ s.appendCalls[id]? = some call ∧ call.dest = j ∧
          call.request = req := by
  have hquiet {i : Nat} {n : RaftNode} {c : RaftNode.Call} (hn : n = (s.node i).after c)
      (hc : ∀ req, c ≠ .handleAppendEntries req) :
      (s.setNode i n).node j = s.node j ∨ ∃ c, (s.setNode i n).node j = (s.node j).after c ∧
        ∀ req, c = .handleAppendEntries req →
          ∃ id call, a = .handleAppend id ∧ s.appendCalls[id]? = some call ∧ call.dest = j ∧
            call.request = req := by
    rcases eq_or_ne j i with rfl | hne
    · exact .inr ⟨c, by simp [setNode, hn], fun req heq => absurd heq (hc req)⟩
    · exact .inl (by simp [setNode, hne])
  cases step_cases hs with
  | timeout => exact hquiet (c := .becomeCandidate) rfl (by simp)
  | winAlone => exact hquiet (c := .becomeLeader) rfl (by simp)
  | deposed => exact hquiet (c := .becomeFollower _) rfl (by simp)
  | win => exact hquiet (c := .becomeLeader) rfl (by simp)
  | beginHeartbeat => exact hquiet (c := .flushBatch) rfl (by simp)
  | recvAppend => exact hquiet (c := .appendResponse _ _ _) rfl (by simp)
  | advance => exact hquiet (c := .advanceCommitIndex) rfl (by simp)
  | apply => exact hquiet (c := .applyCommittedEntries) rfl (by simp)
  | handleVote sent => exact hquiet (c := .handleRequestVote _) rfl (by simp)
  | @handleAppend id call sent =>
    rcases eq_or_ne j call.dest with rfl | hne
    · refine .inr ⟨.handleAppendEntries call.request, by simp [setNode, RaftNode.after],
        fun req heq => ⟨id, call, rfl, sent, rfl, RaftNode.Call.handleAppendEntries.inj heq⟩⟩
    · exact .inl (by simp [setNode, hne])
  | propose => exact hquiet (c := .propose _) rfl (by simp)
  | proposeBatch => exact hquiet (c := .proposeBatch _) rfl (by simp)
  | flushBatch => exact hquiet (c := .flushBatch) rfl (by simp)
  | _ => exact .inl rfl

/-- No sound step takes away anything of what a node has committed. -/
theorem Commits.extends (h : Commits addresses s P) (hP : Linked addresses s P) {a : Action}
    (hok : Sound s a) (hs : Cluster.step addresses s a = some s') (j : Nat) :
    (s.node j).Extends (s'.node j) := by
  have hkeeps := hok.2.1
  have hreach := (h.committer j).commit.le_length
  rcases step_node hs j with heq | ⟨c, heq, hc⟩
  · rw [heq]
    exact .refl _
  rw [heq]
  by_cases hrequest : ∃ req, c = .handleAppendEntries req
  · obtain ⟨req, rfl⟩ := hrequest
    obtain ⟨id, call, rfl, hsent, rfl, rfl⟩ := hc req rfl
    have hmem := List.mem_of_getElem? hsent
    have hkeep : ¬ DropsMatching (s.node call.dest) call.request := by
      simpa [KeepsMatching, hsent] using hkeeps
    obtain ⟨_, _, hfollower⟩ := (s.node call.dest).becomeFollowerLocked_eq call.request.term
    rw [RaftNode.after]
    rcases (s.node call.dest).handleAppendEntries_cases call.request with
      ⟨_, heq⟩ | ⟨hle, ⟨_, heq⟩ | ⟨hprev, _, m, hm, hcases⟩⟩
    · rw [heq]
      exact .refl _
    · rw [heq, hfollower]
      exact ⟨le_rfl, rfl⟩
    · obtain ⟨hwhole, hsealed, _⟩ := h.store hP hmem hle hprev hkeep (by rw [hm] : m.log = _)
      have hled := (hP.replicates.appendCall call hmem).led
      have htake : m.log.entries.take (s.node call.dest).commitIndex =
          (s.node call.dest).log.entries.take (s.node call.dest).commitIndex := by
        rw [hsealed.take_ledger h.durable le_rfl hled,
          (h.committer call.dest).commit.take_ledger h.durable hle hled]
      have hcommit : m.commitIndex = (s.node call.dest).commitIndex := by
        rw [hm, hfollower]
      rcases hcases with ⟨_, heq⟩ | ⟨hlater, heq⟩
      · rw [heq]
        exact ⟨hcommit.ge, htake⟩
      · have hk := RaftNode.applyCommittedEntries_kept
          { m with commitIndex := min call.request.leaderCommit m.log.lastIndex }
        have hstored := hsealed.le_length
        rw [← hwhole.lastIndex] at hstored
        rw [heq]
        refine ⟨?_, by rw [← hk.log]; exact htake⟩
        rw [← hk.commitIndex]
        exact le_min hlater.le hstored
  · exact RaftNode.after_extends (hP.replicates.keeper j).whole hreach
      fun req hreq => hrequest ⟨req, hreq⟩

/-- The history that stands behind a state of a sound run, and what every node has made of it. -/
structure Safe (addresses : OrderedMap Nat Bytes) (s : Cluster) (P : History) : Prop where
  linked : Linked addresses s P
  commits : Commits addresses s P
  applies : ∀ i, (s.node i).Applies

namespace Safe

theorem start (addresses : OrderedMap Nat Bytes) :
    Safe addresses (Cluster.start addresses) Protocol.initial :=
  ⟨.start addresses, .start addresses, fun _ => ⟨le_rfl, rfl⟩⟩

theorem step (h : Safe addresses s P) (numbered : 0 ∉ addresses.keys) {a : Action}
    (hok : Sound s a) (hs : Cluster.step addresses s a = some s') :
    Safe addresses s' (track s P a) ∧ Grows P (track s P a) ∧
      ∀ i, (s.node i).Extends (s'.node i) ∧ (s.node i).delivered <+: (s'.node i).delivered := by
  have ⟨⟨hstand, hsend, hflush⟩, hkeeps, _⟩ := hok
  obtain ⟨hsteps, _⟩ :=
    h.linked.step (K := True) numbered hstand hsend hflush (fun _ => hkeeps) hs
  obtain ⟨hlinked, hcommits⟩ := h.commits.step h.linked numbered hok hs
  have hext := h.commits.extends h.linked hok hs
  refine ⟨⟨hlinked, hcommits, fun i => ?_⟩, (h.linked.coherent.steps hsteps).2,
    fun i => ⟨hext i, ?_⟩⟩
  · have hwhole := (hlinked.replicates.keeper i).whole
    have hreach := (hcommits.committer i).commit.le_length
    have hnext := hext i
    rcases step_node hs i with heq | ⟨c, heq, _⟩
    · rw [heq]
      exact h.applies i
    · rw [heq] at hwhole hreach hnext ⊢
      exact (h.applies i).after hnext hwhole hreach
  · rcases step_node hs i with heq | ⟨c, heq, _⟩
    · rw [heq]
    · rw [heq]
      exact (s.node i).delivered_after c

/-- Over a whole run the history grows, and every node keeps what it has committed and delivered. -/
theorem run (h : Safe addresses s P) (numbered : 0 ∉ addresses.keys)
    (hrun : Run (Cluster.step addresses) Sound s s') :
    ∃ P', Safe addresses s' P' ∧ Grows P P' ∧
      ∀ i, (s.node i).Extends (s'.node i) ∧ (s.node i).delivered <+: (s'.node i).delivered := by
  refine hrun.invariant (P := fun s' => ∃ P', Safe addresses s' P' ∧ Grows P P' ∧
    ∀ i, (s.node i).Extends (s'.node i) ∧ (s.node i).delivered <+: (s'.node i).delivered) ?_
    ⟨P, h, .refl P, fun _ => ⟨.refl _, List.prefix_rfl⟩⟩
  rintro t a u ⟨Q, hsafe, hgrows, hkept⟩ hok hs
  obtain ⟨hsafe', hgrows', hkept'⟩ := hsafe.step numbered hok hs
  exact ⟨_, hsafe', hgrows.trans hgrows', fun i =>
    ⟨(hkept i).1.trans (hkept' i).1, (hkept i).2.trans (hkept' i).2⟩⟩

/-- The front of one node's log is the front of another's, as far as both have committed. -/
theorem take_eq (h : Safe addresses s P) (p q : Nat) {n : Nat}
    (hp : n ≤ (s.node p).commitIndex) (hq : n ≤ (s.node q).commitIndex) :
    (s.node p).log.entries.take n = (s.node q).log.entries.take n :=
  ((h.commits.committer p).commit.smaller hp).agree h.linked.coherent h.commits.durable
    ((h.commits.committer q).commit.smaller hq)

end Safe

/-- Whatever a node takes for committed is in the log of everyone who leads its term or a later
one, at any time from then on. -/
theorem leader_completeness (M : Membership)
    (h : Run (step M.addresses) Sound (start M.addresses) s)
    (h' : Run (step M.addresses) Sound s s') {p q i : Nat}
    (hlead : (s'.node q).state = .leader)
    (hterm : (s.node p).currentTerm ≤ (s'.node q).currentTerm) (hpos : 1 ≤ i)
    (hi : i ≤ (s.node p).commitIndex) :
    ∃ e, (s.node p).log.entryAt i = some e ∧ (s'.node q).log.entryAt i = some e := by
  obtain ⟨P, hsafe, _⟩ := (Safe.start M.addresses).run M.numbered h
  obtain ⟨P', hsafe', hgrows, _⟩ := hsafe.run M.numbered h'
  have hvoter := hsafe'.linked.elections.voter q
  have hleads := hvoter.leads hlead
  have hledger : P'.ledger (s'.node q).currentTerm = (s'.node q).log.entries := by
    rw [← hvoter.term, ← hsafe'.linked.coherent.leader_log (hvoter.term ▸ hleads),
      (hsafe'.linked.replicates.keeper q).log]
  have hsealed := (hsafe.commits.committer p).commit
  have htake := (hsealed.grows hsafe.linked.coherent hgrows).take_ledger hsafe'.commits.durable
    hterm hleads
  rw [hledger] at htake
  have hlength := hsealed.le_length
  obtain ⟨e, hget⟩ : ∃ e, (s.node p).log.entries[i - 1]? = some e :=
    ⟨_, List.getElem?_eq_getElem (show i - 1 < (s.node p).log.entries.length by omega)⟩
  refine ⟨e, ?_, ?_⟩
  · rw [(hsafe.linked.replicates.keeper p).whole.entryAt hpos, hget]
  · rw [(hsafe'.linked.replicates.keeper q).whole.entryAt hpos,
      ← getElem?_of_take_eq htake (by omega), hget]

/-- Node 2 wins term 2 with the vote of node 3, which has an empty log. -/
def succession : List Action :=
  [.timeout 2, .enterElection 2, .beginElection 2, .sendVote 2, .recvVote 2 .unreachable,
    .sendVote 2, .handleVote 3, .recvVote 2 ⟨2, true⟩, .finishElection 2]

/-- What node 1 has committed is in the log of its successor. -/
theorem leader_completeness_succession : ∃ s s' e,
    Run (step trio.addresses) Sound (start trio.addresses) s ∧
    Run (step trio.addresses) Sound s s' ∧ (s'.node 2).currentTerm = 2 ∧
    (s.node 1).log.entryAt 1 = some e ∧ (s'.node 2).log.entryAt 1 = some e := by
  obtain ⟨s, s', h, h', hlead, hterm, hlater, hcommit⟩ :=
    reachable_twice_of_execute (step trio.addresses) Sound (start trio.addresses) commitOnBoth
      succession (P := fun s s' => (s'.node 2).state = .leader ∧
        (s.node 1).currentTerm ≤ (s'.node 2).currentTerm ∧ (s'.node 2).currentTerm = 2 ∧
        1 ≤ (s.node 1).commitIndex) (by decide)
  obtain ⟨e, he, he'⟩ := leader_completeness trio h h' hlead hterm le_rfl hcommit
  exact ⟨s, s', e, h, h', hlater, he, he'⟩

namespace Safe

/-- Of what two nodes have delivered, one is the front of the other. -/
theorem delivered_comparable (h : Safe addresses s P) (p q : Nat) :
    (s.node p).delivered <+: (s.node q).delivered ∨
      (s.node q).delivered <+: (s.node p).delivered := by
  have hfront {p q : Nat} (hle : (s.node p).lastApplied ≤ (s.node q).lastApplied) :
      (s.node p).delivered <+: (s.node q).delivered := by
    have hp := h.applies p
    have hq := h.applies q
    rw [hp.delivered, hq.delivered, h.take_eq p q hp.committed (hle.trans hq.committed)]
    exact List.take_prefix_take_left hle
  rcases Nat.le_total (s.node p).lastApplied (s.node q).lastApplied with hle | hle
  · exact .inl (hfront hle)
  · exact .inr (hfront hle)

theorem delivered_indices (h : Safe addresses s P) (p : Nat) :
    (s.node p).delivered.map RaftEntry.index = List.range' 1 (s.node p).lastApplied := by
  have hcontiguous := (h.linked.replicates.keeper p).whole.contiguous.take (s.node p).lastApplied
  have hlength := (h.commits.committer p).commit.le_length
  rw [(h.applies p).delivered, RaftLog.contiguous_iff_map.mp hcontiguous, List.length_take,
    min_eq_left ((h.applies p).committed.trans hlength)]

end Safe

/-- All nodes deliver one sequence: of what two of them have delivered, one is the front of the
other, no node takes anything back, and it is the entries from index 1 on without a gap. -/
theorem delivered_total_order (M : Membership)
    (h : Run (step M.addresses) Sound (start M.addresses) s)
    (h' : Run (step M.addresses) Sound s s') (p q : Nat) :
    ((s.node p).delivered <+: (s'.node q).delivered ∨
      (s'.node q).delivered <+: (s.node p).delivered) ∧
    (s.node p).delivered <+: (s'.node p).delivered ∧
    (s.node p).delivered.map RaftEntry.index = List.range' 1 (s.node p).lastApplied := by
  obtain ⟨P, hsafe, _⟩ := (Safe.start M.addresses).run M.numbered h
  obtain ⟨P', hsafe', _, hkept⟩ := hsafe.run M.numbered h'
  refine ⟨?_, (hkept p).2, hsafe.delivered_indices p⟩
  rcases hsafe'.delivered_comparable p q with hle | hle
  · exact .inl ((hkept p).2.trans hle)
  · exact List.prefix_or_prefix_of_prefix (hkept p).2 hle

/-- Node 1 has delivered its entry when node 2 has it, and node 2 delivers it after the next round. -/
theorem delivered_total_order_commitOnBoth : ∃ s,
    Run (step trio.addresses) Sound (start trio.addresses) s ∧ (s.node 1).lastApplied = 1 ∧
    ((s.node 1).delivered <+: (s.node 2).delivered ∨
      (s.node 2).delivered <+: (s.node 1).delivered) ∧
    (s.node 1).delivered.map RaftEntry.index = [1] := by
  obtain ⟨s, h, happlied⟩ := reachable_of_execute (step trio.addresses) Sound
    (start trio.addresses) commitOnBoth (P := fun s => (s.node 1).lastApplied = 1) (by decide)
  obtain ⟨hfront, _, hindices⟩ := delivered_total_order trio h .start 1 2
  rw [happlied] at hindices
  exact ⟨s, h, happlied, hfront, hindices⟩

end Cluster
end MyEtcd
