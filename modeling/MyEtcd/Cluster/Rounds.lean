import MyEtcd.Cluster.LogMatching
import MyEtcd.Raft.Nearing

/-! A heartbeat round of which every message arrives, told as one step.
What the leader knows about one peer is not touched by its exchange with another one, so a round is
one heartbeat with each peer, and then the commit. -/
namespace MyEtcd
open Library Library.Consensus

namespace RaftNode
variable {n n' n'' : RaftNode} {p : Nat}

/-- The same leader, as far as `p` is concerned. -/
structure Like (p : Nat) (n n' : RaftNode) : Prop where
  booked : ∃ next matched, n' = { n with nextIndex := next, matchIndex := matched }
  next : n'.nextIndex.getD p 0 = n.nextIndex.getD p 0
  matched : n'.matchIndex.getD p 0 = n.matchIndex.getD p 0

namespace Like

theorem refl (p : Nat) (n : RaftNode) : Like p n n := ⟨⟨_, _, rfl⟩, rfl, rfl⟩

theorem log (h : Like p n n') : n'.log = n.log := by
  obtain ⟨_, _, rfl⟩ := h.booked
  rfl

theorem currentTerm (h : Like p n n') : n'.currentTerm = n.currentTerm := by
  obtain ⟨_, _, rfl⟩ := h.booked
  rfl

theorem batchBuffer (h : Like p n n') : n'.batchBuffer = n.batchBuffer := by
  obtain ⟨_, _, rfl⟩ := h.booked
  rfl

theorem state (h : Like p n n') : n'.state = n.state := by
  obtain ⟨_, _, rfl⟩ := h.booked
  rfl

theorem commitIndex (h : Like p n n') : n'.commitIndex = n.commitIndex := by
  obtain ⟨_, _, rfl⟩ := h.booked
  rfl

theorem peers (h : Like p n n') : n'.peers = n.peers := by
  obtain ⟨_, _, rfl⟩ := h.booked
  rfl

theorem nodeId (h : Like p n n') : n'.nodeId = n.nodeId := by
  obtain ⟨_, _, rfl⟩ := h.booked
  rfl

theorem trans (h : Like p n n') (h' : Like p n' n'') : Like p n n'' := by
  obtain ⟨_, _, heq⟩ := h.booked
  obtain ⟨_, _, heq'⟩ := h'.booked
  refine ⟨⟨_, _, heq'.trans (by rw [heq])⟩, h'.next.trans h.next, h'.matched.trans h.matched⟩

theorem appendRequest (h : Like p n n') (commit : Nat) :
    n'.appendRequest p commit = n.appendRequest p commit := by
  unfold RaftNode.appendRequest
  rw [h.next, h.log, h.currentTerm, h.nodeId]

theorem nextAfterReject (h : Like p n n') (resp : AppendEntriesResponse) :
    n'.nextAfterReject p resp = n.nextAfterReject p resp := by
  unfold RaftNode.nextAfterReject RaftNode.findConflictTermIndex
  rw [h.next, h.log]

theorem appendResponse (h : Like p n n') (entries : List RaftEntry) {resp : AppendEntriesResponse}
    (hterm : resp.term ≤ n.currentTerm) :
    Like p (n.appendResponse p entries resp) (n'.appendResponse p entries resp) := by
  obtain ⟨_, _, heq⟩ := h.booked
  have hterm' : resp.term ≤ n'.currentTerm := h.currentTerm ▸ hterm
  refine ⟨?_, ?_, ?_⟩
  · rcases n.appendResponse_cases p entries resp with ⟨hlater, _⟩ | ⟨_, _, _, hbooks⟩
    · exact absurd hlater (not_lt.mpr hterm)
    · rcases n'.appendResponse_cases p entries resp with ⟨hlater, _⟩ | ⟨_, next, matched, hbooks'⟩
      · exact absurd hlater (not_lt.mpr hterm')
      · exact ⟨next, matched, by rw [hbooks, hbooks', heq]⟩
  · rw [appendResponse_nextIndex _ p entries hterm, appendResponse_nextIndex _ p entries hterm',
      h.nextAfterReject, h.next]
  · rw [appendResponse_matchIndex _ p entries hterm, appendResponse_matchIndex _ p entries hterm',
      h.matched]

end Like

/-- The answer of one peer says nothing about another one. -/
theorem appendResponse_like {q : Nat} (hne : p ≠ q) (entries : List RaftEntry)
    {resp : AppendEntriesResponse} (hterm : resp.term ≤ n.currentTerm) :
    Like p n (n.appendResponse q entries resp) := by
  unfold appendResponse
  rw [if_neg (not_lt.mpr hterm)]
  split_ifs
  · cases entries.getLast? with
    | some back =>
      exact ⟨⟨_, _, rfl⟩, OrderedMap.getD_insert_ne _ _ _ hne, OrderedMap.getD_insert_ne _ _ _ hne⟩
    | none => exact ⟨⟨_, _, rfl⟩, rfl, OrderedMap.getD_insert_ne _ _ _ hne⟩
  · exact ⟨⟨_, _, rfl⟩, OrderedMap.getD_insert_ne _ _ _ hne, rfl⟩

end RaftNode

namespace Leadership
variable {p : Nat} {f : RaftNode} {n n' : RaftNode}

/-- With nothing buffered, a heartbeat is a request and its answer. -/
theorem heartbeat_eq (hempty : n.batchBuffer = []) : heartbeat p ⟨n, f⟩ =
    ⟨n.appendResponse p (n.appendRequest p n.commitIndex).entries
        (f.handleAppendEntries (n.appendRequest p n.commitIndex)).1,
      (f.handleAppendEntries (n.appendRequest p n.commitIndex)).2⟩ := by
  rw [heartbeat, request, RaftNode.flushBatch_of_empty hempty]

theorem heartbeat_like (h : n.Like p n') (hempty : n.batchBuffer = [])
    (hterm : f.currentTerm ≤ n.currentTerm) :
    (heartbeat p ⟨n', f⟩).follower = (heartbeat p ⟨n, f⟩).follower ∧
      (heartbeat p ⟨n, f⟩).leader.Like p (heartbeat p ⟨n', f⟩).leader := by
  have hempty' := h.batchBuffer.trans hempty
  have hreach : f.currentTerm ≤ (n.appendRequest p n.commitIndex).term := hterm
  rw [heartbeat_eq hempty, heartbeat_eq hempty', h.commitIndex, h.appendRequest]
  exact ⟨rfl, h.appendResponse _ (RaftNode.handleAppendEntries_term hreach).1.le⟩

end Leadership

namespace Cluster
variable {addresses : OrderedMap Nat Bytes} {s s' : Cluster} {m : Nat}

variable (addresses) in
/-- One call of `BroadcastHeartbeat`, with the request and the answer delivered. -/
theorem ship {peer : Nat} {rest : List Nat} {commit : Nat}
    (here : s.point m = .replicating commit (peer :: rest)) (hne : m ≠ peer)
    (hlead : (s.node m).state = .leader)
    (hterm : (s.node peer).currentTerm ≤ (s.node m).currentTerm) :
    ∃ s', Run (step addresses) Orderly s s' ∧
      s'.point = Function.update s.point m (.replicating commit rest) ∧
      s'.node = Function.update (Function.update s.node peer
          ((s.node peer).handleAppendEntries ((s.node m).appendRequest peer commit)).2) m
        ((s.node m).appendResponse peer ((s.node m).appendRequest peer commit).entries
          ((s.node peer).handleAppendEntries ((s.node m).appendRequest peer commit)).1) := by
  have hreach : (s.node peer).currentTerm ≤ ((s.node m).appendRequest peer commit).term := hterm
  obtain ⟨hanswer, _⟩ := RaftNode.handleAppendEntries_term hreach
  generalize hreq : (s.node m).appendRequest peer commit = req at hanswer ⊢
  have hreqterm : req.term = (s.node m).currentTerm := by
    rw [← hreq]
    rfl
  generalize hresp : ((s.node peer).handleAppendEntries req).1 = resp at hanswer ⊢
  have hsent : step addresses s (.sendAppend m) = some
      { s.setPoint m (.awaitAppend commit rest s.appendCalls.length) with
        appendCalls := s.appendCalls ++ [⟨m, peer, req⟩] } := by
    simp only [step, here, hreq]
  generalize hshipped : ({ s.setPoint m (.awaitAppend commit rest s.appendCalls.length) with
    appendCalls := s.appendCalls ++ [⟨m, peer, req⟩] } : Cluster) = shipped at hsent
  have hcall : shipped.appendCalls[s.appendCalls.length]? = some ⟨m, peer, req⟩ := by
    simp [← hshipped]
  have hnode : shipped.node = s.node := by rw [← hshipped, setPoint]
  have hhandled : step addresses shipped (.handleAppend s.appendCalls.length) = some
      { shipped.setNode peer ((s.node peer).handleAppendEntries req).2 with
        appendReplies := shipped.appendReplies ++ [(s.appendCalls.length, resp)] } := by
    simp only [step, hcall, hnode, hresp]
  generalize hanswered : ({ shipped.setNode peer ((s.node peer).handleAppendEntries req).2 with
    appendReplies := shipped.appendReplies ++ [(s.appendCalls.length, resp)] } : Cluster) =
      answered at hhandled
  have hawait : answered.point m = .awaitAppend commit rest s.appendCalls.length := by
    simp [← hanswered, setNode, ← hshipped, setPoint]
  have hkept : answered.appendCalls[s.appendCalls.length]? = some ⟨m, peer, req⟩ := by
    rw [← hcall, ← hanswered, setNode]
  have hreply : (s.appendCalls.length, resp) ∈ answered.appendReplies := by simp [← hanswered]
  have hself : answered.node m = s.node m := by simp [← hanswered, setNode, hne, hnode]
  have hcurrent : ¬ resp.term > (s.node m).currentTerm := by rw [hanswer, hreqterm]; exact lt_irrefl _
  have hheard : step addresses answered (.recvAppend m resp) = some ((answered.setNode m
      ((s.node m).appendResponse peer req.entries resp)).setPoint m (.replicating commit rest)) := by
    simp only [step, hawait, hkept, hself]
    rw [if_pos (.inr hreply), if_neg hcurrent]
  have hsends : Orderly s (.sendAppend m) := ⟨trivial, hlead, trivial⟩
  have hhandles : Orderly shipped (.handleAppend s.appendCalls.length) := ⟨trivial, trivial, trivial⟩
  have hhears : Orderly answered (.recvAppend m resp) := ⟨trivial, trivial, trivial⟩
  refine ⟨_, ((Run.start.next hsends hsent).next hhandles hhandled).next hhears hheard, ?_, ?_⟩
  · simp only [setPoint, setNode, ← hanswered, ← hshipped, Function.update_idem]
  · simp only [setPoint, setNode, ← hanswered, hnode]

variable (addresses) in
/-- The loop of `BroadcastHeartbeat` over the peers, with every request and every answer delivered. -/
theorem broadcast {rest : List Nat} (here : s.point m = .replicating (s.node m).commitIndex rest)
    (hlead : (s.node m).state = .leader) (hempty : (s.node m).batchBuffer = [])
    (hterm : ∀ p ∈ rest, (s.node p).currentTerm ≤ (s.node m).currentTerm) (hnodup : rest.Nodup)
    (hself : m ∉ rest) :
    ∃ s', Run (step addresses) Orderly s s' ∧
      s'.point = Function.update s.point m (.replicating (s.node m).commitIndex []) ∧
      (∀ p ∈ rest, s'.node p = (Leadership.heartbeat p ⟨s.node m, s.node p⟩).follower ∧
        (Leadership.heartbeat p ⟨s.node m, s.node p⟩).leader.Like p (s'.node m)) ∧
      (∀ p ∉ rest, (s.node m).Like p (s'.node m) ∧ (p ≠ m → s'.node p = s.node p)) ∧
      ((∀ p ∈ rest, p ∈ (s.node m).peers.keys) → (s.node m).Tracked → (s'.node m).Tracked) := by
  induction rest generalizing s with
  | nil =>
    refine ⟨s, .start, ?_, fun p hp => absurd hp List.not_mem_nil, fun p _ => ⟨.refl p _, fun _ => rfl⟩,
      fun _ htracked => htracked⟩
    rw [← here, Function.update_eq_self]
  | cons peer rest ih =>
    obtain ⟨hpeer, hnodup⟩ := List.nodup_cons.mp hnodup
    obtain ⟨hne, hself⟩ := List.ne_and_not_mem_of_not_mem_cons hself
    have hreach := hterm peer List.mem_cons_self
    obtain ⟨t, hrun, hpoint, hnode⟩ := ship addresses here hne hlead hreach
    have hanswer : ((s.node peer).handleAppendEntries
        ((s.node m).appendRequest peer (s.node m).commitIndex)).1.term ≤ (s.node m).currentTerm :=
      (RaftNode.handleAppendEntries_term hreach).1.le
    have hleader : t.node m = (Leadership.heartbeat peer ⟨s.node m, s.node peer⟩).leader := by
      rw [hnode, Function.update_self, Leadership.heartbeat_eq hempty]
    have hfollower : t.node peer = (Leadership.heartbeat peer ⟨s.node m, s.node peer⟩).follower := by
      rw [hnode, Function.update_of_ne hne.symm, Function.update_self, Leadership.heartbeat_eq hempty]
    have hlike {p : Nat} (hp : p ≠ peer) : (s.node m).Like p (t.node m) := by
      rw [hnode, Function.update_self]
      exact RaftNode.appendResponse_like hp _ hanswer
    have hother {p : Nat} (hp : p ≠ peer) (hpm : p ≠ m) : t.node p = s.node p := by
      rw [hnode, Function.update_of_ne hpm, Function.update_of_ne hp]
    have hsame := hlike hne
    have hrest {p : Nat} (hp : p ∈ rest) : t.node p = s.node p ∧ p ≠ peer :=
      have hne : p ≠ peer := fun heq => hpeer (heq ▸ hp)
      ⟨hother hne fun heq => hself (heq ▸ hp), hne⟩
    obtain ⟨u, hrun', hpoint', hheard, hquiet, htracks⟩ := ih (s := t)
      (by rw [hpoint, Function.update_self, hsame.commitIndex]) (hsame.state.trans hlead)
      (hsame.batchBuffer.trans hempty)
      (fun p hp => by
        rw [(hrest hp).1, hsame.currentTerm]
        exact hterm p (List.mem_cons_of_mem _ hp)) hnodup hself
    refine ⟨u, hrun.trans hrun', ?_, fun p hp => ?_, fun p hp => ?_, fun hmem htracked => ?_⟩
    · rw [hpoint', hpoint, Function.update_idem, hsame.commitIndex]
    · rcases List.mem_cons.mp hp with rfl | hp
      · obtain ⟨hsame, hkept⟩ := hquiet p hpeer
        rw [hkept hne.symm, hfollower, ← hleader]
        exact ⟨rfl, hsame⟩
      · obtain ⟨hfirst, hsecond⟩ := hheard p hp
        obtain ⟨heq, hne⟩ := hrest hp
        rw [heq] at hfirst hsecond
        obtain ⟨hsame, halike⟩ := Leadership.heartbeat_like (hlike hne) hempty
          (hterm p (List.mem_cons_of_mem _ hp))
        exact ⟨hfirst.trans hsame, halike.trans hsecond⟩
    · obtain ⟨hne, hp⟩ := List.ne_and_not_mem_of_not_mem_cons hp
      obtain ⟨hsame, hkept⟩ := hquiet p hp
      exact ⟨(hlike hne).trans hsame, fun hpm => (hkept hpm).trans (hother hne hpm)⟩
    · refine htracks (fun p hp => hsame.peers ▸ hmem p (List.mem_cons_of_mem _ hp)) ?_
      rw [hnode, Function.update_self]
      exact RaftNode.tracked_appendResponse htracked (hmem peer List.mem_cons_self) _ _

theorem round (hm : m ∈ addresses.keys) (here : s.point m = .loop)
    (hlead : (s.node m).state = .leader) (hempty : (s.node m).batchBuffer = [])
    (hterm : ∀ p ∈ (s.node m).peers.keys, (s.node p).currentTerm ≤ (s.node m).currentTerm)
    (hself : m ∉ (s.node m).peers.keys) :
    ∃ s' n, Run (step addresses) Orderly s s' ∧ s'.point = s.point ∧
      s'.node m = n.advanceCommitIndex.applyCommittedEntries ∧
      (∀ p ∈ (s.node m).peers.keys,
        s'.node p = (Leadership.heartbeat p ⟨s.node m, s.node p⟩).follower ∧
        (Leadership.heartbeat p ⟨s.node m, s.node p⟩).leader.Like p n) ∧
      (∀ p ∉ (s.node m).peers.keys, (s.node m).Like p n) ∧ ((s.node m).Tracked → n.Tracked) := by
  have hentered : step addresses s (.enterHeartbeat m) = some (s.setPoint m .heartbeat) := by
    simp only [step]
    rw [if_pos ⟨hm, here, hlead⟩]
  generalize hentry : s.setPoint m .heartbeat = entry at hentered
  have hsame : entry.node = s.node := by rw [← hentry, setPoint]
  have hat : entry.point = Function.update s.point m .heartbeat := by rw [← hentry, setPoint]
  have hbegun : step addresses entry (.beginHeartbeat m) = some
      (entry.setPoint m (.replicating (s.node m).commitIndex (s.node m).peers.keys)) := by
    simp only [step, hat, Function.update_self, hsame, if_true, RaftNode.flushBatch_of_empty hempty]
    rw [← hsame, setNode_self]
  generalize hserving : entry.setPoint m
    (.replicating (s.node m).commitIndex (s.node m).peers.keys) = serving at hbegun
  have hnode : serving.node = s.node := by rw [← hserving, setPoint, hsame]
  have hpoint : serving.point = Function.update s.point m
      (.replicating (s.node m).commitIndex (s.node m).peers.keys) := by
    rw [← hserving, setPoint, hat, Function.update_idem]
  obtain ⟨t, hrun, hdone, hheard, hquiet, htracks⟩ := broadcast addresses (s := serving) (m := m)
    (by rw [hpoint, Function.update_self, hnode]) (by rwa [hnode])
    (by rwa [hnode]) (by rwa [hnode]) (OrderedMap.keys_nodup _) hself
  rw [hpoint, Function.update_idem] at hdone
  rw [hnode] at hheard hquiet htracks
  have hfinished : step addresses t (.finishHeartbeat m) = some (t.setPoint m .advance) := by
    simp only [step, hdone, Function.update_self]
  generalize hclosing : t.setPoint m .advance = closing at hfinished
  have hcnode : closing.node = t.node := by rw [← hclosing, setPoint]
  have hcpoint : closing.point = Function.update s.point m .advance := by
    rw [← hclosing, setPoint, hdone, Function.update_idem]
  have hadvanced : step addresses closing (.advance m) = some
      ((closing.setNode m (t.node m).advanceCommitIndex).setPoint m .apply) := by
    simp only [step, hcpoint, Function.update_self, if_true, hcnode]
  generalize happlying : (closing.setNode m (t.node m).advanceCommitIndex).setPoint m .apply =
    applying at hadvanced
  have hanode : applying.node = Function.update t.node m (t.node m).advanceCommitIndex := by
    rw [← happlying, setPoint, setNode, hcnode]
  have hapoint : applying.point = Function.update s.point m .apply := by
    rw [← happlying, setPoint, setNode, hcpoint, Function.update_idem]
  have happlied : step addresses applying (.apply m) = some
      ((applying.setNode m (t.node m).advanceCommitIndex.applyCommittedEntries).setPoint m .loop) := by
    simp only [step, hapoint, Function.update_self, if_true, hanode]
  have hbegins : Orderly entry (.beginHeartbeat m) := by
    refine ⟨trivial, trivial, .inl ?_⟩
    rwa [hsame]
  have hquietly (s : Cluster) : Orderly s (.enterHeartbeat m) ∧ Orderly s (.finishHeartbeat m) ∧
      Orderly s (.advance m) ∧ Orderly s (.apply m) :=
    ⟨⟨trivial, trivial, trivial⟩, ⟨trivial, trivial, trivial⟩, ⟨trivial, trivial, trivial⟩,
      ⟨trivial, trivial, trivial⟩⟩
  have hshipped := ((Run.start.next (hquietly s).1 hentered).next hbegins hbegun).trans hrun
  have hclosed := (hshipped.next (hquietly t).2.1 hfinished).next (hquietly closing).2.2.1 hadvanced
  generalize hend : (applying.setNode m
    (t.node m).advanceCommitIndex.applyCommittedEntries).setPoint m .loop = u at happlied
  have hunode : u.node =
      Function.update applying.node m (t.node m).advanceCommitIndex.applyCommittedEntries := by
    rw [← hend, setPoint, setNode]
  refine ⟨u, t.node m, hclosed.next (hquietly applying).2.2.2 happlied, ?_, ?_, fun p hp => ?_,
    fun p hp => (hquiet p hp).1, htracks fun p hp => hp⟩
  · rw [← hend, setPoint, setNode, hapoint, Function.update_idem, ← here, Function.update_eq_self]
  · rw [hunode, Function.update_self]
  · have hne : p ≠ m := fun heq => hself (heq ▸ hp)
    rw [hunode, Function.update_of_ne hne, hanode, Function.update_of_ne hne]
    exact hheard p hp

end Cluster
end MyEtcd
