import MyEtcd.Library.Consensus.Protocol
import MyEtcd.Raft.Convergence
import MyEtcd.Raft.SingleNode

/-! How far a follower is from the log of its leader.
Each heartbeat that arrives brings it nearer until both logs are the same, and what is handed over on
the way is the front of the leader's log. -/
namespace MyEtcd
open Library Library.Consensus

namespace RaftNode
variable {n n' : RaftNode} {entries : List RaftEntry}

/-- The node has handed over the front of `entries`, and all of it once all of it is committed. -/
structure Told (entries : List RaftEntry) (n : RaftNode) : Prop where
  delivered : n.delivered = entries.take n.lastApplied
  applied : n.lastApplied ≤ entries.length
  committed : n.commitIndex ≤ entries.length
  served : entries.length ≤ n.commitIndex → n.lastApplied = entries.length

namespace Told

theorem congr (h : Told entries n) (hcalls : n'.readyCalls = n.readyCalls)
    (happlied : n'.lastApplied = n.lastApplied) (hcommit : n'.commitIndex = n.commitIndex) :
    Told entries n' where
  delivered := by rw [RaftNode.delivered, hcalls, happlied, ← h.delivered, RaftNode.delivered]
  applied := happlied ▸ h.applied
  committed := hcommit ▸ h.committed
  served hall := happlied.trans (h.served (hcommit ▸ hall))

theorem complete (h : Told entries n) (hall : entries.length ≤ n.commitIndex) :
    n.delivered = entries := by
  rw [h.delivered, h.served hall, List.take_length]

theorem applyCommittedEntries (hdelivered : n.delivered = entries.take n.lastApplied)
    (happlied : n.lastApplied ≤ entries.length) (hwhole : n.log.Whole)
    (hfront : n.log.entries <+: entries) (hreach : n.commitIndex ≤ n.log.entries.length) :
    Told entries n.applyCommittedEntries := by
  obtain ⟨hmore, hlast⟩ := n.applyCommittedEntries_delivered
  have hcommit := n.applyCommittedEntries_kept.commitIndex
  have hbound := hreach.trans hfront.length_le
  have htake := take_eq_of_isPrefix hfront hreach
  refine ⟨?_, ?_, hcommit ▸ hbound, fun hall => ?_⟩
  · rw [hmore, hlast, hdelivered]
    split_ifs with hbehind
    · have hsplit : entries.take n.lastApplied =
          (n.log.entries.take n.commitIndex).take n.lastApplied := by
        rw [← htake, List.take_take, min_eq_left hbehind.le]
      rw [hwhole.slice hbehind.le hreach, hsplit, List.take_append_drop, max_eq_right hbehind.le,
        htake]
    · rw [List.append_nil, max_eq_left (not_lt.mp hbehind)]
  · rw [hlast]
    exact max_le happlied hbound
  · rw [← hcommit] at hall
    rw [hlast]
    omega

/-- A follower that stores the front of `entries` hands over nothing else. -/
theorem handleAppendEntries (h : Told entries n) {req : AppendEntriesRequest}
    (hstored : Leadership.Accepts n req →
      (storeEntries n.log req.entries).Whole ∧ (storeEntries n.log req.entries).entries <+: entries) :
    Told entries (n.handleAppendEntries req).2 := by
  obtain ⟨_, _, hfollower⟩ := n.becomeFollowerLocked_eq req.term
  rcases n.handleAppendEntries_cases req with
    ⟨_, heq⟩ | ⟨hle, ⟨_, heq⟩ | ⟨hprev, _, m, hm, hcases⟩⟩
  · rwa [heq]
  · rw [heq, hfollower]
    exact h.congr rfl rfl rfl
  obtain ⟨hwhole, hfront⟩ := hstored ⟨hle, hprev⟩
  rw [hfollower] at hm
  rcases hcases with ⟨_, heq⟩ | ⟨_, heq⟩
  · rw [heq, hm]
    exact h.congr rfl rfl rfl
  · rw [heq, hm]
    refine applyCommittedEntries h.delivered h.applied hwhole hfront ?_
    rw [← hwhole.lastIndex]
    exact min_le_right _ _

end Told

/-- A follower goes along with the commit index it is sent, as far as its log goes. -/
theorem min_le_commitIndex_handleAppendEntries {req : AppendEntriesRequest}
    (hok : Leadership.Accepts n req) :
    min req.leaderCommit (storeEntries n.log req.entries).lastIndex ≤
      (n.handleAppendEntries req).2.commitIndex := by
  obtain ⟨_, _, hfollower⟩ := n.becomeFollowerLocked_eq req.term
  rcases n.handleAppendEntries_cases req with
    ⟨hold, _⟩ | ⟨_, ⟨hprev, _⟩ | ⟨_, _, m, hm, ⟨hle, heq⟩ | ⟨_, heq⟩⟩⟩
  · exact absurd hok.1 (not_le.mpr hold)
  · exact absurd hok.2 (by simp [hprev])
  · rw [heq, hm, hfollower]
    exact (min_le_left _ _).trans hle
  · rw [heq, ← (applyCommittedEntries_kept _).commitIndex, hm]

/-- What the leader takes for the match index after an answer of its own term. -/
theorem appendResponse_matchIndex (n : RaftNode) (peer : Nat) (entries : List RaftEntry)
    {resp : AppendEntriesResponse} (hterm : resp.term ≤ n.currentTerm) :
    (n.appendResponse peer entries resp).matchIndex.getD peer 0 =
      if resp.success then
        match entries.getLast? with
        | some back => back.index
        | none => max (n.matchIndex.getD peer 0) resp.lastLogIndex
      else n.matchIndex.getD peer 0 := by
  unfold appendResponse
  rw [if_neg (not_lt.mpr hterm)]
  split_ifs
  · cases entries.getLast? with
    | some back => exact OrderedMap.getD_insert_self _ _ _ _
    | none => exact OrderedMap.getD_insert_self _ _ _ _
  · rfl

/-- A leader whose peers all have its log, whose last entry is of its term, commits all of it. -/
theorem le_advanceCommitIndex (hstate : n.state = .leader) (htracked : n.Tracked)
    (hall : ∀ k, k ∈ n.peers.keys ∨ k = n.nodeId → n.matchIndex.getD k 0 = n.log.lastIndex)
    (hterm : n.log.termAt n.log.lastIndex = n.currentTerm) :
    n.log.lastIndex ≤ n.advanceCommitIndex.commitIndex := by
  rcases Nat.lt_or_ge n.commitIndex n.log.lastIndex with hlt | hge
  · obtain ⟨hpeers, hothers⟩ := htracked hstate
    have hvalue {k : Nat} (hk : k ∈ n.matchIndex.keys) : n.matchIndex.getD k 0 = n.log.lastIndex :=
      hall k (hothers k hk)
    have hreach (N : Nat) : n.reaching N = (n.matchIndex.keys.toFinset.filter
        fun k => N ≤ n.matchIndex.getD k 0).card + if N ≤ n.log.lastIndex then 1 else 0 := by
      have hvalues := n.matchIndex.countP_values (N ≤ ·) 0
      simp only [decide_eq_true_eq] at hvalues
      rw [← hvalues]
      simp [reaching, matchIndices, List.countP_cons]
    have hmajority : n.majority ≤ n.reaching n.log.lastIndex := by
      have hsubset : n.peers.keys.toFinset ⊆ n.matchIndex.keys.toFinset.filter
          fun k => n.log.lastIndex ≤ n.matchIndex.getD k 0 := fun k hk => by
        have hkey := hpeers k (List.mem_toFinset.mp hk)
        exact Finset.mem_filter.mpr ⟨List.mem_toFinset.mpr hkey, (hvalue hkey).ge⟩
      have hcard := Finset.card_le_card hsubset
      rw [List.toFinset_card_of_nodup (OrderedMap.keys_nodup _), OrderedMap.length_keys] at hcard
      rw [hreach, if_pos le_rfl, majority]
      omega
    have htop : n.reaching (n.log.lastIndex + 1) = 0 := by
      rw [hreach, if_neg (Nat.not_succ_le_self _), Finset.filter_eq_empty_iff.mpr, Finset.card_empty]
      intro k hk
      rw [hvalue (List.mem_toFinset.mp hk)]
      exact Nat.not_succ_le_self _
    rw [advanceCommitIndex_of_chosen hstate hlt hterm hmajority (by rw [htop]; simp [majority])]
  · rcases n.advanceCommitIndex_cases with heq | ⟨N, heq, _, hlater, _⟩
    · rwa [heq]
    · rw [heq]
      exact hge.trans hlater.le

end RaftNode

namespace Leadership
variable {p : Nat} {s : Leadership}

/-- The follower has the leader's log, and the leader knows it. -/
structure Level (p : Nat) (s : Leadership) : Prop where
  next : next p s = s.target.lastIndex + 1
  log : s.follower.log = s.target
  matched : s.leader.matchIndex.getD p 0 = s.target.lastIndex

/-- Nothing is buffered, and the next index passes the last entry only when that entry is stored. -/
structure Nearing (p : Nat) (s : Leadership) : Prop extends Replicating p s where
  flushed : s.leader.batchBuffer = []
  comparable : ¬ Agreed p s → Comparable p s
  level : Agreed p s → Leadership.next p s = s.target.lastIndex + 1 → Level p s

instance (p : Nat) (s : Leadership) : Decidable (Agreed p s) := inferInstanceAs (Decidable (_ = _))

/-- The next index goes back until the logs agree, and then forward. -/
def distance (p : Nat) (s : Leadership) : Nat :=
  if Agreed p s then s.target.lastIndex + 1 - next p s else s.target.lastIndex + 1 + next p s

theorem Level.agreed (h : Level p s) : Agreed p s := by rw [Agreed, h.log]

theorem Level.distance (h : Level p s) : distance p s = 0 := by
  rw [Leadership.distance, if_pos h.agreed, h.next, Nat.sub_self]

theorem matched_heartbeat (hok : Accepts s.follower (s.request p)) :
    (heartbeat p s).leader.matchIndex.getD p 0 =
      match (s.request p).entries.getLast? with
      | some back => back.index
      | none => max (s.leader.flushBatch.matchIndex.getD p 0)
          (RaftNode.storeEntries s.follower.log (s.request p).entries).lastIndex := by
  have hreq : (s.request p).term = s.leader.currentTerm := by rw [request_eq]
  obtain ⟨hterm, _, _⟩ := s.leader.flushBatch_kept
  obtain ⟨_, hanswer, _⟩ :=
    (handleAppendEntries_answer s.follower (s.request p)).resolve_left fun hno => hno.1 hok
  have hresp : (s.follower.handleAppendEntries (s.request p)).1.term ≤
      s.leader.flushBatch.currentTerm := by
    rw [hanswer, hterm, hreq]
  rw [heartbeat, RaftNode.appendResponse_matchIndex _ p _ hresp, hanswer, if_pos rfl]

namespace Nearing

/-- An accepted request leaves the front of the leader's log with the follower. -/
theorem stores (h : Nearing p s) (hok : Accepts s.follower (s.request p)) : Agreed p s ∧
    ∃ k, RaftNode.storeEntries s.follower.log (s.request p).entries =
        ⟨s.target.entries.take k, 1⟩ ∧
      (s.target.lastIndex + 1 ≤ next p s + RaftNode.maxEntriesPerMsg → s.target.entries.length ≤ k) := by
  have hagreed : Agreed p s := by
    by_contra hno
    exact hno ((h.comparable hno).agreed hok)
  have hpos := h.next_pos
  have hlast := h.whole.lastIndex
  have hentries := h.request_prev.2.2
  refine ⟨hagreed, ?_⟩
  rcases eq_or_ne (s.request p).entries [] with hnil | hne
  · -- nothing is left to be sent
    have hend : next p s = s.target.lastIndex + 1 := by
      have hlen := congrArg List.length (hentries.symm.trans hnil)
      have hmax : RaftNode.maxEntriesPerMsg = 128 := rfl
      have hle := h.next_le
      rw [List.length_take, List.length_drop, List.length_nil, hmax] at hlen
      omega
    refine ⟨s.target.entries.length, ?_, fun _ => le_rfl⟩
    rw [hnil, List.take_length, ← h.whole.first]
    exact (h.level hagreed hend).log
  · refine ⟨next p s - 1 + RaftNode.maxEntriesPerMsg, ?_, fun hreach => by omega⟩
    rw [h.followerWhole.storeEntries h.request_contiguous hne (h.agreed_length hagreed), hagreed,
      hentries, ← List.take_add]

theorem heartbeat (h : Nearing p s) : Nearing p (heartbeat p s) ∧
    (distance p (Leadership.heartbeat p s) < distance p s ∨
      Level p s ∧ Level p (Leadership.heartbeat p s)) := by
  have htarget := (heartbeat_kept (p := p) h.term).2.1
  have hpos := h.next_pos
  have hflushed : (Leadership.heartbeat p s).leader.batchBuffer = [] :=
    (s.leader.flushBatch.appendResponse_log p _ _).2.trans s.leader.flushBatch_kept.2.2
  by_cases hagreed : Agreed p s
  · obtain ⟨hrep, hagreed', hnext⟩ := h.toReplicating.taken hagreed
    obtain ⟨_, k, hstored, hall⟩ := h.stores (h.accepts hagreed)
    have hlevel (hend : Leadership.next p (Leadership.heartbeat p s) = s.target.lastIndex + 1) :
        Level p (Leadership.heartbeat p s) := by
      have hfull : RaftNode.storeEntries s.follower.log (s.request p).entries = s.target := by
        rw [hstored, List.take_of_length_le (hall (by omega)), ← h.whole.first]
      refine ⟨by rw [hend, htarget], ?_, ?_⟩
      · rw [htarget, ← hfull]
        exact ((handleAppendEntries_answer s.follower (s.request p)).resolve_left fun hno =>
          hno.1 (h.accepts hagreed)).2.2
      · have hmoved := next_heartbeat (p := p) h.term
        obtain ⟨_, hanswer, _⟩ := (handleAppendEntries_answer s.follower (s.request p)).resolve_left
          fun hno => hno.1 (h.accepts hagreed)
        rw [hend, hanswer, if_pos rfl] at hmoved
        rw [matched_heartbeat (h.accepts hagreed), htarget, hfull, RaftNode.flushBatch_of_empty h.flushed]
        cases hback : (s.request p).entries.getLast? with
        | some back =>
          rw [hback] at hmoved
          exact (Nat.succ.inj hmoved).symm
        | none =>
          rw [hback] at hmoved
          dsimp only
          rw [(h.level hagreed hmoved.symm).matched, max_self]
    refine ⟨⟨hrep, hflushed, fun hno => absurd hagreed' hno, fun _ hend => hlevel (htarget ▸ hend)⟩, ?_⟩
    rcases h.next_le.lt_or_eq with hlt | heq
    · left
      rw [distance, distance, if_pos hagreed, if_pos hagreed', htarget, hnext]
      have hmax : RaftNode.maxEntriesPerMsg = 128 := rfl
      omega
    · exact .inr ⟨h.level hagreed heq, hlevel (by omega)⟩
  · have hcomparable := h.comparable hagreed
    obtain ⟨hcomparable', hback⟩ := hcomparable.refused fun hok => hagreed (hcomparable.agreed hok)
    have hle := h.next_le
    have hpos' := hcomparable'.next_pos
    refine ⟨⟨hcomparable'.toReplicating, hflushed, fun _ => hcomparable', fun _ hend => ?_⟩, .inl ?_⟩
    · rw [htarget] at hend
      omega
    · rw [distance, distance, if_neg hagreed, htarget]
      split_ifs <;> omega

/-- What a follower hands over is the front of its leader's log. -/
theorem told (h : Nearing p s) (htold : RaftNode.Told s.target.entries s.follower) :
    RaftNode.Told s.target.entries (Leadership.heartbeat p s).follower := by
  refine htold.handleAppendEntries fun hok => ?_
  obtain ⟨_, k, hstored, _⟩ := h.stores hok
  rw [hstored]
  exact ⟨⟨rfl, h.whole.contiguous.take k⟩, List.take_prefix _ _⟩

end Nearing

/-- Two leaders that bring the same to `p`. -/
structure Alike (p : Nat) (n n' : RaftNode) : Prop where
  log : n'.log = n.log
  currentTerm : n'.currentTerm = n.currentTerm
  batchBuffer : n'.batchBuffer = n.batchBuffer
  next : n'.nextIndex.getD p 0 = n.nextIndex.getD p 0
  matched : n'.matchIndex.getD p 0 = n.matchIndex.getD p 0

/-- What else the leader does between two heartbeats makes no difference. -/
theorem Nearing.congr {n n' f : RaftNode} (h : Nearing p ⟨n, f⟩) (hn : Alike p n n') :
    Nearing p ⟨n', f⟩ ∧ distance p ⟨n', f⟩ = distance p ⟨n, f⟩ ∧
      (Level p ⟨n, f⟩ → Level p ⟨n', f⟩) := by
  have htarget : target ⟨n', f⟩ = target ⟨n, f⟩ := by
    rw [target, target, RaftNode.flushBatch_of_empty h.flushed,
      RaftNode.flushBatch_of_empty (hn.batchBuffer.trans h.flushed)]
    exact hn.log
  have hsame : next p ⟨n', f⟩ = next p ⟨n, f⟩ := hn.next
  have hagreed : Agreed p ⟨n', f⟩ ↔ Agreed p ⟨n, f⟩ := by rw [Agreed, Agreed, htarget, hsame]
  have hlevel (hl : Level p ⟨n, f⟩) : Level p ⟨n', f⟩ :=
    ⟨by rw [hsame, htarget, hl.next], htarget ▸ hl.log, hn.matched.trans (htarget ▸ hl.matched)⟩
  have hrep : Replicating p ⟨n', f⟩ := ⟨htarget ▸ h.whole, h.followerWhole, hn.currentTerm ▸ h.term,
    hsame ▸ h.next_pos, by rw [hsame, htarget]; exact h.next_le⟩
  refine ⟨⟨hrep, hn.batchBuffer.trans h.flushed, fun hno => ?_, fun hok hend => ?_⟩, ?_, hlevel⟩
  · have hcomparable := h.comparable (mt hagreed.mpr hno)
    exact ⟨hrep, htarget ▸ hcomparable.terms, htarget ▸ hcomparable.matching⟩
  · rw [hsame, htarget] at hend
    exact hlevel (h.level (hagreed.mp hok) hend)
  · simp only [distance, hagreed, htarget, hsame]

/-- With the same log as a leader that has committed all of it, a follower hands over all of it. -/
theorem Level.told (h : Level p s) (hnear : Nearing p s)
    (htold : RaftNode.Told s.target.entries s.follower)
    (hall : s.target.entries.length ≤ s.leader.commitIndex) :
    (heartbeat p s).follower.delivered = s.target.entries := by
  have hok := hnear.accepts h.agreed
  refine (hnear.told htold).complete (le_trans ?_ (RaftNode.min_le_commitIndex_handleAppendEntries hok))
  obtain ⟨_, k, hstored, hfull⟩ := hnear.stores hok
  have hfull := hfull (by rw [h.next]; omega)
  rw [hstored, List.take_of_length_le hfull, request_eq, ← hnear.whole.first]
  exact le_min hall hnear.whole.lastIndex.ge

end Leadership
end MyEtcd
