import MyEtcd.Raft.StoredEntries

/-! Heartbeats bring a follower's log to the leader's.
Rejections move the next index down to where the logs agree, and from there on every heartbeat adds
a message's worth of entries. -/
namespace MyEtcd
open Library

namespace RaftLog
variable {a b : RaftLog}

/-- The check passes only where the logs agree on all positions up to the previous entry. -/
theorem Matching.take_eq (h : Matching a b) (ha : a.Whole) (hb : b.Whole)
    (hterms : ∀ e ∈ a.entries, 0 < e.term) {k : Nat} (hk : k ≤ a.entries.length)
    (hsame : k = 0 ∨ b.termAt k = a.termAt k) : b.entries.take k = a.entries.take k := by
  rcases Nat.eq_zero_or_pos k with rfl | hpos
  · rfl
  have hslot : a.entries[k - 1]? = some a.entries[k - 1] := List.getElem?_eq_getElem (by omega)
  have hx := (ha.entryAt hpos).trans hslot
  have hterm : b.termAt k = a.entries[k - 1].term :=
    (hsame.resolve_left hpos.ne').trans (ha.termAt hpos hslot)
  have hset : b.termAt k ≠ 0 := by
    rw [hterm]
    exact (hterms _ (List.getElem_mem _)).ne'
  obtain ⟨y, hy, hyterm⟩ := entryAt_of_termAt hset
  have hlen : k ≤ b.entries.length := by
    rw [hb.entryAt hpos] at hy
    have := (List.getElem?_eq_some_iff.mp hy).1
    omega
  apply List.ext_getElem
  · rw [List.length_take, List.length_take, min_eq_left hlen, min_eq_left hk]
  intro i hi hi'
  simp only [List.length_take] at hi hi'
  rw [List.getElem_take, List.getElem_take]
  have hxi : a.entryAt (i + 1) = some a.entries[i] :=
    (ha.entryAt i.succ_pos).trans (List.getElem?_eq_getElem (by omega))
  have hyi : b.entryAt (i + 1) = some b.entries[i] :=
    (hb.entryAt i.succ_pos).trans (List.getElem?_eq_getElem (by omega))
  exact (h k _ y hx hy (hterm.symm.trans hyterm.symm) (i + 1) (by omega) _ _ hxi hyi).symm

/-- Slot by slot: where the terms are the same, so is everything up to there. -/
theorem matching_of_slots (ha : a.Whole) (hb : b.Whole)
    (h : ∀ k < a.entries.length, ∀ x ∈ a.entries[k]?, ∀ y ∈ b.entries[k]?, x.term = y.term →
      a.entries.take (k + 1) = b.entries.take (k + 1)) : Matching a b := by
  intro i x y hx hy hterm j hj x' y' hx' hy'
  have hjpos : 1 ≤ j := ha.first.ge.trans (entryAt_eq_some.mp hx').1
  rw [ha.entryAt (hjpos.trans hj)] at hx
  rw [hb.entryAt (hjpos.trans hj)] at hy
  rw [ha.entryAt hjpos] at hx'
  rw [hb.entryAt hjpos] at hy'
  have hsame := congrArg (fun l => l[j - 1]?)
    (h (i - 1) (List.getElem?_eq_some_iff.mp hx).1 x hx y hy hterm)
  simp only [List.getElem?_take_of_lt (show j - 1 < i - 1 + 1 by omega)] at hsame
  exact Option.some.inj (hx'.symm.trans (hsame.trans hy'))

end RaftLog

namespace RaftNode

theorem flushBatch_kept (n : RaftNode) : n.flushBatch.currentTerm = n.currentTerm ∧
    n.flushBatch.nextIndex = n.nextIndex ∧ n.flushBatch.batchBuffer = [] := by
  rcases n.flushBatch_cases with ⟨hempty, heq⟩ | ⟨_, heq⟩
  · rw [heq]
    exact ⟨rfl, rfl, hempty⟩
  · rw [heq]
    exact ⟨rfl, rfl, rfl⟩

theorem flushBatch_of_empty {n : RaftNode} (h : n.batchBuffer = []) : n.flushBatch = n := by
  rcases n.flushBatch_cases with ⟨_, heq⟩ | ⟨hne, _⟩
  · exact heq
  · exact absurd h hne

theorem flushBatch_whole {n : RaftNode} (h : n.log.Whole) :
    n.flushBatch.log.Whole ∧ n.log.lastIndex ≤ n.flushBatch.log.lastIndex := by
  rcases n.flushBatch_cases with ⟨_, heq⟩ | ⟨_, heq⟩
  · rw [heq]
    exact ⟨h, le_rfl⟩
  · have hwhole : RaftLog.Whole { n.log with entries := n.log.entries ++ n.renumberedBatch } := by
      refine ⟨h.first, RaftLog.Contiguous.append h.aligned ?_⟩
      have hnext := n.renumberedBatch_contiguous
      rwa [h.lastIndex, Nat.add_comm, ← h.first] at hnext
    rw [heq]
    dsimp only
    rw [h.appendAll n.renumberedBatch_contiguous]
    refine ⟨hwhole, ?_⟩
    rw [hwhole.lastIndex, h.lastIndex, List.length_append]
    exact Nat.le_add_right _ _

/-- A rejection moves the next index strictly back, as long as it is not at the first entry. -/
theorem nextAfterReject_lt (n : RaftNode) (peer : Nat) (resp : AppendEntriesResponse)
    (h : 1 < n.nextIndex.getD peer 0) :
    n.nextAfterReject peer resp < n.nextIndex.getD peer 0 := by
  unfold nextAfterReject
  dsimp only
  split_ifs <;> omega

/-- What the leader takes for the next index after an answer of its own term. -/
theorem appendResponse_nextIndex (n : RaftNode) (peer : Nat) (entries : List RaftEntry)
    {resp : AppendEntriesResponse} (hterm : resp.term ≤ n.currentTerm) :
    (n.appendResponse peer entries resp).nextIndex.getD peer 0 =
      if resp.success then
        match entries.getLast? with
        | some back => back.index + 1
        | none => n.nextIndex.getD peer 0
      else n.nextAfterReject peer resp := by
  unfold appendResponse
  rw [if_neg (not_lt.mpr hterm)]
  split_ifs
  · cases entries.getLast? with
    | some back => exact OrderedMap.getD_insert_self _ _ _ _
    | none => rfl
  · exact OrderedMap.getD_insert_self _ _ _ _

theorem handleAppendEntries_term {n : RaftNode} {req : AppendEntriesRequest}
    (h : n.currentTerm ≤ req.term) : (n.handleAppendEntries req).1.term = req.term ∧
      (n.handleAppendEntries req).2.currentTerm = req.term := by
  have hfollower : (n.becomeFollowerLocked req.term).currentTerm = req.term := by
    rcases h.lt_or_eq with hlt | heq
    · rw [becomeFollowerLocked_of_lt hlt]
    · rw [becomeFollowerLocked_of_le heq.ge]
      exact heq
  rcases n.handleAppendEntries_cases req with
    ⟨hold, _⟩ | ⟨_, ⟨_, heq⟩ | ⟨_, hanswer, m, hm, ⟨_, heq⟩ | ⟨_, heq⟩⟩⟩
  · omega
  · rw [heq]
    exact ⟨rfl, hfollower⟩
  · rw [hanswer, heq, hm]
    exact ⟨rfl, hfollower⟩
  · rw [hanswer, heq, ← (applyCommittedEntries_kept _).currentTerm, hm]
    exact ⟨rfl, hfollower⟩

end RaftNode

namespace Leadership
variable {p : Nat} {s : Leadership}

/-- The part of `BroadcastHeartbeat` that is about `p`, with the request and the answer delivered. -/
def heartbeat (p : Nat) (s : Leadership) : Leadership :=
  let (resp, follower) := s.follower.handleAppendEntries (s.request p)
  { leader := s.leader.flushBatch.appendResponse p (s.request p).entries resp
    follower := follower }

theorem step_round (h : s.leader.state = .leader) :
    step p s (.round true true) = some (heartbeat p s) := by
  simp [step, heartbeat, h]

/-- What the leader has to bring to the follower: its log with the buffered batch. -/
def target (s : Leadership) : RaftLog := s.leader.flushBatch.log

def next (p : Nat) (s : Leadership) : Nat := s.leader.nextIndex.getD p 0

theorem request_eq (p : Nat) (s : Leadership) : s.request p =
    { term := s.leader.currentTerm
      leaderId := s.leader.flushBatch.nodeId
      prevLogIndex := predIndex (next p s)
      prevLogTerm := s.target.termAt (predIndex (next p s))
      entries := (s.target.entriesFrom (next p s) 0).take RaftNode.maxEntriesPerMsg
      leaderCommit := s.leader.commitIndex } := by
  obtain ⟨hterm, hnext, _⟩ := s.leader.flushBatch_kept
  rw [request, RaftNode.appendRequest, hterm, hnext]
  rfl

/-- Between heartbeats nothing is buffered, and the leader leads on in its term. -/
theorem heartbeat_kept (h : s.follower.currentTerm ≤ s.leader.currentTerm) :
    (heartbeat p s).leader.log = s.target ∧ (heartbeat p s).target = s.target ∧
      (heartbeat p s).follower.currentTerm ≤ (heartbeat p s).leader.currentTerm := by
  have hreq : (s.request p).term = s.leader.currentTerm := by rw [request_eq]
  obtain ⟨hanswer, hfollower⟩ := RaftNode.handleAppendEntries_term (h.trans hreq.ge)
  obtain ⟨hterm, _, hbatch⟩ := s.leader.flushBatch_kept
  have hlog := s.leader.flushBatch.appendResponse_log p (s.request p).entries
    (s.follower.handleAppendEntries (s.request p)).1
  refine ⟨hlog.1, ?_, ?_⟩
  · have hempty : (heartbeat p s).leader.batchBuffer = [] := hlog.2.trans hbatch
    rw [target, RaftNode.flushBatch_of_empty hempty]
    exact hlog.1
  · rcases s.leader.flushBatch.appendResponse_cases p (s.request p).entries
      (s.follower.handleAppendEntries (s.request p)).1 with ⟨hlater, _⟩ | ⟨_, _, _, heq⟩
    · rw [hanswer, hterm, hreq] at hlater
      exact absurd hlater (lt_irrefl _)
    · dsimp only [heartbeat]
      rw [hfollower, heq, hreq]
      exact hterm.ge

theorem next_heartbeat (h : s.follower.currentTerm ≤ s.leader.currentTerm) :
    next p (heartbeat p s) =
      if (s.follower.handleAppendEntries (s.request p)).1.success then
        match (s.request p).entries.getLast? with
        | some back => back.index + 1
        | none => next p s
      else s.leader.flushBatch.nextAfterReject p (s.follower.handleAppendEntries (s.request p)).1 := by
  have hreq : (s.request p).term = s.leader.currentTerm := by rw [request_eq]
  obtain ⟨hanswer, _⟩ := RaftNode.handleAppendEntries_term (h.trans hreq.ge)
  obtain ⟨hterm, hnext, _⟩ := s.leader.flushBatch_kept
  have hresp : (s.follower.handleAppendEntries (s.request p)).1.term =
      s.leader.flushBatch.currentTerm := by
    rw [hanswer, hreq, hterm]
  have heq := s.leader.flushBatch.appendResponse_nextIndex p (s.request p).entries hresp.le
  rw [hnext] at heq
  exact heq

/-- A leader, and a follower of no later term, whose logs have never been compacted. -/
structure Replicating (p : Nat) (s : Leadership) : Prop where
  whole : s.target.Whole
  followerWhole : s.follower.log.Whole
  term : s.follower.currentTerm ≤ s.leader.currentTerm
  next_pos : 1 ≤ next p s
  next_le : next p s ≤ s.target.lastIndex + 1

/-- The follower's log is the leader's up to the next index. -/
def Agreed (p : Nat) (s : Leadership) : Prop :=
  s.follower.log.entries.take (next p s - 1) = s.target.entries.take (next p s - 1)

namespace Replicating

theorem request_prev (h : Replicating p s) : (s.request p).prevLogIndex = next p s - 1 ∧
    (s.request p).prevLogTerm = s.target.termAt (next p s - 1) ∧
    (s.request p).entries =
      (s.target.entries.drop (next p s - 1)).take RaftNode.maxEntriesPerMsg := by
  have hnext : next p s = next p s - 1 + 1 := (Nat.sub_add_cancel h.next_pos).symm
  rw [request_eq]
  refine ⟨predIndex_of_pos h.next_pos, by rw [predIndex_of_pos h.next_pos], ?_⟩
  dsimp only
  rw [hnext, h.whole.entriesFrom, Nat.add_sub_cancel]

theorem request_contiguous (h : Replicating p s) :
    RaftLog.Contiguous (next p s - 1 + 1) (s.request p).entries := by
  rw [h.request_prev.2.2]
  have := (h.whole.contiguous.drop (next p s - 1)).take RaftNode.maxEntriesPerMsg
  rwa [Nat.add_comm] at this

theorem prev_le (h : Replicating p s) : next p s - 1 ≤ s.target.entries.length := by
  have := h.next_le
  rw [h.whole.lastIndex] at this
  omega

/-- Either way the roles and the logs stay as a heartbeat needs them. -/
theorem heartbeat (h : Replicating p s) (hlog : (heartbeat p s).follower.log.Whole)
    (hpos : 1 ≤ next p (Leadership.heartbeat p s))
    (hle : next p (Leadership.heartbeat p s) ≤ s.target.lastIndex + 1) :
    Replicating p (Leadership.heartbeat p s) := by
  obtain ⟨_, htarget, hterm⟩ := heartbeat_kept (p := p) h.term
  exact ⟨htarget ▸ h.whole, hlog, hterm, hpos, htarget ▸ hle⟩

theorem refused (h : Replicating p s) (hno : ¬ Accepts s.follower (s.request p)) :
    Replicating p (Leadership.heartbeat p s) ∧
      next p (Leadership.heartbeat p s) < next p s ∧
      (Leadership.heartbeat p s).follower.log = s.follower.log := by
  have hreq : (s.request p).term = s.leader.currentTerm := by rw [request_eq]
  have hprev : (s.request p).prevLogIndex ≠ 0 := fun hzero =>
    hno ⟨h.term.trans hreq.ge, decide_eq_true (.inl hzero)⟩
  rw [h.request_prev.1] at hprev
  obtain ⟨_, hfail, hlog⟩ :=
    (handleAppendEntries_answer s.follower (s.request p)).resolve_right fun hok => hno hok.1
  have hnext := next_heartbeat (p := p) h.term
  rw [hfail, if_neg Bool.false_ne_true] at hnext
  have hsame : s.leader.flushBatch.nextIndex.getD p 0 = next p s := by
    rw [s.leader.flushBatch_kept.2.1]
    rfl
  have hback := s.leader.flushBatch.nextAfterReject_lt p
    (s.follower.handleAppendEntries (s.request p)).1 (by omega)
  have hpos := (s.leader.flushBatch.nextAfterReject_bounds p
    (s.follower.handleAppendEntries (s.request p)).1 (by omega)).1
  rw [← hnext, hsame] at hback
  rw [← hnext] at hpos
  exact ⟨h.heartbeat (hlog.symm ▸ h.followerWhole) hpos (hback.le.trans h.next_le), hback, hlog⟩

theorem agreed_length (h : Replicating p s) (hagreed : Agreed p s) :
    next p s - 1 ≤ s.follower.log.entries.length := by
  have hlen := congrArg List.length hagreed
  have := h.prev_le
  rw [List.length_take, List.length_take] at hlen
  omega

/-- Logs that agree up to the next index pass the consistency check. -/
theorem accepts (h : Replicating p s) (hagreed : Agreed p s) :
    Accepts s.follower (s.request p) := by
  have hreq : (s.request p).term = s.leader.currentTerm := by rw [request_eq]
  refine ⟨h.term.trans hreq.ge, decide_eq_true ?_⟩
  obtain ⟨hprev, hterm, _⟩ := h.request_prev
  rw [hprev, hterm]
  rcases Nat.eq_zero_or_pos (next p s - 1) with hzero | hpos
  · exact .inl hzero
  · have hslot := congrArg (fun l => l[next p s - 1 - 1]?) hagreed
    simp only [List.getElem?_take_of_lt (Nat.sub_lt hpos Nat.one_pos)] at hslot
    right
    rw [RaftLog.termAt_eq_entryAt, RaftLog.termAt_eq_entryAt, h.followerWhole.entryAt hpos,
      h.whole.entryAt hpos, hslot]

/-- The follower takes what the request brings, and the next index moves behind it. -/
theorem taken (h : Replicating p s) (hagreed : Agreed p s) :
    Replicating p (Leadership.heartbeat p s) ∧ Agreed p (Leadership.heartbeat p s) ∧
      next p (Leadership.heartbeat p s) =
        min (next p s + RaftNode.maxEntriesPerMsg) (s.target.lastIndex + 1) := by
  have hpos := h.next_pos
  have hprev := h.prev_le
  have hlast := h.whole.lastIndex
  have htarget := (heartbeat_kept (p := p) h.term).2.1
  have hentries := h.request_prev.2.2
  obtain ⟨_, hanswer, hlog⟩ :=
    (handleAppendEntries_answer s.follower (s.request p)).resolve_left fun hno =>
      hno.1 (h.accepts hagreed)
  have hnext := next_heartbeat (p := p) h.term
  rw [hanswer, if_pos rfl] at hnext
  have hlen : (s.request p).entries.length =
      min RaftNode.maxEntriesPerMsg (s.target.entries.length - (next p s - 1)) := by
    rw [hentries, List.length_take, List.length_drop]
  have hmax : RaftNode.maxEntriesPerMsg = 128 := rfl
  cases hback : (s.request p).entries.getLast? with
  | none =>
    -- the follower has everything already
    have hnil := List.getLast?_eq_none_iff.mp hback
    rw [hnil, List.length_nil] at hlen
    rw [hback] at hnext
    dsimp only at hnext
    have hsame : (Leadership.heartbeat p s).follower.log = s.follower.log := by
      rw [hnil] at hlog
      exact hlog
    refine ⟨h.heartbeat (hsame.symm ▸ h.followerWhole) (hnext.symm ▸ hpos)
      (hnext.symm ▸ h.next_le), ?_, ?_⟩
    · rw [Agreed, hnext, hsame, htarget]
      exact hagreed
    · omega
  | some back =>
    have hne : (s.request p).entries ≠ [] := by
      intro hnil
      simp [hnil] at hback
    have hc := h.request_contiguous
    have hindex := hc _ _ (List.getLast?_eq_getElem?.symm.trans hback)
    have hnext : next p (Leadership.heartbeat p s) = back.index + 1 := by rw [hnext, hback]
    have hmoved : next p (Leadership.heartbeat p s) =
        min (next p s + RaftNode.maxEntriesPerMsg) (s.target.lastIndex + 1) := by
      have := List.length_pos_of_ne_nil hne
      omega
    have hstored : (Leadership.heartbeat p s).follower.log =
        ⟨s.target.entries.take (next p s - 1 + RaftNode.maxEntriesPerMsg), 1⟩ := by
      refine hlog.trans ?_
      rw [h.followerWhole.storeEntries hc hne (h.agreed_length hagreed), hagreed, hentries,
        ← List.take_add]
    refine ⟨h.heartbeat ?_ (by omega) (by omega), ?_, hmoved⟩
    · rw [hstored]
      exact ⟨rfl, h.whole.contiguous.take _⟩
    · rw [Agreed, hstored, htarget, List.take_take, min_eq_left (by omega)]

/-- With every further heartbeat the follower has a message's worth of entries more. -/
theorem iterate (h : Replicating p s) (hagreed : Agreed p s) (m : Nat) :
    Replicating p ((Leadership.heartbeat p)^[m] s) ∧ Agreed p ((Leadership.heartbeat p)^[m] s) ∧
      ((Leadership.heartbeat p)^[m] s).target = s.target ∧
      min (next p s + RaftNode.maxEntriesPerMsg * m) (s.target.lastIndex + 1) ≤
        next p ((Leadership.heartbeat p)^[m] s) := by
  induction m with
  | zero => exact ⟨h, hagreed, rfl, min_le_left _ _⟩
  | succ m ih =>
    obtain ⟨hrep, hagree, htarget, hmoved⟩ := ih
    obtain ⟨hrep', hagree', hnext⟩ := hrep.taken hagree
    rw [Function.iterate_succ_apply']
    refine ⟨hrep', hagree', (heartbeat_kept hrep.term).2.1.trans htarget, ?_⟩
    rw [hnext, htarget, Nat.mul_succ]
    omega

end Replicating

/-- What is asked of the two logs, the batch in the leader's buffer included. -/
structure Comparable (p : Nat) (s : Leadership) : Prop extends Replicating p s where
  terms : ∀ e ∈ s.target.entries, 0 < e.term
  matching : RaftLog.Matching s.target s.follower.log

namespace Comparable

theorem agreed (h : Comparable p s) (hok : Accepts s.follower (s.request p)) : Agreed p s := by
  obtain ⟨hprev, hterm, _⟩ := h.request_prev
  have hmatches := of_decide_eq_true hok.2
  rw [hprev, hterm] at hmatches
  exact h.matching.take_eq h.whole h.followerWhole h.terms h.prev_le hmatches

theorem refused (h : Comparable p s) (hno : ¬ Accepts s.follower (s.request p)) :
    Comparable p (heartbeat p s) ∧ next p (heartbeat p s) < next p s := by
  obtain ⟨hrep, hback, hlog⟩ := h.toReplicating.refused hno
  have htarget := (heartbeat_kept (p := p) h.term).2.1
  exact ⟨⟨hrep, htarget.symm ▸ h.terms, htarget.symm ▸ hlog.symm ▸ h.matching⟩, hback⟩

end Comparable

def answer (p : Nat) (s : Leadership) : AppendEntriesResponse :=
  (s.follower.handleAppendEntries (s.request p)).1

theorem answer_success (p : Nat) (s : Leadership) :
    (answer p s).success = true ↔ Accepts s.follower (s.request p) := by
  unfold answer
  rcases handleAppendEntries_answer s.follower (s.request p) with ⟨hno, hfail, _⟩ | ⟨hok, heq, _⟩
  · simp [hno, hfail]
  · simp [hok, heq]

/-- Once the next index has passed the last entry, the follower has all that the leader has. -/
theorem Replicating.complete (h : Replicating p s) (hagreed : Agreed p s)
    (hnext : s.target.lastIndex + 1 ≤ next p s) {i : Nat} (hpos : 1 ≤ i)
    (hi : i ≤ s.target.lastIndex) : s.follower.log.entryAt i = s.target.entryAt i := by
  have hslot := congrArg (fun l => l[i - 1]?) hagreed
  simp only [List.getElem?_take_of_lt (show i - 1 < next p s - 1 by omega)] at hslot
  rw [h.followerWhole.entryAt hpos, h.whole.entryAt hpos, hslot]

/-- Every refusal takes the next index strictly back until the first acceptance, which comes before
the next index is used up. With one more heartbeat for each message's worth of entries, and one to
spare, the follower agrees with the leader. -/
theorem heartbeats_converge {p : Nat} {s : Leadership} (hleader : s.leader.log.Whole)
    (hfollower : s.follower.log.Whole) (hterm : s.follower.currentTerm ≤ s.leader.currentTerm)
    (hterms : ∀ e ∈ s.target.entries, 0 < e.term)
    (hmatching : RaftLog.Matching s.target s.follower.log) (hpos : 1 ≤ next p s)
    (hle : next p s ≤ s.leader.log.lastIndex + 1) :
    ∃ k < next p s,
      (∀ j < k, (answer p ((heartbeat p)^[j] s)).success = false ∧
        next p ((heartbeat p)^[j + 1] s) < next p ((heartbeat p)^[j] s)) ∧
      (answer p ((heartbeat p)^[k] s)).success = true ∧
      ∀ m, (s.target.lastIndex + 127) / 128 + 1 ≤ m →
        ((heartbeat p)^[k + 1 + m] s).leader.log = s.target ∧
        ∀ i, 1 ≤ i → i ≤ s.target.lastIndex →
          ((heartbeat p)^[k + 1 + m] s).follower.log.entryAt i = s.target.entryAt i := by
  obtain ⟨hwhole, hgrown⟩ := RaftNode.flushBatch_whole hleader
  have hstart : Comparable p s :=
    ⟨⟨hwhole, hfollower, hterm, hpos, hle.trans (Nat.succ_le_succ hgrown)⟩, hterms, hmatching⟩
  have hstep (t : Leadership) (ht : Comparable p t ∧ t.target = s.target)
      (hno : ¬ (answer p t).success = true) :
      (Comparable p (heartbeat p t) ∧ (heartbeat p t).target = s.target) ∧
        next p (heartbeat p t) < next p t := by
    obtain ⟨hcomp, hback⟩ := ht.1.refused (mt (answer_success p t).mpr hno)
    exact ⟨⟨hcomp, (heartbeat_kept ht.1.term).2.1.trans ht.2⟩, hback⟩
  obtain ⟨k, hk, hbefore, haccepted, hcomp, htarget⟩ :=
    exists_iterate_stop (fun t ht => ht.1.next_pos) hstep ⟨hstart, rfl⟩
  refine ⟨k, hk, fun j hj => ⟨by simpa using (hbefore j hj).1, (hbefore j hj).2⟩, haccepted,
    fun m hm => ?_⟩
  have hagreed := hcomp.agreed ((answer_success p _).mp haccepted)
  have hsplit : (heartbeat p)^[k + 1 + m] s = (heartbeat p)^[m + 1] ((heartbeat p)^[k] s) := by
    rw [← Function.iterate_add_apply]
    congr 1
    omega
  obtain ⟨hprior, _, hsame, _⟩ := hcomp.toReplicating.iterate hagreed m
  obtain ⟨hrep, hagree, hkept, hmoved⟩ := hcomp.toReplicating.iterate hagreed (m + 1)
  rw [hsplit]
  rw [htarget] at hsame hkept hmoved
  have hend := hrep.next_pos
  refine ⟨?_, fun i hi hil => ?_⟩
  · rw [Function.iterate_succ_apply']
    exact (heartbeat_kept hprior.term).1.trans hsame
  · have hdone : s.target.lastIndex + 1 ≤
        next p ((heartbeat p)^[m + 1] ((heartbeat p)^[k] s)) := by
      have hmax : RaftNode.maxEntriesPerMsg = 128 := rfl
      rw [hmax] at hmoved
      omega
    rw [← hkept]
    exact hrep.complete hagree (hkept.symm ▸ hdone) hi (hkept.symm ▸ hil)

/-- A new leader, and a follower with an entry of a leader in between. -/
def overruled : Leadership where
  leader :=
    { nodeId := 1
      state := .leader
      currentTerm := 3
      log := ⟨[{ term := 1, index := 1 }, { term := 3, index := 2 }], 1⟩
      nextIndex := OrderedMap.insert ∅ 2 3 }
  follower :=
    { nodeId := 2
      currentTerm := 2
      log := ⟨[{ term := 1, index := 1 }, { term := 2, index := 2 }], 1⟩ }

theorem overruled_converges : ∃ k, ∀ i, 1 ≤ i → i ≤ 2 →
    ((heartbeat 2)^[k] overruled).follower.log.entryAt i = overruled.target.entryAt i := by
  obtain ⟨k, _, _, _, hagrees⟩ := heartbeats_converge (p := 2) (s := overruled)
    ⟨rfl, by decide⟩ ⟨rfl, by decide⟩ (by decide) (by decide)
    (RaftLog.matching_of_slots ⟨rfl, by decide⟩ ⟨rfl, by decide⟩ (by decide)) (by decide) (by decide)
  exact ⟨_, (hagrees 2 (by decide)).2⟩

end Leadership
end MyEtcd
