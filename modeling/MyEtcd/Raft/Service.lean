import MyEtcd.Library.Execution
import MyEtcd.Raft.Transitions

/-! One node by itself, taking its calls in any order.
Its log stays in step with its snapshot as long as nothing is numbered while the log is empty. -/
namespace MyEtcd
open Library

namespace RaftLog

theorem contiguous_iff_map {start : Nat} {entries : List RaftEntry} :
    Contiguous start entries ↔
      entries.map RaftEntry.index = List.range' start entries.length := by
  constructor
  · intro h
    apply List.ext_getElem
    · simp
    · intro k hk _
      simp only [List.length_map] at hk
      simpa using h k _ (List.getElem?_eq_getElem hk)
  · intro h k e he
    have hk := congrArg (fun l => l[k]?) h
    simp only [List.getElem?_map, he, Option.map_some] at hk
    obtain ⟨_, hindex⟩ := List.getElem?_eq_some_iff.mp hk.symm
    simpa using hindex.symm

instance (start : Nat) (entries : List RaftEntry) : Decidable (Contiguous start entries) :=
  decidable_of_iff _ contiguous_iff_map.symm

/-- Entries whose indices follow one another, from a positive one on. -/
def Successive : List RaftEntry → Prop
  | [] => True
  | front :: rest => 0 < front.index ∧ Contiguous front.index (front :: rest)

instance (entries : List RaftEntry) : Decidable (Successive entries) :=
  match entries with
  | [] => .isTrue trivial
  | front :: rest => inferInstanceAs (Decidable (0 < front.index ∧ Contiguous _ (front :: rest)))

theorem Contiguous.successive {prev : Nat} {entries : List RaftEntry}
    (h : Contiguous (prev + 1) entries) : Successive entries := by
  cases entries with
  | nil => trivial
  | cons front rest =>
    have hfront : front.index = prev + 1 := h 0 front rfl
    rw [Successive, hfront]
    exact ⟨Nat.succ_pos prev, h⟩

theorem Successive.contiguous {entries : List RaftEntry} (h : Successive entries) :
    ∃ prev, Contiguous (prev + 1) entries := by
  cases entries with
  | nil => exact ⟨0, fun k e he => by cases he⟩
  | cons front rest =>
    obtain ⟨prev, hprev⟩ := Nat.exists_eq_succ_of_ne_zero h.1.ne'
    refine ⟨prev, ?_⟩
    rw [← Nat.succ_eq_add_one, ← hprev]
    exact h.2

/-- The entries, if there are any, begin at the place of `e` or before it. -/
def ReachesBack (entries : List RaftEntry) (e : RaftEntry) : Prop :=
  ∃ front ∈ entries.head?, front.index ≤ e.index

instance (entries : List RaftEntry) (e : RaftEntry) : Decidable (ReachesBack entries e) :=
  inferInstanceAs (Decidable (∃ front ∈ entries.head?, front.index ≤ e.index))

instance (log : RaftLog) : Decidable log.Aligned :=
  inferInstanceAs (Decidable (Contiguous log.firstIndex log.entries))

/-- `lastIndex + 1` is the number of the next slot. -/
def Ready (log : RaftLog) : Prop := log.entries ≠ [] ∨ log.firstIndex = 1

instance (log : RaftLog) : Decidable log.Ready := inferInstanceAs (Decidable (_ ∨ _))

theorem Ready.lastIndex_succ {log : RaftLog} (hready : log.Ready) (h : log.Aligned) :
    log.lastIndex + 1 = log.firstIndex + log.entries.length := by
  by_cases hne : log.entries = []
  · have hone := hready.resolve_left (not_not.mpr hne)
    rw [lastIndex_of_empty hne, hne, hone, List.length_nil]
  · exact h.lastIndex_succ hne

/-- A log behind a snapshot that ends at `base`: the slots are numbered, and they leave no gap
after the snapshot. -/
structure Based (log : RaftLog) (base : Nat) : Prop where
  aligned : Aligned log
  positive : 0 < log.firstIndex
  first : log.firstIndex ≤ base + 1
  empty : log.entries = [] → log.firstIndex = base + 1

namespace Based
variable {log : RaftLog} {base : Nat}

theorem restore (log : RaftLog) (base : Nat) : (log.restore base).Based base where
  aligned := aligned_empty _
  positive := Nat.succ_pos base
  first := le_rfl
  empty _ := rfl

/-- A last index that is not below the snapshot's leaves the next slot to the next index. -/
theorem ready (h : log.Based base) (hle : base ≤ log.lastIndex) : log.Ready := by
  by_cases hne : log.entries = []
  · right
    have hfirst := h.empty hne
    rw [lastIndex_of_empty hne] at hle
    omega
  · exact .inl hne

theorem extend (h : log.Based base) {entries : List RaftEntry}
    (hc : Contiguous (log.firstIndex + log.entries.length) entries) :
    Based { log with entries := log.entries ++ entries } base where
  aligned := Contiguous.append h.aligned hc
  positive := h.positive
  first := h.first
  empty hnil := h.empty (List.append_eq_nil_iff.mp hnil).1

theorem append (h : log.Based base) (hready : log.Ready) {e : RaftEntry}
    (he : e.index = log.lastIndex + 1) : (log.append e).Based base := by
  have hnext : Contiguous (log.firstIndex + log.entries.length) [e] :=
    contiguous_singleton (he.trans (hready.lastIndex_succ h.aligned))
  exact h.extend hnext

theorem appendAll_eq (h : log.Based base) (hready : log.Ready) {batch : List RaftEntry}
    (hc : Contiguous (log.lastIndex + 1) batch) :
    log.appendAll batch = { log with entries := log.entries ++ batch } := by
  refine h.aligned.appendAll_next ?_
  rwa [← hready.lastIndex_succ h.aligned]

theorem appendAll (h : log.Based base) (hready : log.Ready) {batch : List RaftEntry}
    (hc : Contiguous (log.lastIndex + 1) batch) : (log.appendAll batch).Based base := by
  rw [h.appendAll_eq hready hc]
  refine h.extend ?_
  rwa [← hready.lastIndex_succ h.aligned]

/-- Received entries replace the end of the log, or the whole of it. -/
theorem storeEntries (h : log.Based base) {prev : Nat} {entries : List RaftEntry}
    (hc : Contiguous (prev + 1) entries) :
    (RaftNode.storeEntries log entries).Based base := by
  by_cases hne : entries = []
  · rw [hne]
    exact h
  have haligned := RaftNode.storeEntries_aligned h.aligned hc
  have hfirst := h.first
  rcases RaftNode.storeEntries_cases h.aligned hc hne with ⟨hlt, heq⟩ | ⟨_, _, heq⟩ | ⟨_, _, heq⟩
  · rw [heq] at haligned ⊢
    exact ⟨haligned, Nat.succ_pos prev, by dsimp only; omega, fun hnil => absurd hnil hne⟩
  · rw [heq] at haligned ⊢
    exact ⟨haligned, h.positive, h.first,
      fun hnil => absurd (List.append_eq_nil_iff.mp hnil).2 hne⟩
  · rwa [heq]

end Based
end RaftLog

namespace RaftNode

/-- The node as `Start` leaves it, with the snapshot found on disk applied. -/
def ofSnapshot (config : ClusterConfig) : Option Snapshot → RaftNode
  | none => ofConfig config
  | some snapshot => (ofConfig config).applySnapshot snapshot

theorem ofSnapshot_some (config : ClusterConfig) (snapshot : Snapshot) :
    ofSnapshot config (some snapshot) = { ofConfig config with
      log := (ofConfig config).log.restore snapshot.lastIndex
      commitIndex := snapshot.lastIndex
      lastApplied := snapshot.lastIndex
      currentTerm := snapshot.lastTerm } := by
  have hfresh : ¬ snapshot.lastIndex < (ofConfig config).commitIndex := Nat.not_lt_zero _
  have hterm : (if snapshot.lastTerm > (ofConfig config).currentTerm then snapshot.lastTerm
      else (ofConfig config).currentTerm) = snapshot.lastTerm := by
    have hzero : (ofConfig config).currentTerm = 0 := rfl
    rw [hzero]
    split_ifs <;> omega
  rw [ofSnapshot, applySnapshot, if_neg hfresh, hterm]

/-- A call of one of the node's methods. -/
inductive Call where
  | becomeFollower (term : Nat)
  | becomeCandidate
  | becomeLeader
  | propose (entry : RaftEntry)
  | proposeConfChange (cc : ConfChange)
  | proposeBatch (entry : RaftEntry)
  | flushBatch
  | handleRequestVote (req : RequestVoteRequest)
  | handleAppendEntries (req : AppendEntriesRequest)
  | appendResponse (peer : Nat) (entries : List RaftEntry) (resp : AppendEntriesResponse)
  | advanceCommitIndex
  | applyCommittedEntries

/-- The node after a call. -/
def after (n : RaftNode) : Call → RaftNode
  | .becomeFollower term => n.becomeFollowerLocked term
  | .becomeCandidate => n.becomeCandidateLocked
  | .becomeLeader => n.becomeLeaderLocked
  | .propose entry => (n.propose entry).2
  | .proposeConfChange cc => (n.proposeConfChange cc).2
  | .proposeBatch entry => (n.proposeBatch entry).2
  | .flushBatch => n.flushBatch
  | .handleRequestVote req => (n.handleRequestVote req).2
  | .handleAppendEntries req => (n.handleAppendEntries req).2
  | .appendResponse peer entries resp => n.appendResponse peer entries resp
  | .advanceCommitIndex => n.advanceCommitIndex
  | .applyCommittedEntries => n.applyCommittedEntries

/-- A call whose entries, if it carries any, are numbered one after another. -/
def serve (n : RaftNode) : Call → Option RaftNode
  | .handleAppendEntries req =>
    if RaftLog.Successive req.entries then
      some (n.after (.handleAppendEntries req))
    else none
  | c => some (n.after c)

theorem serve_eq_after {n n' : RaftNode} {c : Call} (hs : n.serve c = some n') :
    n' = n.after c := by
  cases c with
  | handleAppendEntries req => exact (Option.some.inj (Option.ite_none_right_eq_some.mp hs).2).symm
  | _ => exact (Option.some.inj hs).symm

/-- The calls that give out indices are made only where the next index is that of the next slot. -/
def Numbers (n : RaftNode) : Call → Prop
  | .propose _ => n.state = .leader → n.log.Ready
  | .proposeConfChange _ => n.state = .leader → n.log.Ready
  | .flushBatch => n.batchBuffer ≠ [] → n.log.Ready
  | _ => True

instance (n : RaftNode) (c : Call) : Decidable (Numbers n c) := by
  cases c <;> unfold Numbers <;> infer_instance

theorem becomeFollowerLocked_eq (n : RaftNode) (term : Nat) : ∃ t v, n.becomeFollowerLocked term =
    { n with currentTerm := t, votedFor := v, state := .follower } := by
  rcases Nat.lt_or_ge n.currentTerm term with hlt | hle
  · exact ⟨_, _, becomeFollowerLocked_of_lt hlt⟩
  · exact ⟨_, _, becomeFollowerLocked_of_le hle⟩

/-- A vote is about the term, the vote and the role only. -/
theorem handleRequestVote_eq (n : RaftNode) (req : RequestVoteRequest) :
    ∃ t v r, (n.handleRequestVote req).2 =
      { n with currentTerm := t, votedFor := v, state := r } := by
  rcases n.handleRequestVote_cases req with ⟨_, heq⟩ | ⟨_, m, hm, hcases⟩
  · exact ⟨_, _, _, congrArg Prod.snd heq⟩
  have hm' : ∃ t v r, m = { n with currentTerm := t, votedFor := v, state := r } := by
    rw [hm]
    split_ifs with hlater
    · exact ⟨_, _, _, becomeFollowerLocked_of_lt hlater⟩
    · exact ⟨_, _, _, rfl⟩
  obtain ⟨t, v, r, rfl⟩ := hm'
  rcases hcases with heq | ⟨_, _, heq⟩
  · exact ⟨_, _, _, congrArg Prod.snd heq⟩
  · exact ⟨_, _, _, congrArg Prod.snd heq⟩

/-- Where the request is accepted its entries are stored, and the log stays as it is elsewhere. -/
theorem handleAppendEntries_log (n : RaftNode) (req : AppendEntriesRequest) :
    (n.handleAppendEntries req).2.log =
        (if (n.handleAppendEntries req).1.success then storeEntries n.log req.entries
          else n.log) ∧
      (n.handleAppendEntries req).2.batchBuffer = n.batchBuffer := by
  obtain ⟨t, v, hfollower⟩ := n.becomeFollowerLocked_eq req.term
  rcases n.handleAppendEntries_cases req with ⟨_, heq⟩ | ⟨_, ⟨_, heq⟩ | ⟨_, hsuccess, m, hm, hcases⟩⟩
  · rw [heq]
    exact ⟨rfl, rfl⟩
  · rw [heq, hfollower]
    exact ⟨rfl, rfl⟩
  · rw [hfollower] at hm
    rw [hsuccess]
    rcases hcases with ⟨_, heq⟩ | ⟨_, heq⟩
    · rw [heq, hm]
      exact ⟨rfl, rfl⟩
    · have hk := applyCommittedEntries_kept
        { m with commitIndex := min req.leaderCommit m.log.lastIndex }
      rw [heq, ← hk.log, ← hk.batchBuffer, hm]
      exact ⟨rfl, rfl⟩

/-- What the received entries do not reach back to stays, and so does what is received again. -/
theorem storeEntries_retains {log : RaftLog} (h : log.Aligned) {entries : List RaftEntry}
    (hsuccessive : RaftLog.Successive entries) {e : RaftEntry} (he : e ∈ log.entries)
    (hkept : RaftLog.ReachesBack entries e → e ∈ entries) :
    e ∈ (storeEntries log entries).entries := by
  cases entries with
  | nil => exact he
  | cons front rest =>
    obtain ⟨prev, hc⟩ := hsuccessive.contiguous
    have hfront : front.index = prev + 1 := hc 0 front rfl
    have hagain (hle : prev < e.index) : e ∈ front :: rest := hkept ⟨front, rfl, by omega⟩
    obtain ⟨k, hk⟩ := List.mem_iff_getElem?.mp he
    have hindex := h k e hk
    rcases storeEntries_cases h hc (List.cons_ne_nil _ _) with
      ⟨hlt, heq⟩ | ⟨hle, _, heq⟩ | ⟨_, _, heq⟩
    · rw [heq]
      exact hagain (by omega)
    · rw [heq]
      by_cases hback : prev < e.index
      · exact List.mem_append_right _ (hagain hback)
      · refine List.mem_append_left _ (List.mem_iff_getElem?.mpr ⟨k, ?_⟩)
        rwa [List.getElem?_take_of_lt (by omega)]
    · rw [heq]
      exact he

/-- An entry of the log is still there after a request that sends it again where it reaches back. -/
theorem handleAppendEntries_retains {n : RaftNode} (h : n.log.Aligned) {req : AppendEntriesRequest}
    (hsuccessive : RaftLog.Successive req.entries) {e : RaftEntry} (he : e ∈ n.log.entries)
    (hkept : n.currentTerm ≤ req.term → prevMatches n.log req = true →
      RaftLog.ReachesBack req.entries e → e ∈ req.entries) :
    e ∈ (n.handleAppendEntries req).2.log.entries := by
  rw [(n.handleAppendEntries_log req).1]
  rcases n.handleAppendEntries_cases req with ⟨_, heq⟩ | ⟨hterm, ⟨_, heq⟩ | ⟨hprev, hsuccess, _⟩⟩
  · rw [heq]
    exact he
  · rw [heq]
    exact he
  · rw [hsuccess, if_pos rfl]
    exact storeEntries_retains h hsuccessive he (hkept hterm hprev)

theorem appendResponse_log (n : RaftNode) (peer : Nat) (entries : List RaftEntry)
    (resp : AppendEntriesResponse) :
    (n.appendResponse peer entries resp).log = n.log ∧
      (n.appendResponse peer entries resp).batchBuffer = n.batchBuffer := by
  rcases n.appendResponse_cases peer entries resp with ⟨_, heq⟩ | ⟨_, _, _, heq⟩
  · obtain ⟨_, _, hfollower⟩ := n.becomeFollowerLocked_eq resp.term
    rw [heq, hfollower]
    exact ⟨rfl, rfl⟩
  · rw [heq]
    exact ⟨rfl, rfl⟩

/-- The calls that neither number nor receive entries. -/
def Call.Quiet : Call → Prop
  | .propose _ | .proposeConfChange _ | .proposeBatch _ | .flushBatch => False
  | .handleAppendEntries _ => False
  | _ => True

theorem serve_quiet {n n' : RaftNode} {c : Call} (hs : n.serve c = some n') (hquiet : c.Quiet) :
    n'.log = n.log ∧ n'.batchBuffer = n.batchBuffer := by
  cases c with
  | becomeFollower term =>
    obtain rfl : n.becomeFollowerLocked term = n' := Option.some.inj hs
    obtain ⟨_, _, heq⟩ := n.becomeFollowerLocked_eq term
    rw [heq]
    exact ⟨rfl, rfl⟩
  | becomeCandidate =>
    obtain rfl : n.becomeCandidateLocked = n' := Option.some.inj hs
    exact ⟨rfl, rfl⟩
  | becomeLeader =>
    obtain rfl : n.becomeLeaderLocked = n' := Option.some.inj hs
    exact ⟨rfl, rfl⟩
  | handleRequestVote req =>
    obtain rfl : (n.handleRequestVote req).2 = n' := Option.some.inj hs
    obtain ⟨_, _, _, heq⟩ := n.handleRequestVote_eq req
    rw [heq]
    exact ⟨rfl, rfl⟩
  | appendResponse peer entries resp =>
    obtain rfl : n.appendResponse peer entries resp = n' := Option.some.inj hs
    exact n.appendResponse_log peer entries resp
  | advanceCommitIndex =>
    obtain rfl : n.advanceCommitIndex = n' := Option.some.inj hs
    obtain ⟨_, heq⟩ := n.advanceCommitIndex_kept
    rw [heq]
    exact ⟨rfl, rfl⟩
  | applyCommittedEntries =>
    obtain rfl : n.applyCommittedEntries = n' := Option.some.inj hs
    have hk := n.applyCommittedEntries_kept
    exact ⟨hk.log.symm, hk.batchBuffer.symm⟩
  | _ => exact absurd hquiet id

/-- The log stays as it is, or takes a proposal, a batch or what another node sends. -/
theorem serve_log_cases {n n' : RaftNode} {c : Call} (hs : n.serve c = some n') :
    n'.log = n.log ∨
    (∃ e : RaftEntry, e.index = n.log.lastIndex + 1 ∧ (Numbers n c → n.log.Ready) ∧
      n'.log = n.log.append e) ∨
    ((Numbers n c → n.log.Ready) ∧ n'.log = n.log.appendAll n.renumberedBatch) ∨
    ∃ req, c = .handleAppendEntries req ∧ RaftLog.Successive req.entries ∧
      n'.log = storeEntries n.log req.entries := by
  cases c with
  | propose entry =>
    obtain rfl : (n.propose entry).2 = n' := Option.some.inj hs
    rcases n.propose_cases entry with ⟨_, heq⟩ | ⟨hleads, e, he, _, heq⟩
    · exact .inl (by rw [heq])
    · exact .inr (.inl ⟨e, by rw [he], fun hok => hok hleads, by rw [heq]; rfl⟩)
  | proposeConfChange cc =>
    obtain rfl : (n.proposeConfChange cc).2 = n' := Option.some.inj hs
    rcases n.proposeConfChange_cases cc with ⟨_, heq⟩ | ⟨hleads, e, he, _, heq⟩
    · exact .inl (by rw [heq])
    · exact .inr (.inl ⟨e, by rw [he], fun hok => hok hleads, by rw [heq]; rfl⟩)
  | proposeBatch entry =>
    obtain rfl : (n.proposeBatch entry).2 = n' := Option.some.inj hs
    rcases n.proposeBatch_cases entry with ⟨_, heq⟩ | ⟨_, _, _, _, heq⟩
    · exact .inl (by rw [heq])
    · exact .inl (by rw [heq])
  | flushBatch =>
    obtain rfl : n.flushBatch = n' := Option.some.inj hs
    rcases n.flushBatch_cases with ⟨_, heq⟩ | ⟨hne, heq⟩
    · exact .inl (by rw [heq])
    · exact .inr (.inr (.inl ⟨fun hok => hok hne, by rw [heq]⟩))
  | handleAppendEntries req =>
    obtain ⟨hsuccessive, hs⟩ := Option.ite_none_right_eq_some.mp hs
    obtain rfl : (n.handleAppendEntries req).2 = n' := Option.some.inj hs
    have hlog := (n.handleAppendEntries_log req).1
    split_ifs at hlog
    · exact .inr (.inr (.inr ⟨req, rfl, hsuccessive, hlog⟩))
    · exact .inl hlog
  | _ => exact .inl (serve_quiet hs trivial).1

/-- No call takes the log out of step, where indices are given out only on a ready log. -/
theorem serve_based {n n' : RaftNode} {c : Call} {base : Nat} (h : n.log.Based base)
    (hok : Numbers n c) (hs : n.serve c = some n') : n'.log.Based base := by
  rcases serve_log_cases hs with
    heq | ⟨e, he, hready, heq⟩ | ⟨hready, heq⟩ | ⟨req, _, hsuccessive, heq⟩
  · rwa [heq]
  · rw [heq]
    exact h.append (hready hok) he
  · rw [heq]
    exact h.appendAll (hready hok) n.renumberedBatch_contiguous
  · obtain ⟨prev, hc⟩ := hsuccessive.contiguous
    rw [heq]
    exact h.storeEntries hc

theorem storeEntries_consecutive {log : RaftLog} (h : log.Consecutive) {first : Nat}
    {entries : List RaftEntry} (hc : RaftLog.Contiguous first entries) :
    (storeEntries log entries).Consecutive := by
  cases entries with
  | nil => exact h
  | cons front rest => exact (h.truncateTo _).appendAll hc

/-- Only a request takes entries out of the log. -/
theorem serve_retains {n n' : RaftNode} {c : Call} (hs : n.serve c = some n')
    (hrequest : ∀ req, c ≠ .handleAppendEntries req) {e : RaftEntry} (he : e ∈ n.log.entries) :
    e ∈ n'.log.entries := by
  rcases serve_log_cases hs with heq | ⟨_, _, _, heq⟩ | ⟨_, heq⟩ | ⟨req, hc, _⟩
  · rwa [heq]
  · rw [heq]
    exact List.mem_append_left _ he
  · rw [heq]
    unfold RaftLog.appendAll
    split
    · exact he
    · dsimp only
      split_ifs
      · exact he
      · exact List.mem_append_left _ he
  · exact absurd hc (hrequest req)

/-- The indices in the log follow each other whatever is called, also on a log that is not ready. -/
theorem serve_consecutive {n n' : RaftNode} {c : Call} (h : n.log.Consecutive)
    (hs : n.serve c = some n') : n'.log.Consecutive := by
  rcases serve_log_cases hs with heq | ⟨e, he, _, heq⟩ | ⟨_, heq⟩ | ⟨req, _, hsuccessive, heq⟩
  · rwa [heq]
  · rw [heq]
    exact h.append he
  · rw [heq]
    exact h.appendAll n.renumberedBatch_contiguous
  · obtain ⟨prev, hc⟩ := hsuccessive.contiguous
    rw [heq]
    exact storeEntries_consecutive h hc

/-- The call moves the commit index or applies what it has left behind. -/
def AppliesMore (n : RaftNode) : Call → Prop
  | .applyCommittedEntries => n.lastApplied < n.commitIndex
  | .handleAppendEntries req => n.commitIndex < req.leaderCommit
  | _ => False

instance (n : RaftNode) (c : Call) : Decidable (n.AppliesMore c) := by
  unfold AppliesMore
  split <;> infer_instance

/-- Only by applying committed entries does a call change the peers or deliver anything, and a
follower applies no more than it has. -/
theorem after_cases (n : RaftNode) (c : Call) :
    ∃ m : RaftNode,
      (n.after c = m ∨ n.after c = m.applyCommittedEntries ∧
        (c = .applyCommittedEntries ∧ m = n ∨ n.AppliesMore c ∧ m.commitIndex ≤ m.log.lastIndex)) ∧
      m.nodeId = n.nodeId ∧ m.peers = n.peers ∧ m.readyCalls = n.readyCalls ∧
      m.lastApplied = n.lastApplied := by
  cases c with
  | becomeFollower term =>
    obtain ⟨_, _, heq⟩ := n.becomeFollowerLocked_eq term
    exact ⟨_, .inl heq, rfl, rfl, rfl, rfl⟩
  | becomeCandidate => exact ⟨_, .inl rfl, rfl, rfl, rfl, rfl⟩
  | becomeLeader => exact ⟨_, .inl rfl, rfl, rfl, rfl, rfl⟩
  | propose entry =>
    rcases n.propose_cases entry with ⟨_, heq⟩ | ⟨_, _, _, _, heq⟩
    · exact ⟨_, .inl heq, rfl, rfl, rfl, rfl⟩
    · exact ⟨_, .inl heq, rfl, rfl, rfl, rfl⟩
  | proposeConfChange cc =>
    rcases n.proposeConfChange_cases cc with ⟨_, heq⟩ | ⟨_, _, _, _, heq⟩
    · exact ⟨_, .inl heq, rfl, rfl, rfl, rfl⟩
    · exact ⟨_, .inl heq, rfl, rfl, rfl, rfl⟩
  | proposeBatch entry =>
    rcases n.proposeBatch_cases entry with ⟨_, heq⟩ | ⟨_, _, _, _, heq⟩
    · exact ⟨_, .inl heq, rfl, rfl, rfl, rfl⟩
    · exact ⟨_, .inl heq, rfl, rfl, rfl, rfl⟩
  | flushBatch =>
    rcases n.flushBatch_cases with ⟨_, heq⟩ | ⟨_, heq⟩
    · exact ⟨_, .inl heq, rfl, rfl, rfl, rfl⟩
    · exact ⟨_, .inl heq, rfl, rfl, rfl, rfl⟩
  | handleRequestVote req =>
    obtain ⟨_, _, _, heq⟩ := n.handleRequestVote_eq req
    exact ⟨_, .inl heq, rfl, rfl, rfl, rfl⟩
  | handleAppendEntries req =>
    obtain ⟨_, _, hfollower⟩ := n.becomeFollowerLocked_eq req.term
    rcases n.handleAppendEntries_cases req with
      ⟨_, heq⟩ | ⟨_, ⟨_, heq⟩ | ⟨_, _, m, hm, ⟨_, heq⟩ | ⟨hlater, heq⟩⟩⟩
    · exact ⟨_, .inl (congrArg Prod.snd heq), rfl, rfl, rfl, rfl⟩
    · rw [hfollower] at heq
      exact ⟨_, .inl (congrArg Prod.snd heq), rfl, rfl, rfl, rfl⟩
    · rw [hfollower] at hm
      exact ⟨_, .inl heq, by rw [hm], by rw [hm], by rw [hm], by rw [hm]⟩
    · rw [hfollower] at hm
      exact ⟨_, .inr ⟨heq, .inr ⟨hlater, min_le_right _ _⟩⟩, by rw [hm], by rw [hm], by rw [hm],
        by rw [hm]⟩
  | appendResponse peer entries resp =>
    obtain ⟨_, _, hfollower⟩ := n.becomeFollowerLocked_eq resp.term
    rcases n.appendResponse_cases peer entries resp with ⟨_, heq⟩ | ⟨_, _, _, heq⟩
    · exact ⟨_, .inl (heq.trans hfollower), rfl, rfl, rfl, rfl⟩
    · exact ⟨_, .inl heq, rfl, rfl, rfl, rfl⟩
  | advanceCommitIndex =>
    obtain ⟨_, heq⟩ := n.advanceCommitIndex_kept
    exact ⟨_, .inl heq, rfl, rfl, rfl, rfl⟩
  | applyCommittedEntries => exact ⟨n, .inr ⟨rfl, .inl ⟨rfl, rfl⟩⟩, rfl, rfl, rfl, rfl⟩

theorem delivered_of_not_appliesMore {n : RaftNode} {c : Call} (h : ¬ n.AppliesMore c) :
    (n.after c).delivered = n.delivered := by
  obtain ⟨m, heq | ⟨heq, ⟨rfl, rfl⟩ | ⟨hmore, _⟩⟩, _, _, hcalls, _⟩ := n.after_cases c
  · rw [heq, delivered, delivered, hcalls]
  · have hnone : ¬ m.commitIndex > m.lastApplied := h
    rw [heq, (applyCommittedEntries_delivered m).1, if_neg hnone, List.append_nil]
  · exact absurd hmore h

/-- What a call hands to `ready_handler_` stands in the log that the call leaves. -/
theorem serve_readyCalls {n n' : RaftNode} {c : Call} (hs : n.serve c = some n') :
    ∃ calls, n'.readyCalls = n.readyCalls ++ calls ∧ ∀ e ∈ calls.flatten, e ∈ n'.log.entries := by
  rw [serve_eq_after hs]
  obtain ⟨m, heq | ⟨heq, _⟩, _, _, hcalls, _⟩ := n.after_cases c
  · rw [heq]
    exact ⟨[], by rw [hcalls, List.append_nil], by simp⟩
  · obtain ⟨calls, hmore, hmem⟩ := m.applyCommittedEntries_readyCalls
    rw [heq, ← m.applyCommittedEntries_kept.log, ← hcalls]
    exact ⟨calls, hmore, hmem⟩

end RaftNode
end MyEtcd
