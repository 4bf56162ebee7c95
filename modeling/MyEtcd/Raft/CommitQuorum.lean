import Mathlib.Data.List.GetD
import MyEtcd.Library.Execution
import MyEtcd.Library.Majority
import MyEtcd.Library.OrderStatistic
import MyEtcd.Raft.Transitions

/-! Which nodes a commit is counted over.
`AdvanceCommitIndex` counts the values of `match_index_`, a map in which proposals also record the
leader itself. The list it sorts is compared here with the set of distinct members. -/
namespace MyEtcd
open Library

namespace RaftNode

/-- The distinct nodes of the configuration in use: the peers and the node itself. -/
def members (n : RaftNode) : Finset Nat := insert n.nodeId n.peers.keys.toFinset

/-- `p` holds index `N` by the leader's bookkeeping. -/
def Holds (n : RaftNode) (N p : Nat) : Prop :=
  if p = n.nodeId then N ≤ n.log.lastIndex else N ≤ n.matchIndex.getD p 0

instance (n : RaftNode) (N p : Nat) : Decidable (n.Holds N p) := by
  unfold Holds
  infer_instance

def holders (n : RaftNode) (N : Nat) : Finset Nat := n.members.filter (n.Holds N)

/-- A strict majority of the distinct members holds `N`, and its entry has the current term. -/
def CommitQuorum (n : RaftNode) (N : Nat) : Prop :=
  Majority n.members (n.holders N) ∧ ∃ e, n.log.entryAt N = some e ∧ e.term = n.currentTerm

/-- How many values of the list sorted by `AdvanceCommitIndex` reach `N`. -/
def reaching (n : RaftNode) (N : Nat) : Nat := n.matchIndices.countP (N ≤ ·)

/-- The leader's own entry in `match_index_` reaches `i`, and the members that hold `i` are a majority
or one short of it. -/
def OwnEntryReaches (n : RaftNode) (i : Nat) : Prop :=
  i ≤ n.matchIndex.getD n.nodeId 0 ∧ n.majority ≤ (n.holders i).card + 1

instance (n : RaftNode) (i : Nat) : Decidable (n.OwnEntryReaches i) :=
  inferInstanceAs (Decidable (_ ∧ _))

/-- The largest index that the leader's own entry reaches with at most one member missing is not
committed yet, has an entry of the current term, and does miss one. -/
@[mk_iff]
structure SelfCountedTwice (n : RaftNode) (i : Nat) : Prop where
  leader : n.state = .leader
  ownEntry : n.OwnEntryReaches i
  largest : ∀ j ≤ n.matchIndex.getD n.nodeId 0, n.OwnEntryReaches j → j ≤ i
  fresh : n.commitIndex < i
  term : n.log.termAt i = n.currentTerm
  short : 2 * (n.holders i).card ≤ n.members.card

instance (n : RaftNode) (i : Nat) : Decidable (n.SelfCountedTwice i) :=
  decidable_of_iff _ (selfCountedTwice_iff n i).symm

instance (n : RaftNode) : Decidable (∃ i, n.SelfCountedTwice i) :=
  decidable_of_iff (∃ i < n.matchIndex.getD n.nodeId 0 + 1, n.SelfCountedTwice i)
    ⟨fun ⟨i, _, h⟩ => ⟨i, h⟩, fun ⟨i, h⟩ => ⟨i, Nat.lt_succ_of_le h.ownEntry.1, h⟩⟩

theorem members_card_le (n : RaftNode) : n.members.card ≤ n.peers.size + 1 := by
  calc n.members.card ≤ n.peers.keys.toFinset.card + 1 := Finset.card_insert_le _ _
    _ ≤ n.peers.size + 1 := by
      simpa using List.toFinset_card_le n.peers.keys

theorem advanceCommitIndex_cases (n : RaftNode) :
    n.advanceCommitIndex = n ∨
    ∃ N, n.advanceCommitIndex = { n with commitIndex := N } ∧ n.state = .leader ∧
      n.commitIndex < N ∧ n.log.termAt N = n.currentTerm ∧
      n.majority ≤ n.reaching N ∧ n.reaching (N + 1) < n.majority := by
  unfold advanceCommitIndex
  split_ifs with hstate
  · exact .inl rfl
  dsimp only
  split_ifs with hlen hraise
  · refine .inr ⟨_, rfl, not_ne_iff.mp hstate, hraise.1, hraise.2, ?_⟩
    have hpos : 0 < n.majority := by simp [majority]
    have hk : n.majority - 1 < (n.matchIndices.insertionSort (· ≥ ·)).length := by omega
    rw [List.getD_eq_getElem _ _ hk]
    have hle := (le_sorted_iff n.matchIndices _ hk).mp le_rfl
    have hlt := mt (le_sorted_iff n.matchIndices _ hk).mpr
      (not_le.mpr (Nat.lt_add_one ((n.matchIndices.insertionSort (· ≥ ·))[n.majority - 1])))
    unfold reaching
    omega
  · exact .inl rfl
  · exact .inl rfl

/-- The new commit index is one at which an entry of the current term stands. -/
theorem advanceCommitIndex_within {n : RaftNode} (h : n.log.Aligned) (hterm : 0 < n.currentTerm)
    (hcommit : n.commitIndex ≤ n.log.lastIndex) :
    n.advanceCommitIndex.commitIndex ≤ n.log.lastIndex := by
  rcases n.advanceCommitIndex_cases with heq | ⟨N, heq, _, _, hset, _⟩
  · rwa [heq]
  · obtain ⟨e, he, _⟩ := RaftLog.entryAt_of_termAt (hset ▸ hterm.ne')
    rw [heq]
    exact (h.entryAt_lastIndex he).1

theorem advanceCommitIndex_of_chosen {n : RaftNode} {N : Nat} (hstate : n.state = .leader)
    (hfresh : n.commitIndex < N) (hterm : n.log.termAt N = n.currentTerm)
    (hreach : n.majority ≤ n.reaching N) (htop : n.reaching (N + 1) < n.majority) :
    n.advanceCommitIndex = { n with commitIndex := N } := by
  have hlen : n.majority ≤ (n.matchIndices.insertionSort (· ≥ ·)).length := by
    rw [List.length_insertionSort]
    exact hreach.trans List.countP_le_length
  have hpos : 0 < n.majority := by simp [majority]
  have hk : n.majority - 1 < (n.matchIndices.insertionSort (· ≥ ·)).length := by omega
  have hN : (n.matchIndices.insertionSort (· ≥ ·)).getD (n.majority - 1) 0 = N := by
    rw [List.getD_eq_getElem _ _ hk]
    refine Nat.le_antisymm ?_ ((le_sorted_iff _ _ hk).mpr (by unfold reaching at hreach; omega))
    refine Nat.lt_succ_iff.mp (not_le.mp fun hle => ?_)
    have := (le_sorted_iff _ _ hk).mp hle
    unfold reaching at htop
    simp only [Nat.succ_eq_add_one] at this
    omega
  unfold advanceCommitIndex
  rw [if_neg (not_not.mpr hstate)]
  dsimp only
  rw [if_pos hlen, hN, if_pos ⟨hfresh, hterm⟩]

/-- `match_index_` has a value for every peer and for nobody else but the leader. -/
def Tracked (n : RaftNode) : Prop :=
  n.state = .leader →
    (∀ p ∈ n.peers.keys, p ∈ n.matchIndex.keys) ∧
    ∀ p ∈ n.matchIndex.keys, p ∈ n.peers.keys ∨ p = n.nodeId

theorem holders_antitone (n : RaftNode) {i j : Nat} (h : i ≤ j) : n.holders j ⊆ n.holders i := by
  intro p hp
  obtain ⟨hmem, hholds⟩ := Finset.mem_filter.mp hp
  refine Finset.mem_filter.mpr ⟨hmem, ?_⟩
  unfold Holds at hholds ⊢
  split_ifs at hholds ⊢
  · exact h.trans hholds
  · exact h.trans hholds

theorem reaching_antitone (n : RaftNode) {i j : Nat} (h : i ≤ j) : n.reaching j ≤ n.reaching i := by
  refine List.countP_mono_left fun v _ hv => ?_
  exact decide_eq_true (h.trans (of_decide_eq_true hv))

/-- The list counts each holder once, and the leader once more where its own entry reaches. -/
theorem reaching_eq {n : RaftNode} (h : n.Tracked) (hstate : n.state = .leader) {i : Nat}
    (hi : 0 < i) : n.reaching i = (n.holders i).card +
      if i ≤ n.matchIndex.getD n.nodeId 0 then 1 else 0 := by
  obtain ⟨hpeers, hkeys⟩ := h hstate
  -- the keys of the map that reach `i`: the holders among the peers, and perhaps the leader
  have hothers : (n.matchIndex.keys.toFinset.filter fun k => i ≤ n.matchIndex.getD k 0).erase
      n.nodeId = (n.holders i).erase n.nodeId := by
    ext k
    simp only [Finset.mem_erase, Finset.mem_filter, List.mem_toFinset, holders, members,
      Finset.mem_insert, Holds]
    refine and_congr_right fun hne => ?_
    rw [if_neg hne, or_iff_right hne]
    exact and_congr_left fun _ => ⟨fun hk => (hkeys k hk).resolve_right hne, hpeers k⟩
  have hself : n.nodeId ∈ n.matchIndex.keys.toFinset.filter (fun k => i ≤ n.matchIndex.getD k 0) ↔
      i ≤ n.matchIndex.getD n.nodeId 0 := by
    rw [Finset.mem_filter, List.mem_toFinset, and_iff_right_iff_imp]
    intro hle
    rw [OrderedMap.mem_keys_iff]
    by_contra hnone
    rw [OrderedMap.getD, Option.not_isSome_iff_eq_none.mp hnone] at hle
    exact absurd hle (not_le.mpr hi)
  have hown : n.nodeId ∈ n.holders i ↔ i ≤ n.log.lastIndex := by simp [holders, members, Holds]
  have hvalues := n.matchIndex.countP_values (i ≤ ·) 0
  simp only [decide_eq_true_eq] at hvalues
  have hreach : n.reaching i = n.matchIndex.values.countP (i ≤ ·) +
      if i ≤ n.log.lastIndex then 1 else 0 := by
    simp [reaching, matchIndices, List.countP_cons]
  have hcount (s : Finset Nat) : s.card = (s.erase n.nodeId).card +
      if n.nodeId ∈ s then 1 else 0 := by
    split_ifs with hmem
    · exact (Finset.card_erase_add_one hmem).symm
    · rw [Finset.erase_eq_of_notMem hmem, Nat.add_zero]
  have hleft := hcount (n.matchIndex.keys.toFinset.filter fun k => i ≤ n.matchIndex.getD k 0)
  have hright := hcount (n.holders i)
  simp only [hself] at hleft
  simp only [hown] at hright
  rw [hothers] at hleft
  omega

/-- What can happen to a leader's bookkeeping after its election. -/
inductive LeaderOp where
  | propose (entry : RaftEntry)
  | proposeBatch (entry : RaftEntry)
  | flushBatch
  | proposeConfChange (cc : ConfChange)
  | applyConfChange (cc : ConfChange)
  | appendResponse (peer : Nat) (entries : List RaftEntry) (resp : AppendEntriesResponse)
  | advanceCommitIndex
  | applyCommittedEntries

/-- One operation. Answers are processed for the peers `BroadcastHeartbeat` walks over. -/
def leaderStep (n : RaftNode) : LeaderOp → Option RaftNode
  | .propose entry => some (n.propose entry).2
  | .proposeBatch entry => some (n.proposeBatch entry).2
  | .flushBatch => some n.flushBatch
  | .proposeConfChange cc => some (n.proposeConfChange cc).2
  | .applyConfChange cc => some (n.applyConfChange cc)
  | .appendResponse peer entries resp =>
    if peer ∈ n.peers.keys then some (n.appendResponse peer entries resp) else none
  | .advanceCommitIndex => some n.advanceCommitIndex
  | .applyCommittedEntries => some n.applyCommittedEntries

theorem tracked_becomeLeaderLocked (n : RaftNode) : n.becomeLeaderLocked.Tracked := by
  intro _
  refine ⟨fun p hp => ?_, fun p hp => .inl ?_⟩
  · exact (OrderedMap.mem_keys_foldl_insert n.peers.keys 0 p).mpr hp
  · exact (OrderedMap.mem_keys_foldl_insert n.peers.keys 0 p).mp hp

/-- Recording a value for the leader itself or for a peer keeps the map tracked. -/
theorem tracked_insert {n : RaftNode} (h : n.Tracked) {k : Nat} (v : Nat)
    (hk : k ∈ n.peers.keys ∨ k = n.nodeId) :
    Tracked { n with matchIndex := n.matchIndex.insert k v } := by
  intro hstate
  refine ⟨fun p hp => ?_, fun p hp => ?_⟩
  · exact (OrderedMap.mem_keys_insert _ _ _ _).mpr (.inr ((h hstate).1 p hp))
  · rcases (OrderedMap.mem_keys_insert _ _ _ _).mp hp with rfl | hp
    · exact hk
    · exact (h hstate).2 p hp

private theorem tracked_becomeFollowerLocked (n : RaftNode) (term : Nat) :
    (n.becomeFollowerLocked term).Tracked := by
  intro hstate
  cases hstate

theorem tracked_appendResponse {n : RaftNode} (h : n.Tracked) {peer : Nat}
    (hp : peer ∈ n.peers.keys) (entries : List RaftEntry) (resp : AppendEntriesResponse) :
    (n.appendResponse peer entries resp).Tracked := by
  unfold appendResponse
  split_ifs
  · exact tracked_becomeFollowerLocked n resp.term
  · split
    · exact tracked_insert h _ (.inl hp)
    · exact tracked_insert h _ (.inl hp)
  · exact h

theorem tracked_applyConfChange {n : RaftNode} (h : n.Tracked) (cc : ConfChange) :
    (n.applyConfChange cc).Tracked := by
  rcases n.applyConfChange_cases cc with heq | ⟨_, heq⟩ | ⟨_, heq⟩
  · rwa [heq]
  · rw [heq]
    intro hstate
    change n.state = .leader at hstate
    simp only [isLeader, hstate, decide_true, if_true]
    refine ⟨fun p hp => ?_, fun p hp => ?_⟩
    · exact (OrderedMap.mem_keys_insert _ _ _ _).mpr
        (((OrderedMap.mem_keys_insert _ _ _ _).mp hp).imp id ((h hstate).1 p))
    · rcases (OrderedMap.mem_keys_insert _ _ _ _).mp hp with rfl | hp
      · exact .inl ((OrderedMap.mem_keys_insert _ _ _ _).mpr (.inl rfl))
      · exact ((h hstate).2 p hp).imp
          (fun hp => (OrderedMap.mem_keys_insert _ _ _ _).mpr (.inr hp)) id
  · rw [heq]
    intro hstate
    refine ⟨fun p hp => ?_, fun p hp => ?_⟩
    · obtain ⟨hne, hp⟩ := (OrderedMap.mem_keys_erase _ _ _).mp hp
      exact (OrderedMap.mem_keys_erase _ _ _).mpr ⟨hne, (h hstate).1 p hp⟩
    · obtain ⟨hne, hp⟩ := (OrderedMap.mem_keys_erase _ _ _).mp hp
      exact ((h hstate).2 p hp).imp (fun hp => (OrderedMap.mem_keys_erase _ _ _).mpr ⟨hne, hp⟩) id

/-- One operation keeps the map tracked and the term positive. -/
theorem tracked_leaderStep {n n' : RaftNode} {op : LeaderOp}
    (h : n.Tracked ∧ 0 < n.currentTerm) (hs : leaderStep n op = some n') :
    n'.Tracked ∧ 0 < n'.currentTerm := by
  obtain ⟨htracked, hterm⟩ := h
  cases op with
  | propose entry =>
    obtain rfl := Option.some.inj hs
    rcases n.propose_cases entry with ⟨_, heq⟩ | ⟨_, _, _, _, heq⟩
    · exact heq.symm ▸ ⟨htracked, hterm⟩
    · exact heq.symm ▸ ⟨tracked_insert htracked _ (.inr rfl), hterm⟩
  | proposeBatch entry =>
    obtain rfl := Option.some.inj hs
    rcases n.proposeBatch_cases entry with ⟨_, heq⟩ | ⟨_, _, _, _, heq⟩
    · exact heq.symm ▸ ⟨htracked, hterm⟩
    · exact heq.symm ▸ ⟨htracked, hterm⟩
  | flushBatch =>
    obtain rfl := Option.some.inj hs
    rcases n.flushBatch_cases with ⟨_, heq⟩ | ⟨_, heq⟩
    · exact heq.symm ▸ ⟨htracked, hterm⟩
    · exact heq.symm ▸ ⟨tracked_insert htracked _ (.inr rfl), hterm⟩
  | proposeConfChange cc =>
    obtain rfl := Option.some.inj hs
    rcases n.proposeConfChange_cases cc with ⟨_, heq⟩ | ⟨_, _, _, _, heq⟩
    · exact heq.symm ▸ ⟨htracked, hterm⟩
    · exact heq.symm ▸ ⟨tracked_insert htracked _ (.inr rfl), hterm⟩
  | applyConfChange cc =>
    obtain rfl := Option.some.inj hs
    exact ⟨tracked_applyConfChange htracked cc, (n.applyConfChange_kept cc).currentTerm ▸ hterm⟩
  | appendResponse peer entries resp =>
    rw [leaderStep] at hs
    split_ifs at hs with hp
    obtain rfl := Option.some.inj hs
    refine ⟨tracked_appendResponse htracked hp entries resp, ?_⟩
    unfold appendResponse becomeFollowerLocked
    split_ifs with hlarger
    · exact Nat.zero_lt_of_lt hlarger
    · split <;> exact hterm
    · exact hterm
  | advanceCommitIndex =>
    obtain rfl := Option.some.inj hs
    rcases n.advanceCommitIndex_cases with heq | ⟨N, heq, _⟩
    · exact heq.symm ▸ ⟨htracked, hterm⟩
    · exact heq.symm ▸ ⟨htracked, hterm⟩
  | applyCommittedEntries =>
    obtain rfl := Option.some.inj hs
    exact applyCommittedEntries_induction (P := fun m => m.Tracked ∧ 0 < m.currentTerm)
      ⟨htracked, hterm⟩
      (fun m cc hm => ⟨tracked_applyConfChange hm.1 cc, (m.applyConfChange_kept cc).currentTerm ▸ hm.2⟩)
      (fun m _ _ _ hm => hm)

/-- States a leader can be in after its election, whatever configuration and log it won with. -/
def LeaderRun (start n : RaftNode) : Prop :=
  Run leaderStep (fun _ _ => True) start.becomeLeaderLocked n

theorem LeaderRun.tracked {start n : RaftNode} (h : LeaderRun start n)
    (hterm : 0 < start.currentTerm) : n.Tracked ∧ 0 < n.currentTerm :=
  Run.invariant (P := fun m => m.Tracked ∧ 0 < m.currentTerm)
    (fun hm _ hs => tracked_leaderStep hm hs) h ⟨tracked_becomeLeaderLocked start, hterm⟩

/-- A commit that the doubly counted leader does not decide is held by a real majority. -/
theorem commitQuorum_of_chosen {n : RaftNode} {N : Nat} (h : n.Tracked)
    (hterm : 0 < n.currentTerm) (hstate : n.state = .leader) (hfresh : n.commitIndex < N)
    (hentry : n.log.termAt N = n.currentTerm)
    (hchosen : n.majority ≤ n.reaching N ∧ n.reaching (N + 1) < n.majority)
    (hself : ¬ n.SelfCountedTwice N) : n.CommitQuorum N := by
  have hmembers := n.members_card_le
  have hmajority : n.majority = (n.peers.size + 1) / 2 + 1 := rfl
  have hreach := reaching_eq h hstate (Nat.zero_lt_of_lt hfresh)
  refine ⟨⟨Finset.filter_subset _ _, not_le.mp fun hsmall => hself ?_⟩, ?_⟩
  · have hown : N ≤ n.matchIndex.getD n.nodeId 0 := by
      by_contra hown
      rw [if_neg hown] at hreach
      omega
    rw [if_pos hown] at hreach
    refine ⟨hstate, ⟨hown, by omega⟩, fun j _ hj => ?_, hfresh, hentry, hsmall⟩
    -- a larger index would have been picked
    by_contra hlater
    have hmore := reaching_eq h hstate (Nat.zero_lt_of_lt (not_le.mp hlater))
    rw [if_pos hj.1] at hmore
    have hsmaller : n.reaching j ≤ n.reaching (N + 1) := n.reaching_antitone (not_le.mp hlater)
    have := hj.2
    omega
  · have hterm : n.log.termAt N ≠ 0 := by omega
    obtain ⟨e, he, het⟩ := RaftLog.entryAt_of_termAt hterm
    exact ⟨e, he, het.trans hentry⟩

/-- The index that the leader's own entry decides is the one that gets committed. -/
theorem SelfCountedTwice.advanceCommitIndex {n : RaftNode} {i : Nat} (h : n.SelfCountedTwice i)
    (htracked : n.Tracked) : n.advanceCommitIndex = { n with commitIndex := i } := by
  have hpos := Nat.zero_lt_of_lt h.fresh
  have hreach := reaching_eq htracked h.leader hpos
  rw [if_pos h.ownEntry.1] at hreach
  have henough := h.ownEntry.2
  refine advanceCommitIndex_of_chosen h.leader h.fresh h.term (by omega) (not_le.mp fun hmore => ?_)
  have hnext := @reaching_eq n htracked h.leader (i + 1) (Nat.succ_pos i)
  by_cases hown : i + 1 ≤ n.matchIndex.getD n.nodeId 0
  · rw [if_pos hown] at hnext
    exact absurd (h.largest (i + 1) hown ⟨hown, by omega⟩) (Nat.not_succ_le_self i)
  · rw [if_neg hown] at hnext
    have hfewer := Finset.card_le_card (n.holders_antitone (Nat.le_add_right i 1))
    have hmembers := n.members_card_le
    have hmajority : n.majority = (n.peers.size + 1) / 2 + 1 := rfl
    have := h.short
    omega

/-- `AdvanceCommitIndex` commits on a majority of the distinct members, at an entry of the current
term, exactly when the leader's second vote for itself does not decide. -/
theorem commit_quorum_iff (start n : RaftNode) (hterm : 0 < start.currentTerm)
    (h : LeaderRun start n) :
    (n.advanceCommitIndex.commitIndex ≠ n.commitIndex →
      n.CommitQuorum n.advanceCommitIndex.commitIndex) ↔ ¬ ∃ i, n.SelfCountedTwice i := by
  obtain ⟨htracked, hpos⟩ := h.tracked hterm
  constructor
  · rintro hquorum ⟨i, hi⟩
    rw [hi.advanceCommitIndex htracked] at hquorum
    have hlarge : n.members.card < 2 * (n.holders i).card := (hquorum hi.fresh.ne').1.large
    exact absurd hi.short (not_le.mpr hlarge)
  · intro hnone hchanged
    rcases n.advanceCommitIndex_cases with heq | ⟨N, heq, hstate, hfresh, hentry, hchosen⟩
    · exact absurd (congrArg RaftNode.commitIndex heq) hchanged
    · rw [heq]
      exact commitQuorum_of_chosen htracked hpos hstate hfresh hentry hchosen
        (fun hself => hnone ⟨N, hself⟩)

def elected : RaftNode :=
  { nodeId := 1, currentTerm := 1, peers := (OrderedMap.insert ∅ 2 ()).insert 3 () }

def proposed : RaftNode := (elected.becomeLeaderLocked.propose {}).2

theorem proposed_run : LeaderRun elected proposed :=
  Run.start.next (a := .propose {}) trivial rfl

/-- An entry that only the leader holds is committed in a cluster of three. -/
theorem commit_without_quorum : ¬ ∀ start n : RaftNode, 0 < start.currentTerm →
    LeaderRun start n → n.advanceCommitIndex.commitIndex ≠ n.commitIndex →
      n.CommitQuorum n.advanceCommitIndex.commitIndex := by
  intro h
  have hquorum := h elected proposed (by decide) proposed_run (by decide)
  have hlarge : proposed.members.card < 2 * (proposed.holders 1).card := hquorum.1.large
  exact absurd hlarge (by decide)

def replicated : RaftNode :=
  proposed.appendResponse 2 [{ term := 1, index := 1 }]
    { term := 1, success := true, lastLogIndex := 1 }

/-- It is committed on two of three members. -/
theorem commit_quorum_iff_elected : LeaderRun elected replicated ∧
    replicated.advanceCommitIndex.commitIndex = 1 ∧ replicated.CommitQuorum 1 := by
  have hrun : LeaderRun elected replicated :=
    proposed_run.next (a := .appendResponse 2 [{ term := 1, index := 1 }]
      { term := 1, success := true, lastLogIndex := 1 }) trivial rfl
  have hiff := commit_quorum_iff elected replicated (by decide) hrun
  exact ⟨hrun, by decide, hiff.mpr (by decide) (by decide)⟩

end RaftNode
end MyEtcd
