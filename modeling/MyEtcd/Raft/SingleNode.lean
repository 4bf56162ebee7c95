import MyEtcd.Raft.CommitQuorum
import MyEtcd.Raft.Proposals

/-! A node without peers: everything it accepts is committed and delivered by the next round of its
leader's loop. -/
namespace MyEtcd
open Library

namespace RaftLog

theorem Whole.slice {log : RaftLog} (h : log.Whole) {k m : Nat} (hkm : k ≤ m)
    (hm : m ≤ log.entries.length) : log.slice (k + 1) (m + 1) = (log.entries.take m).drop k := by
  have hlast := h.aligned.lastIndexUnsafe_succ (h.first ▸ Nat.one_pos)
  rw [h.first] at hlast
  have hstart : (if k + 1 < log.firstIndex then log.firstIndex else k + 1) = k + 1 :=
    if_neg (by rw [h.first]; omega)
  have hstop : (if m + 1 > log.lastIndexUnsafe + 1 then log.lastIndexUnsafe + 1 else m + 1) =
      m + 1 := if_neg (by omega)
  unfold RaftLog.slice
  dsimp only
  rw [hstart, hstop, h.first, Nat.add_sub_cancel, Nat.add_sub_cancel]
  split_ifs with hnone
  · refine (List.drop_eq_nil_of_le ?_).symm
    rw [List.length_take]
    omega
  · rfl

end RaftLog

def RaftEntry.command (e : RaftEntry) : RaftEntry := { e with term := 0, index := 0 }

namespace RaftNode

/-- What happens before a node without peers takes office: its term moves, and it votes. -/
def Canvassing (_ : RaftNode) : Call → Prop
  | .becomeFollower _ | .becomeCandidate | .handleRequestVote _ => True
  | _ => False

/-- A node that has no peers and has not led yet. -/
structure Idle (n : RaftNode) : Prop where
  peers : n.peers = ∅
  log : n.log = {}
  commitIndex : n.commitIndex = 0
  lastApplied : n.lastApplied = 0
  readyCalls : n.readyCalls = []
  batchBuffer : n.batchBuffer = []

theorem Idle.ofConfig {config : ClusterConfig}
    (h : ∀ id ∈ config.peerAddresses.keys, id = config.nodeId) : Idle (ofConfig config) := by
  have hfold (l : List Nat) (hl : ∀ id ∈ l, id = config.nodeId) (peers : OrderedMap Nat Unit) :
      l.foldl (fun peers id => if id ≠ config.nodeId then peers.insert id () else peers) peers =
        peers := by
    induction l with
    | nil => rfl
    | cons id rest ih =>
      rw [List.foldl_cons, if_neg (not_not.mpr (hl id List.mem_cons_self))]
      exact ih fun id' hid => hl id' (List.mem_cons_of_mem _ hid)
  exact ⟨hfold _ h ∅, rfl, rfl, rfl, rfl, rfl⟩

theorem Idle.after {n : RaftNode} (h : Idle n) {c : Call} (hok : Canvassing n c) :
    Idle (n.after c) := by
  cases c with
  | becomeFollower term =>
    obtain ⟨_, _, heq⟩ := n.becomeFollowerLocked_eq term
    rw [RaftNode.after, heq]
    exact ⟨h.peers, h.log, h.commitIndex, h.lastApplied, h.readyCalls, h.batchBuffer⟩
  | becomeCandidate =>
    exact ⟨h.peers, h.log, h.commitIndex, h.lastApplied, h.readyCalls, h.batchBuffer⟩
  | handleRequestVote req =>
    obtain ⟨_, _, _, heq⟩ := n.handleRequestVote_eq req
    rw [RaftNode.after, heq]
    exact ⟨h.peers, h.log, h.commitIndex, h.lastApplied, h.readyCalls, h.batchBuffer⟩
  | _ => exact absurd hok id

/-- One round of the leader's loop: without peers, `BroadcastHeartbeat` is the flush it begins
with. -/
def leaderRound (n : RaftNode) : RaftNode :=
  n.flushBatch.advanceCommitIndex.applyCommittedEntries

namespace Tenure

/-- What a leader without peers is asked to do: PUT and DELETE proposals, and the parts of its loop
in any order. -/
def Serves (_ : Tenure) : Call → Prop
  | .propose entry | .proposeBatch entry => entry.type = .put ∨ entry.type = .delete
  | .flushBatch | .advanceCommitIndex | .applyCommittedEntries => True
  | _ => False

instance (t : Tenure) (c : Call) : Decidable (Serves t c) :=
  match c with
  | .propose entry | .proposeBatch entry =>
    inferInstanceAs (Decidable (entry.type = .put ∨ entry.type = .delete))
  | .flushBatch | .advanceCommitIndex | .applyCommittedEntries => instDecidableTrue
  | .becomeFollower _ | .becomeCandidate | .becomeLeader | .proposeConfChange _
  | .handleRequestVote _ | .handleAppendEntries _ | .appendResponse _ _ _ => instDecidableFalse

end Tenure

def owned (n : RaftNode) : List RaftEntry := n.log.entries ++ n.batchBuffer

/-- What holds of a leader without peers. -/
structure Solo (n : RaftNode) : Prop where
  leads : n.state = .leader
  peers : n.peers = ∅
  whole : n.log.Whole
  terms : ∀ e ∈ n.owned, e.term = n.currentTerm
  plain : ∀ e ∈ n.owned, e.type ≠ .confChange
  tracked : ∀ k v, n.matchIndex.get? k = some v → v ≤ n.log.lastIndex
  committed : n.commitIndex ≤ n.log.lastIndex
  applied : n.lastApplied ≤ n.commitIndex
  delivered : n.delivered = n.log.entries.take n.lastApplied

namespace Solo
variable {n : RaftNode}

theorem advanceCommitIndex (h : Solo n) :
    n.advanceCommitIndex = { n with commitIndex := n.log.lastIndex } := by
  have hmajority : n.majority = 1 := by
    rw [majority, h.peers]
    rfl
  have htop : n.reaching (n.log.lastIndex + 1) = 0 := by
    refine List.countP_eq_zero.mpr fun v hv => ?_
    rcases List.mem_cons.mp hv with rfl | hv
    · simp
    · obtain ⟨⟨k, v⟩, hmem, rfl⟩ := List.mem_map.mp hv
      have := h.tracked k v ((OrderedMap.mem_entries_iff _ _ _).mp hmem)
      simpa using Nat.lt_succ_of_le this
  rcases h.committed.lt_or_eq with hlt | heq
  · have hne : n.log.entries ≠ [] := by
      intro hnil
      rw [RaftLog.lastIndex_of_empty hnil] at hlt
      exact absurd hlt (Nat.not_lt_zero _)
    have hpos := List.length_pos_of_ne_nil hne
    have hslot : n.log.entries[n.log.lastIndex - 1]? =
        some (n.log.entries[n.log.entries.length - 1]) := by
      rw [h.whole.lastIndex]
      exact List.getElem?_eq_getElem _
    have hterm : n.log.termAt n.log.lastIndex = n.currentTerm := by
      rw [h.whole.termAt (by omega) hslot]
      exact h.terms _ (List.mem_append_left _ (List.getElem_mem _))
    refine advanceCommitIndex_of_chosen h.leads hlt hterm ?_ (by omega)
    rw [hmajority, reaching]
    exact List.countP_pos_iff.mpr ⟨_, List.mem_cons_self, by simp⟩
  · rcases n.advanceCommitIndex_cases with hsame | ⟨N, _, _, hfresh, _, hreach, _⟩
    · rw [hsame, ← heq]
    · rw [hmajority] at hreach
      obtain ⟨v, hv, hle⟩ := List.countP_pos_iff.mp hreach
      refine absurd ?_ (List.countP_eq_zero.mp htop v hv)
      simp only [decide_eq_true_eq] at hle ⊢
      omega

theorem becomeLeader (h : Idle n) : Solo n.becomeLeaderLocked where
  leads := rfl
  peers := h.peers
  whole := by
    dsimp only [becomeLeaderLocked]
    rw [h.log]
    exact ⟨rfl, RaftLog.aligned_empty 1⟩
  terms e he := by simp [owned, becomeLeaderLocked, h.log, h.batchBuffer] at he
  plain e he := by simp [owned, becomeLeaderLocked, h.log, h.batchBuffer] at he
  tracked k v hv := by
    rw [becomeLeaderLocked, h.peers] at hv
    cases hv
  committed := h.commitIndex.trans_le (Nat.zero_le _)
  applied := (h.lastApplied.trans h.commitIndex.symm).le
  delivered := by simp [RaftNode.delivered, becomeLeaderLocked, h.readyCalls, h.log]

private theorem grow (h : Solo n) {entries batch : List RaftEntry}
    (hc : RaftLog.Contiguous (n.log.lastIndex + 1) entries)
    (hterms : ∀ e ∈ entries ++ batch, e.term = n.currentTerm)
    (hplain : ∀ e ∈ entries ++ batch, e.type ≠ .confChange) :
    Solo { n with
      batchBuffer := batch
      log := { n.log with entries := n.log.entries ++ entries }
      matchIndex := n.matchIndex.insert n.nodeId (n.log.lastIndex + entries.length) } := by
  have hwhole : RaftLog.Whole { n.log with entries := n.log.entries ++ entries } := by
    refine ⟨h.whole.first, RaftLog.Contiguous.append h.whole.aligned ?_⟩
    rwa [h.whole.first, Nat.add_comm, ← h.whole.lastIndex]
  have hlast : RaftLog.lastIndex { n.log with entries := n.log.entries ++ entries } =
      n.log.lastIndex + entries.length := by
    rw [hwhole.lastIndex, List.length_append, h.whole.lastIndex]
  have happlied : n.lastApplied ≤ n.log.entries.length :=
    h.whole.lastIndex ▸ h.applied.trans h.committed
  refine ⟨h.leads, h.peers, hwhole, fun e he => ?_, fun e he => ?_, fun k v hv => ?_, ?_, h.applied,
    ?_⟩
  · simp only [owned, List.append_assoc] at he
    rcases List.mem_append.mp he with he | he
    · exact h.terms e (List.mem_append_left _ he)
    · exact hterms e he
  · simp only [owned, List.append_assoc] at he
    rcases List.mem_append.mp he with he | he
    · exact h.plain e (List.mem_append_left _ he)
    · exact hplain e he
  · dsimp only at hv ⊢
    rw [hlast]
    rw [OrderedMap.get?_insert] at hv
    split_ifs at hv
    · exact (Option.some.inj hv).symm.le
    · exact (h.tracked k v hv).trans (Nat.le_add_right _ _)
  · dsimp only
    rw [hlast]
    exact h.committed.trans (Nat.le_add_right _ _)
  · dsimp only
    rw [List.take_append_of_le_length happlied]
    exact h.delivered

theorem recordProposal (h : Solo n) {e : RaftEntry} (hindex : e.index = n.log.lastIndex + 1)
    (hterm : e.term = n.currentTerm) (hplain : e.type ≠ .confChange) :
    Solo (n.recordProposal e) := by
  have hgrown := @grow n h [e] n.batchBuffer (RaftLog.contiguous_singleton hindex)
    (fun x hx => by
      rcases List.mem_cons.mp hx with rfl | hx
      · exact hterm
      · exact h.terms x (List.mem_append_right _ hx))
    (fun x hx => by
      rcases List.mem_cons.mp hx with rfl | hx
      · exact hplain
      · exact h.plain x (List.mem_append_right _ hx))
  rw [RaftNode.recordProposal, hindex]
  exact hgrown

theorem proposeBatch (h : Solo n) {e : RaftEntry} (hterm : e.term = n.currentTerm)
    (hplain : e.type ≠ .confChange) : Solo { n with batchBuffer := n.batchBuffer ++ [e] } where
  leads := h.leads
  peers := h.peers
  whole := h.whole
  terms x hx := by
    simp only [owned, ← List.append_assoc] at hx
    rcases List.mem_append.mp hx with hx | hx
    · exact h.terms x hx
    · exact List.mem_singleton.mp hx ▸ hterm
  plain x hx := by
    simp only [owned, ← List.append_assoc] at hx
    rcases List.mem_append.mp hx with hx | hx
    · exact h.plain x hx
    · exact List.mem_singleton.mp hx ▸ hplain
  tracked := h.tracked
  committed := h.committed
  applied := h.applied
  delivered := h.delivered

/-- The flush moves what is owned into the log, with other indices. -/
theorem flushBatch (h : Solo n) : Solo n.flushBatch ∧ n.flushBatch.batchBuffer = [] ∧
    n.flushBatch.owned.map RaftEntry.command = n.owned.map RaftEntry.command := by
  rcases n.flushBatch_cases with ⟨hempty, heq⟩ | ⟨_, heq⟩
  · rw [heq]
    exact ⟨h, hempty, rfl⟩
  have hmem (e : RaftEntry) (he : e ∈ n.renumberedBatch ++ []) :
      ∃ x ∈ n.batchBuffer, x.term = e.term ∧ x.type = e.type := by
    rw [List.append_nil] at he
    obtain ⟨i, hi, rfl⟩ := List.mem_mapIdx.mp he
    exact ⟨_, List.getElem_mem hi, rfl, rfl⟩
  have hgrown := @grow n h n.renumberedBatch [] n.renumberedBatch_contiguous
    (fun e he => by
      obtain ⟨x, hx, hterm, _⟩ := hmem e he
      exact hterm ▸ h.terms x (List.mem_append_right _ hx))
    (fun e he => by
      obtain ⟨x, hx, _, htype⟩ := hmem e he
      exact htype ▸ h.plain x (List.mem_append_right _ hx))
  rw [renumberedBatch_length] at hgrown
  rw [heq, h.whole.appendAll n.renumberedBatch_contiguous]
  refine ⟨hgrown, rfl, ?_⟩
  simp only [owned, List.append_nil, List.map_append, renumberedBatch, List.append_cancel_left_eq]
  exact List.ext_getElem (by simp) fun i _ _ => by simp [RaftEntry.command]

theorem commit (h : Solo n) : Solo n.advanceCommitIndex := by
  rw [h.advanceCommitIndex]
  exact ⟨h.leads, h.peers, h.whole, h.terms, h.plain, h.tracked, le_rfl,
    h.applied.trans h.committed, h.delivered⟩

theorem apply (h : Solo n) : Solo n.applyCommittedEntries ∧
    n.applyCommittedEntries.lastApplied = n.commitIndex ∧
    n.applyCommittedEntries.commitIndex = n.commitIndex ∧
    n.applyCommittedEntries.owned = n.owned ∧ n.applyCommittedEntries.log = n.log := by
  obtain ⟨hdelivered, happlied⟩ := n.applyCommittedEntries_delivered
  obtain ⟨pending, applied, calls, heq⟩ := applyCommittedEntries_of_plain
    fun e he => h.plain e (List.mem_append_left _ he)
  have hlast : applied = n.commitIndex := by
    rw [heq] at happlied
    exact happlied.trans (max_eq_right h.applied)
  have htaken : (n.log.entries.take n.lastApplied) ++
      (if n.commitIndex > n.lastApplied then
        n.log.slice (n.lastApplied + 1) (n.commitIndex + 1) else []) =
      n.log.entries.take n.commitIndex := by
    split_ifs with hmore
    · have htake : n.log.entries.take n.lastApplied =
          (n.log.entries.take n.commitIndex).take n.lastApplied := by
        rw [List.take_take, min_eq_left h.applied]
      rw [h.whole.slice h.applied (h.whole.lastIndex ▸ h.committed), htake, List.take_append_drop]
    · rw [List.append_nil, h.applied.antisymm (not_lt.mp hmore)]
  rw [heq] at hdelivered ⊢
  subst hlast
  exact ⟨⟨h.leads, h.peers, h.whole, h.terms, h.plain, h.tracked, h.committed, le_rfl,
    hdelivered.trans (by rw [h.delivered, htaken])⟩, rfl, rfl, rfl, rfl⟩

theorem leaderRound (h : Solo n) : Solo n.leaderRound ∧
    n.leaderRound.commitIndex = n.leaderRound.log.lastIndex ∧
    n.leaderRound.lastApplied = n.leaderRound.log.lastIndex ∧
    n.leaderRound.delivered = n.leaderRound.log.entries ∧
    n.leaderRound.log.entries.map RaftEntry.command = n.owned.map RaftEntry.command := by
  obtain ⟨hflushed, hempty, hcommands⟩ := h.flushBatch
  obtain ⟨hsolo, happlied, hcommit, howned, hlog⟩ := hflushed.commit.apply
  have hend : n.flushBatch.advanceCommitIndex.commitIndex =
      n.flushBatch.advanceCommitIndex.log.lastIndex := by rw [hflushed.advanceCommitIndex]
  have hentries : n.flushBatch.advanceCommitIndex.log.entries = n.flushBatch.owned := by
    rw [hflushed.advanceCommitIndex, owned, hempty, List.append_nil]
  have hlast : n.leaderRound.lastApplied = n.leaderRound.log.lastIndex := by
    rw [RaftNode.leaderRound, happlied, hlog, hend]
  refine ⟨hsolo, ?_, hlast, ?_, ?_⟩
  · rw [RaftNode.leaderRound, hcommit, hlog, hend]
  · refine hsolo.delivered.trans (List.take_of_length_le ?_)
    rw [← hsolo.whole.lastIndex]
    exact hlast.ge
  · rw [RaftNode.leaderRound, hlog, hentries, hcommands]

end Solo

namespace Tenure

structure Served (t : Tenure) : Prop where
  solo : Solo t.node
  commands : (t.node.owned.map RaftEntry.command).Perm (t.accepted.map fun a => a.2.command)

namespace Served
variable {t : Tenure}

private theorem plain_of_serves {entry : RaftEntry} (h : entry.type = .put ∨ entry.type = .delete) :
    entry.type ≠ .confChange := by
  rintro heq
  rcases h with h | h
  · cases h.symm.trans heq
  · cases h.symm.trans heq

private theorem after (h : Served t) {c : Call} (hok : Serves t c) :
    Solo (t.node.after c) ∧ ((t.node.after c).owned.map RaftEntry.command).Perm
      (((t.node.accepts c).toList ++ t.accepted).map fun a => a.2.command) := by
  cases c with
  | propose entry =>
    rcases t.node.propose_cases entry with ⟨hno, _⟩ | ⟨_, e, rfl, hindex, heq⟩
    · exact absurd h.solo.leads hno
    simp only [RaftNode.after, accepts, hindex, heq]
    refine ⟨h.solo.recordProposal rfl rfl (plain_of_serves hok), ?_⟩
    refine List.Perm.trans ?_ (h.commands.cons _)
    simp only [owned, RaftNode.recordProposal, RaftLog.append, List.map_append, List.map_cons,
      List.append_assoc]
    exact List.perm_middle
  | proposeBatch entry =>
    rcases t.node.proposeBatch_cases entry with ⟨hno, _⟩ | ⟨_, e, rfl, hindex, heq⟩
    · exact absurd h.solo.leads hno
    simp only [RaftNode.after, accepts, hindex, heq]
    refine ⟨h.solo.proposeBatch rfl (plain_of_serves hok), ?_⟩
    refine List.Perm.trans ?_ ((List.perm_append_singleton _ _).trans (h.commands.cons _))
    simp [owned, RaftEntry.command]
  | flushBatch =>
    obtain ⟨hsolo, _, hcommands⟩ := h.solo.flushBatch
    exact ⟨hsolo, hcommands.symm ▸ h.commands⟩
  | advanceCommitIndex =>
    refine ⟨h.solo.commit, ?_⟩
    rw [RaftNode.after, h.solo.advanceCommitIndex]
    exact h.commands
  | applyCommittedEntries =>
    obtain ⟨hsolo, _, _, howned, _⟩ := h.solo.apply
    exact ⟨hsolo, howned.symm ▸ h.commands⟩
  | _ => exact absurd hok id

theorem step (h : Served t) {c : Call} (hok : Serves t c) {t' : Tenure} (hs : t.step c = some t') :
    Served t' := by
  obtain ⟨n, hserve, rfl⟩ := Option.map_eq_some_iff.mp hs
  obtain rfl := serve_eq_after hserve
  obtain ⟨hsolo, hcommands⟩ := h.after hok
  rw [if_pos hsolo.leads]
  exact ⟨hsolo, hcommands⟩

end Served

/-- A node without peers that takes office and then serves PUT and DELETE proposals, the parts of its
loop in between in any order: after a last round of the loop the log has been delivered, it consists
of what was accepted, and both counters stand at its end. -/
theorem single_node_complete {config : ClusterConfig}
    (hpeers : ∀ id ∈ config.peerAddresses.keys, id = config.nodeId) {n : RaftNode}
    (helected : Run serve Canvassing (ofConfig config) n) {t : Tenure}
    (hrun : Run step Serves { node := n.becomeLeaderLocked } t) :
    (t.node.leaderRound.delivered.map RaftEntry.command).Perm
      (t.accepted.map fun a => a.2.command) ∧
    t.node.leaderRound.delivered = t.node.leaderRound.log.entries ∧
    t.node.leaderRound.delivered.map RaftEntry.index =
      List.range' 1 t.node.leaderRound.delivered.length ∧
    t.node.leaderRound.commitIndex = t.node.leaderRound.log.lastIndex ∧
    t.node.leaderRound.lastApplied = t.node.leaderRound.log.lastIndex := by
  have hidle := helected.invariant (P := Idle)
    (fun h hok hs => serve_eq_after hs ▸ h.after hok) (.ofConfig hpeers)
  have hserved := hrun.invariant (P := Served) (fun h hok hs => h.step hok hs)
    ⟨.becomeLeader hidle, by simp [owned, becomeLeaderLocked, hidle.log, hidle.batchBuffer]⟩
  obtain ⟨hsolo, hcommit, happlied, hdelivered, hcommands⟩ := hserved.solo.leaderRound
  refine ⟨?_, hdelivered, ?_, hcommit, happlied⟩
  · rw [hdelivered, hcommands]
    exact hserved.commands
  · rw [hdelivered]
    exact RaftLog.contiguous_iff_map.mp hsolo.whole.contiguous

/-- A node alone in its cluster accepts three proposals, one of them overtaking a batched one. -/
theorem single_node_complete_overtaking : ∃ t,
    Run step Serves { node := (ofConfig {}).becomeCandidateLocked.becomeLeaderLocked } t ∧
    t.accepted.length = 3 ∧ t.node.leaderRound.delivered.map RaftEntry.index = [1, 2, 3] ∧
    t.node.leaderRound.lastApplied = t.node.leaderRound.log.lastIndex := by
  obtain ⟨t, hrun, hlength⟩ := reachable_of_execute step Serves
    { node := (ofConfig {}).becomeCandidateLocked.becomeLeaderLocked }
    [.propose { key := [1] }, .flushBatch, .advanceCommitIndex, .proposeBatch { key := [2] },
      .propose { key := [3] }, .applyCommittedEntries] (P := fun t => t.accepted.length = 3)
    (by decide)
  have helected : Run serve Canvassing (ofConfig {}) (ofConfig {}).becomeCandidateLocked :=
    Run.start.next (a := .becomeCandidate) trivial rfl
  obtain ⟨hperm, _, hindices, _, happlied⟩ := single_node_complete (by decide) helected hrun
  have hthree : t.node.leaderRound.delivered.length = 3 := by
    simpa [hlength] using hperm.length_eq
  rw [hthree] at hindices
  exact ⟨t, hrun, hlength, hindices, happlied⟩

end Tenure
end RaftNode
end MyEtcd
