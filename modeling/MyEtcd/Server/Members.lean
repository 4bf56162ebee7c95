import Mathlib.Order.Interval.Finset.Nat
import MyEtcd.Cluster.Reconfiguration
import MyEtcd.Raft.CommitQuorum

/-! Adding and removing members through the server that leads.
`MemberAdd` picks an id from the membership that has been applied, while earlier additions may still
be on their way through the log. -/
namespace MyEtcd
open Library

namespace EtcdServer

def nextFree (taken : Nat → Bool) : Nat → Nat → Nat
  | 0, id => id
  | fuel + 1, id => if taken id then nextFree taken fuel (id + 1) else id

/-- The smallest id from one on that is neither a peer's nor the node's own. There are no more than
`peers.size + 1` of those. -/
def newMemberId (n : RaftNode) : Nat :=
  nextFree (fun id => n.peers.contains id || id = n.nodeId) (n.peers.size + 1) 1

/-- `MemberAdd` up to its proposal: the change it will propose, or the status and the text of its
error. -/
def memberAdd (n : RaftNode) (peerAddr : Bytes) : Except (Nat × String) ConfChange :=
  if ¬ n.isLeader then .error (503, "not leader")
  else .ok { type := .addNode, nodeId := newMemberId n, peerAddr := peerAddr }

/-- `MemberRemove` up to its proposal. -/
def memberRemove (n : RaftNode) (id : Nat) : Except (Nat × String) ConfChange :=
  if ¬ n.isLeader then .error (503, "not leader")
  else if id = n.nodeId then .error (400, "cannot remove self")
  else if ¬ n.peers.contains id then .error (404, "member not found")
  else .ok { type := .removeNode, nodeId := id }

/-- The rest of `MemberAdd` and of `MemberRemove`, with the id they answer. -/
def proposeMember (n : RaftNode) (cc : ConfChange) : Except (Nat × String) Nat × RaftNode :=
  match n.proposeConfChange cc with
  | (.ok _, n) => (.ok cc.nodeId, n)
  | (.error error, n) => (.error (500, error), n)

/-- What `OnConfChangeApplied` does to the addresses in the transport, if there is one. -/
def onConfChangeApplied (transport : Option (OrderedMap Nat Bytes)) (cc : ConfChange) :
    Option (OrderedMap Nat Bytes) :=
  transport.map fun addresses =>
    if cc.type = .addNode then addresses.insert cc.nodeId cc.peerAddr else addresses

/-- The addresses in the transport, which `Start` creates only where peers are configured. -/
def addresses (config : ClusterConfig) (n : RaftNode) : Option (OrderedMap Nat Bytes) :=
  n.confChangeCalls.foldl onConfChangeApplied
    (if config.peerAddresses.keys = [] then none else some config.peerAddresses)

private theorem nextFree_spec (taken : Nat → Bool) (fuel id : Nat) :
    id ≤ nextFree taken fuel id ∧ nextFree taken fuel id ≤ id + fuel ∧
      (∀ k, id ≤ k → k < nextFree taken fuel id → taken k = true) ∧
      (nextFree taken fuel id < id + fuel → taken (nextFree taken fuel id) = false) := by
  induction fuel generalizing id with
  | zero =>
    exact ⟨le_rfl, le_rfl, fun k hk hlt => absurd hk (not_le.mpr hlt), fun h => absurd h (lt_irrefl _)⟩
  | succ fuel ih =>
    obtain ⟨hge, hle, hbelow, hfree⟩ := ih (id + 1)
    by_cases htaken : taken id
    · rw [nextFree, if_pos htaken]
      refine ⟨by omega, by omega, fun k hk hlt => ?_, fun h => hfree (by omega)⟩
      rcases hk.eq_or_lt with rfl | hk
      · exact htaken
      · exact hbelow k hk hlt
    · rw [nextFree, if_neg htaken]
      exact ⟨le_rfl, by omega, fun k hk hlt => absurd hk (not_le.mpr hlt),
        fun _ => Bool.eq_false_of_not_eq_true htaken⟩

/-- The ids that `MemberAdd` passes over. -/
def taken (n : RaftNode) : List Nat := n.nodeId :: n.peers.keys

/-- The first id from one on that is not taken. -/
structure FirstFree (taken : List Nat) (id : Nat) : Prop where
  pos : 0 < id
  free : id ∉ taken
  least : ∀ k, 0 < k → k < id → k ∈ taken

theorem newMemberId_firstFree (n : RaftNode) : FirstFree (taken n) (newMemberId n) := by
  obtain ⟨hge, hle, hbelow, hfree⟩ :=
    nextFree_spec (fun id => n.peers.contains id || id = n.nodeId) (n.peers.size + 1) 1
  have htaken (id : Nat) : (n.peers.contains id || decide (id = n.nodeId)) = true ↔
      id ∈ taken n := by
    simp [taken, OrderedMap.contains_iff, or_comm]
  have hnot : newMemberId n ∉ taken n := by
    rcases hle.lt_or_eq with hlt | heq
    · rw [← htaken]
      exact Bool.eq_false_iff.mp (hfree hlt)
    · -- all smaller ids are taken, and there is no room for another
      intro hmem
      have hsub : Finset.Icc 1 (n.peers.size + 2) ⊆ insert n.nodeId n.peers.keys.toFinset := by
        intro id hid
        rw [Finset.mem_insert, List.mem_toFinset, ← List.mem_cons]
        obtain ⟨hone, hlast⟩ := Finset.mem_Icc.mp hid
        rcases hlast.lt_or_eq with hlt | rfl
        · exact (htaken id).mp (hbelow id hone (by omega))
        · have hid : newMemberId n = n.peers.size + 2 := by
            rw [newMemberId, heq]
            omega
          rwa [hid] at hmem
      have hcard := (Finset.card_le_card hsub).trans n.members_card_le
      rw [Nat.card_Icc] at hcard
      omega
  exact ⟨hge, hnot, fun k hpos hlt => (htaken k).mp (hbelow k hpos hlt)⟩

end EtcdServer

namespace RaftNode

def pending (n : RaftNode) : List ConfChange :=
  confChanges (n.log.entriesFrom (n.lastApplied + 1) 0)

/-- A leader whose counters stay inside its log, and whose buffer holds no membership change. -/
structure Orderly (n : RaftNode) : Prop where
  leads : n.state = .leader
  term : 0 < n.currentTerm
  aligned : n.log.Aligned
  positive : 0 < n.log.firstIndex
  ready : n.log.Ready
  committed : n.commitIndex ≤ n.log.lastIndex
  applied : n.lastApplied ≤ n.log.lastIndex
  batch : ∀ e ∈ n.batchBuffer, e.type ≠ .confChange

namespace SameMembers
variable {n n' : RaftNode}

theorem refl (n : RaftNode) : SameMembers n n := ⟨rfl, rfl, rfl⟩

/-- What a change does to the members depends on the members alone. -/
theorem applyConfChange (h : SameMembers n n') (cc : ConfChange) :
    SameMembers (n.applyConfChange cc) (n'.applyConfChange cc) := by
  unfold RaftNode.applyConfChange
  by_cases hzero : cc.nodeId = 0
  · rw [if_pos hzero, if_pos hzero]
    exact h
  rw [if_neg hzero, if_neg hzero]
  cases cc.type with
  | addNode =>
    dsimp only
    rw [h.peers]
    split_ifs
    all_goals first
      | exact h
      | exact ⟨h.nodeId, rfl, by simp only [h.calls]⟩
  | removeNode =>
    dsimp only
    rw [h.peers, h.nodeId]
    split_ifs
    · exact h
    · exact h
    · exact ⟨rfl, rfl, by simp only [h.calls]⟩
  | other code unnamed => exact h

theorem foldl (h : SameMembers n n') (ccs : List ConfChange) :
    SameMembers (ccs.foldl RaftNode.applyConfChange n) (ccs.foldl RaftNode.applyConfChange n') := by
  induction ccs generalizing n n' with
  | nil => exact h
  | cons cc rest ih => exact ih (h.applyConfChange cc)

end SameMembers

/-- The node when everything in its log has been applied. -/
def settled (n : RaftNode) : RaftNode := n.pending.foldl applyConfChange n

theorem confChanges_append (entries entries' : List RaftEntry) :
    confChanges (entries ++ entries') = confChanges entries ++ confChanges entries' := by
  simp [confChanges]

theorem confChanges_of_plain {entries : List RaftEntry} (h : ∀ e ∈ entries, e.type ≠ .confChange) :
    confChanges entries = [] := by
  rw [confChanges, List.filter_eq_nil_iff.mpr fun e he => by simpa using h e he, List.map_nil]

namespace Orderly
variable {n n' : RaftNode}

theorem lastIndex_succ (h : Orderly n) :
    n.log.lastIndex + 1 = n.log.firstIndex + n.log.entries.length :=
  h.ready.lastIndex_succ h.aligned

theorem grow (h : Orderly n) {entries : List RaftEntry}
    (hc : RaftLog.Contiguous (n.log.lastIndex + 1) entries) (hstate : n'.state = n.state)
    (hterm : n'.currentTerm = n.currentTerm)
    (hlog : n'.log = ⟨n.log.entries ++ entries, n.log.firstIndex⟩)
    (hcommit : n'.commitIndex = n.commitIndex) (happlied : n'.lastApplied = n.lastApplied)
    (hbatch : ∀ e ∈ n'.batchBuffer, e.type ≠ .confChange) :
    Orderly n' ∧ n'.pending = n.pending ++ confChanges entries := by
  have hslots := h.lastIndex_succ
  have haligned : RaftLog.Aligned ⟨n.log.entries ++ entries, n.log.firstIndex⟩ :=
    RaftLog.Contiguous.append h.aligned (hslots ▸ hc)
  have hready : RaftLog.Ready ⟨n.log.entries ++ entries, n.log.firstIndex⟩ :=
    h.ready.imp (fun hne hnil => hne (List.append_eq_nil_iff.mp hnil).1) id
  have hgrown : n.log.lastIndex ≤ n'.log.lastIndex := by
    have := hready.lastIndex_succ haligned
    rw [hlog]
    simp only [List.length_append] at this
    omega
  refine ⟨⟨hstate.trans h.leads, hterm ▸ h.term, hlog ▸ haligned, hlog ▸ h.positive, hlog ▸ hready,
    hcommit ▸ h.committed.trans hgrown, happlied ▸ h.applied.trans hgrown, hbatch⟩, ?_⟩
  have hwithin := h.applied
  rw [pending, pending, ← confChanges_append, happlied, hlog, haligned.entriesFrom h.positive,
    h.aligned.entriesFrom h.positive]
  dsimp only
  rw [List.drop_append_of_le_length (by omega)]

theorem recordProposal (h : Orderly n) {e : RaftEntry} (he : e.index = n.log.lastIndex + 1) :
    Orderly (n.recordProposal e) ∧ (n.recordProposal e).pending = n.pending ++ confChanges [e] :=
  h.grow (RaftLog.contiguous_singleton he) rfl rfl rfl rfl rfl h.batch

theorem flushBatch (h : Orderly n) : Orderly n.flushBatch ∧ n.flushBatch.pending = n.pending := by
  rcases n.flushBatch_cases with ⟨_, heq⟩ | ⟨_, heq⟩
  · rw [heq]
    exact ⟨h, rfl⟩
  have happend : n.log.appendAll n.renumberedBatch =
      { n.log with entries := n.log.entries ++ n.renumberedBatch } :=
    h.aligned.appendAll_next (h.lastIndex_succ ▸ n.renumberedBatch_contiguous)
  have hplain : confChanges n.renumberedBatch = [] := by
    refine confChanges_of_plain fun e he => ?_
    obtain ⟨i, hi, rfl⟩ := List.mem_mapIdx.mp he
    exact h.batch n.batchBuffer[i] (List.getElem_mem hi)
  have hgrown : Orderly n.flushBatch ∧
      n.flushBatch.pending = n.pending ++ confChanges n.renumberedBatch :=
    h.grow n.renumberedBatch_contiguous (by rw [heq]) (by rw [heq]) (by rw [heq]; exact happend)
      (by rw [heq]) (by rw [heq]) (by simp [heq])
  obtain ⟨horderly, hpending⟩ := hgrown
  exact ⟨horderly, by rw [hpending, hplain, List.append_nil]⟩

end Orderly

theorem settled_of_pending {n n' : RaftNode} (hsame : SameMembers n n')
    (hpending : n'.pending = n.pending) : SameMembers n.settled n'.settled := by
  rw [settled, settled, hpending]
  exact hsame.foldl _

/-- The calls of a leader's loop and of others, membership changes apart. -/
def plainCall : Call → Bool
  | .propose entry | .proposeBatch entry => entry.type ≠ .confChange
  | .flushBatch | .handleRequestVote _ | .handleAppendEntries _ | .appendResponse _ _ _
  | .advanceCommitIndex | .applyCommittedEntries => true
  | _ => false

namespace Orderly
variable {n : RaftNode}

private theorem congr (h : Orderly n) {n' : RaftNode} (hleads : n'.state = .leader)
    (hterm : n'.currentTerm = n.currentTerm) (hlog : n'.log = n.log)
    (hcommit : n'.commitIndex ≤ n.log.lastIndex) (happlied : n'.lastApplied = n.lastApplied)
    (hbatch : ∀ e ∈ n'.batchBuffer, e.type ≠ .confChange) (hsame : SameMembers n n') :
    Orderly n' ∧ SameMembers n.settled n'.settled :=
  ⟨⟨hleads, hterm ▸ h.term, hlog ▸ h.aligned, hlog ▸ h.positive, hlog ▸ h.ready, hlog ▸ hcommit,
    hlog ▸ happlied ▸ h.applied, hbatch⟩,
    settled_of_pending hsame (by rw [pending, pending, hlog, happlied])⟩

private theorem applyCommittedEntries (h : Orderly n) :
    Orderly n.applyCommittedEntries ∧ SameMembers n.settled n.applyCommittedEntries.settled := by
  have hkept := n.applyCommittedEntries_kept
  have happlied := n.applyCommittedEntries_delivered.2
  have hcommitted := h.committed
  have hwithin := h.applied
  have hslots := h.lastIndex_succ
  refine ⟨⟨hkept.state ▸ h.leads, hkept.currentTerm ▸ h.term, hkept.log ▸ h.aligned,
    hkept.log ▸ h.positive, hkept.log ▸ h.ready, hkept.log ▸ hkept.commitIndex ▸ h.committed, ?_,
    hkept.batchBuffer ▸ h.batch⟩, ?_⟩
  · rw [happlied, ← hkept.log]
    omega
  · have hmoved : n.pending = confChanges (if n.commitIndex > n.lastApplied then
        n.log.slice (n.lastApplied + 1) (n.commitIndex + 1) else []) ++
          n.applyCommittedEntries.pending := by
      rw [pending, pending, ← confChanges_append, ← hkept.log,
        unapplied_applyCommittedEntries h.aligned h.positive (by omega)]
    rw [settled, hmoved, List.foldl_append]
    exact n.applyCommittedEntries_members.foldl _

/-- As long as the node leads, no plain call changes what its members will be. -/
theorem after (h : Orderly n) {c : Call} (hplain : plainCall c = true)
    (hleads : (n.after c).state = .leader) :
    Orderly (n.after c) ∧ SameMembers n.settled (n.after c).settled := by
  cases c with
  | propose entry =>
    rcases n.propose_cases entry with ⟨_, heq⟩ | ⟨_, e, he, _, heq⟩
    · rw [RaftNode.after, heq]
      exact ⟨h, .refl _⟩
    · obtain ⟨horderly, hpending⟩ := h.recordProposal (e := e) (by rw [he])
      have hnone : confChanges [e] = [] := by
        refine confChanges_of_plain fun x hx => ?_
        rw [List.mem_singleton.mp hx, he]
        exact of_decide_eq_true hplain
      rw [hnone, List.append_nil] at hpending
      rw [RaftNode.after, heq]
      exact ⟨horderly, settled_of_pending ⟨rfl, rfl, rfl⟩ hpending⟩
  | proposeBatch entry =>
    rcases n.proposeBatch_cases entry with ⟨_, heq⟩ | ⟨_, e, he, _, heq⟩
    · rw [RaftNode.after, heq]
      exact ⟨h, .refl _⟩
    · rw [RaftNode.after, heq]
      refine h.congr h.leads rfl rfl h.committed rfl (fun x hx => ?_) ⟨rfl, rfl, rfl⟩
      rcases List.mem_append.mp hx with hx | hx
      · exact h.batch x hx
      · rw [List.mem_singleton.mp hx, he]
        exact of_decide_eq_true hplain
  | flushBatch =>
    obtain ⟨horderly, hpending⟩ := h.flushBatch
    refine ⟨horderly, settled_of_pending ?_ hpending⟩
    rw [RaftNode.after]
    rcases n.flushBatch_cases with ⟨_, heq⟩ | ⟨_, heq⟩
    · rw [heq]
      exact .refl n
    · rw [heq]
      exact ⟨rfl, rfl, rfl⟩
  | handleRequestVote req =>
    obtain ⟨v, heq⟩ := handleRequestVote_of_leader hleads
    rw [RaftNode.after, heq]
    exact h.congr h.leads rfl rfl h.committed rfl h.batch ⟨rfl, rfl, rfl⟩
  | handleAppendEntries req =>
    rw [RaftNode.after, handleAppendEntries_of_leader hleads]
    exact ⟨h, .refl _⟩
  | appendResponse peer entries resp =>
    rw [RaftNode.after] at hleads ⊢
    rcases n.appendResponse_cases peer entries resp with ⟨_, heq⟩ | ⟨_, _, _, heq⟩
    · obtain ⟨_, _, hfollower⟩ := n.becomeFollowerLocked_eq resp.term
      rw [heq, hfollower] at hleads
      cases hleads
    · rw [heq]
      exact h.congr h.leads rfl rfl h.committed rfl h.batch ⟨rfl, rfl, rfl⟩
  | advanceCommitIndex =>
    have hwithin := advanceCommitIndex_within h.aligned h.term h.committed
    obtain ⟨commit, hkept⟩ := n.advanceCommitIndex_kept
    rw [hkept] at hwithin
    rw [RaftNode.after, hkept]
    exact h.congr h.leads rfl rfl hwithin rfl h.batch ⟨rfl, rfl, rfl⟩
  | applyCommittedEntries => exact h.applyCommittedEntries
  | _ => cases hplain

end Orderly

/-- A new id that nobody is about to get is taken up, and its address with it. -/
theorem applyConfChange_add {n : RaftNode} {cc : ConfChange} (htype : cc.type = .addNode)
    (hzero : cc.nodeId ≠ 0) (hfree : cc.nodeId ∉ n.peers.keys) :
    (n.applyConfChange cc).peers = n.peers.insert cc.nodeId () ∧
      (n.applyConfChange cc).confChangeCalls = n.confChangeCalls ++ [cc] := by
  have hcontains : ¬ n.peers.contains cc.nodeId = true := mt (OrderedMap.contains_iff _ _).mp hfree
  unfold applyConfChange
  rw [if_neg hzero, htype]
  dsimp only
  rw [if_neg hcontains]
  split_ifs
  · exact ⟨rfl, rfl⟩
  · exact ⟨rfl, rfl⟩

theorem applyConfChange_remove {n : RaftNode} {cc : ConfChange} (htype : cc.type = .removeNode) :
    (∀ id, id ≠ cc.nodeId → (id ∈ (n.applyConfChange cc).peers.keys ↔ id ∈ n.peers.keys)) ∧
      ((n.applyConfChange cc).confChangeCalls = n.confChangeCalls ∨
        (n.applyConfChange cc).confChangeCalls = n.confChangeCalls ++ [cc]) := by
  unfold applyConfChange
  rw [htype]
  dsimp only
  split_ifs
  · exact ⟨fun id _ => Iff.rfl, .inl rfl⟩
  · exact ⟨fun id _ => Iff.rfl, .inl rfl⟩
  · exact ⟨fun id _ => Iff.rfl, .inl rfl⟩
  · exact ⟨fun id hid => by simp [OrderedMap.mem_keys_erase, hid], .inr rfl⟩

/-- Only an addition makes an id a peer. -/
theorem mem_peers_applyConfChange {n : RaftNode} {cc : ConfChange} {id : Nat}
    (h : id ∈ (n.applyConfChange cc).peers.keys) :
    id ∈ n.peers.keys ∨ cc.type = .addNode ∧ cc.nodeId = id := by
  unfold applyConfChange at h
  cases htype : cc.type with
  | addNode =>
    by_cases hid : cc.nodeId = id
    · exact .inr ⟨rfl, hid⟩
    · simp only [htype] at h
      split_ifs at h
      · exact .inl h
      · exact .inl h
      · exact .inl (((OrderedMap.mem_keys_insert _ _ _ _).mp h).resolve_left (Ne.symm hid))
      · exact .inl (((OrderedMap.mem_keys_insert _ _ _ _).mp h).resolve_left (Ne.symm hid))
  | removeNode =>
    simp only [htype] at h
    split_ifs at h
    · exact .inl h
    · exact .inl h
    · exact .inl h
    · exact .inl ((OrderedMap.mem_keys_erase _ _ _).mp h).2
  | other code unnamed =>
    simp only [htype, ite_self] at h
    exact .inl h

theorem mem_peers_foldl {id : Nat} {ccs : List ConfChange} {n : RaftNode}
    (h : id ∈ (ccs.foldl applyConfChange n).peers.keys) :
    id ∈ n.peers.keys ∨ ∃ cc ∈ ccs, cc.type = .addNode ∧ cc.nodeId = id := by
  induction ccs generalizing n with
  | nil => exact .inl h
  | cons cc rest ih =>
    rcases ih h with hmem | ⟨x, hx, hadds⟩
    · exact (mem_peers_applyConfChange hmem).imp_right fun hadds =>
        ⟨cc, List.mem_cons_self, hadds⟩
    · exact .inr ⟨x, List.mem_cons_of_mem _ hx, hadds⟩

def confChangeEntry (n : RaftNode) (cc : ConfChange) : RaftEntry :=
  { term := n.currentTerm, index := n.log.lastIndex + 1, type := .confChange, confChange := cc }

theorem settled_recordProposal {n : RaftNode} (h : Orderly n) (cc : ConfChange) :
    Orderly (n.recordProposal (n.confChangeEntry cc)) ∧
      SameMembers (n.settled.applyConfChange cc)
        (n.recordProposal (n.confChangeEntry cc)).settled := by
  obtain ⟨horderly, hpending⟩ := h.recordProposal (e := n.confChangeEntry cc) rfl
  have hone : confChanges [n.confChangeEntry cc] = [cc] := rfl
  refine ⟨horderly, ?_⟩
  rw [settled, settled, hpending, hone, List.foldl_append]
  have hsame : SameMembers n (n.recordProposal (n.confChangeEntry cc)) := ⟨rfl, rfl, rfl⟩
  exact (hsame.foldl n.pending).applyConfChange cc

theorem proposeConfChange_leader {n : RaftNode} (h : n.state = .leader) (cc : ConfChange) :
    n.proposeConfChange cc =
      (.ok (n.log.lastIndex + 1), n.recordProposal (n.confChangeEntry cc)) := by
  rw [proposeConfChange, if_neg (not_not.mpr (n.isLeader_iff.mpr h))]
  rfl

end RaftNode

namespace EtcdServer

/-- What is proposed adds the first free id, or removes one. -/
theorem memberAdd_ok {n : RaftNode} {peerAddr : Bytes} {cc : ConfChange}
    (h : memberAdd n peerAddr = .ok cc) : cc.type = .addNode ∧ FirstFree (taken n) cc.nodeId := by
  unfold memberAdd at h
  split_ifs at h
  cases h
  exact ⟨rfl, newMemberId_firstFree n⟩

theorem memberRemove_ok {n : RaftNode} {id : Nat} {cc : ConfChange}
    (h : memberRemove n id = .ok cc) : cc.type = .removeNode := by
  unfold memberRemove at h
  split_ifs at h
  cases h
  rfl

theorem proposeMember_leader {n : RaftNode} (h : n.state = .leader) (cc : ConfChange) :
    proposeMember n cc = (.ok cc.nodeId, n.recordProposal (n.confChangeEntry cc)) := by
  rw [proposeMember, RaftNode.proposeConfChange_leader h]

theorem addresses_congr (config : ClusterConfig) {n n' : RaftNode}
    (h : n'.confChangeCalls = n.confChangeCalls) : addresses config n' = addresses config n := by
  rw [addresses, addresses, h]

theorem addresses_called (config : ClusterConfig) {n n' : RaftNode} {cc : ConfChange}
    (h : n'.confChangeCalls = n.confChangeCalls ++ [cc]) :
    addresses config n' = onConfChangeApplied (addresses config n) cc := by
  rw [addresses, addresses, h, List.foldl_append]
  rfl

/-- Once there is a transport it stays. -/
theorem addresses_isSome {config : ClusterConfig} (h : config.peerAddresses.keys ≠ [])
    (n : RaftNode) : (addresses config n).isSome = true := by
  have hfold (calls : List ConfChange) (transport : Option (OrderedMap Nat Bytes))
      (hsome : transport.isSome = true) :
      (calls.foldl onConfChangeApplied transport).isSome = true := by
    induction calls generalizing transport with
    | nil => exact hsome
    | cons cc rest ih => exact ih _ (by simpa [onConfChangeApplied] using hsome)
  exact hfold _ _ (by rw [if_neg h]; rfl)

/-- The ids and addresses of the members that answered additions, newest first, have brought in and
that no later removal has taken out. -/
def standing : List ConfChange → List (Nat × Bytes)
  | [] => []
  | cc :: older =>
    match cc.type with
    | .addNode => (cc.nodeId, cc.peerAddr) :: standing older
    | .removeNode => (standing older).filter fun a => a.1 ≠ cc.nodeId
    | .other _ _ => standing older

/-- A request between reading the membership and proposing, with the ids that were taken then. -/
structure MemberRequest where
  change : ConfChange
  seen : List Nat
  deriving DecidableEq

/-- A leader with its member requests that have not proposed yet, and the changes of those it has
answered with success, newest first. -/
structure Membership where
  node : RaftNode
  requests : List MemberRequest := []
  answers : List ConfChange := []

namespace Membership

inductive Event where
  | memberAdd (peerAddr : Bytes)
  | memberRemove (id : Nat)
  | propose (request : MemberRequest)
  | call (c : RaftNode.Call)

/-- Requests are served by threads of their own, so anything may come between the two halves of one.
Any plain call is possible that leaves the node the leader. -/
def step (m : Membership) : Event → Option Membership
  | .memberAdd peerAddr =>
    match memberAdd m.node peerAddr with
    | .ok change => some { m with requests := ⟨change, taken m.node⟩ :: m.requests }
    | .error _ => some m
  | .memberRemove id =>
    match memberRemove m.node id with
    | .ok change => some { m with requests := ⟨change, taken m.node⟩ :: m.requests }
    | .error _ => some m
  | .propose request =>
    if request ∈ m.requests then
      match proposeMember m.node request.change with
      | (.ok _, node) =>
        some { node := node, requests := m.requests.erase request,
               answers := request.change :: m.answers }
      | (.error _, node) => some { m with node := node, requests := m.requests.erase request }
    else none
  | .call c =>
    if RaftNode.plainCall c = true ∧ (m.node.after c).state = .leader then
      some { m with node := m.node.after c }
    else none

/-- The ids that are taken and those that additions in the log will take when they are applied. -/
def claimed (n : RaftNode) : List Nat :=
  n.peers.keys ++ (n.pending.filter fun cc => cc.type = .addNode).map ConfChange.nodeId

/-- No addition has been applied or proposed since a request for another one has read the membership,
or was on its way then, except behind an id that was free. -/
def Unclaimed (m : Membership) : Event → Prop
  | .propose request => request.change.type = .addNode →
      ∀ id ∈ claimed m.node, 0 < id → id ∉ request.seen →
        ∃ free < id, 0 < free ∧ free ∉ request.seen
  | _ => True

instance (m : Membership) (event : Event) : Decidable (Unclaimed m event) := by
  unfold Unclaimed
  split <;> infer_instance

/-- The standing members have different ids, and will be peers with their addresses once everything
has been applied. -/
structure Enrolled (config : ClusterConfig) (m : Membership) : Prop where
  orderly : m.node.Orderly
  requests : ∀ r ∈ m.requests,
    r.change.type = .addNode ∧ FirstFree r.seen r.change.nodeId ∨ r.change.type = .removeNode
  nodup : ((standing m.answers).map Prod.fst).Nodup
  peers : ∀ a ∈ standing m.answers, a.1 ∈ m.node.settled.peers.keys
  addresses : config.peerAddresses.keys ≠ [] → ∀ a ∈ standing m.answers,
    (addresses config m.node.settled).bind (OrderedMap.get? · a.1) = some a.2

namespace Enrolled
variable {config : ClusterConfig} {m m' : Membership} {r : MemberRequest}

private theorem congr (h : Enrolled config m) {n : RaftNode} (horderly : n.Orderly)
    (hsame : RaftNode.SameMembers m.node.settled n.settled) :
    Enrolled config { m with node := n } where
  orderly := horderly
  requests := h.requests
  nodup := h.nodup
  peers a ha := by
    dsimp only
    rw [hsame.peers]
    exact h.peers a ha
  addresses hconfigured a ha := by
    dsimp only
    rw [addresses_congr config hsame.calls]
    exact h.addresses hconfigured a ha

private theorem request (h : Enrolled config m)
    (hr : r.change.type = .addNode ∧ FirstFree r.seen r.change.nodeId ∨ r.change.type = .removeNode) :
    Enrolled config { m with requests := r :: m.requests } :=
  { h with requests := List.forall_mem_cons.mpr ⟨hr, h.requests⟩ }

/-- The node and the answers when a change has been proposed. -/
def proposed (m : Membership) (r : MemberRequest) : Membership where
  node := m.node.recordProposal (m.node.confChangeEntry r.change)
  requests := m.requests.erase r
  answers := r.change :: m.answers

private theorem requests_erase (h : Enrolled config m) (r : MemberRequest) :
    ∀ x ∈ m.requests.erase r, x.change.type = .addNode ∧ FirstFree x.seen x.change.nodeId ∨
      x.change.type = .removeNode :=
  fun x hx => h.requests x (List.mem_of_mem_erase hx)

private theorem add (h : Enrolled config m) (htype : r.change.type = .addNode)
    (hfirst : FirstFree r.seen r.change.nodeId) (hok : Unclaimed m (.propose r)) :
    Enrolled config (proposed m r) := by
  have hclaimed : r.change.nodeId ∉ claimed m.node := by
    intro hmem
    obtain ⟨free, hlt, hpos, hunseen⟩ := hok htype _ hmem hfirst.pos hfirst.free
    exact hunseen (hfirst.least free hpos hlt)
  have hsettled : r.change.nodeId ∉ m.node.settled.peers.keys := by
    intro hmem
    refine hclaimed (List.mem_append.mpr ?_)
    rcases RaftNode.mem_peers_foldl hmem with hmem | ⟨x, hx, hadds, hid⟩
    · exact .inl hmem
    · exact .inr (List.mem_map.mpr ⟨x, List.mem_filter.mpr ⟨hx, decide_eq_true hadds⟩, hid⟩)
  obtain ⟨horderly, hsame⟩ := RaftNode.settled_recordProposal h.orderly r.change
  obtain ⟨hpeers, hcalls⟩ := RaftNode.applyConfChange_add htype hfirst.pos.ne' hsettled
  have hother (a : Nat × Bytes) (ha : a ∈ standing m.answers) : a.1 ≠ r.change.nodeId := by
    intro heq
    exact hsettled (heq ▸ h.peers a ha)
  have hstanding : standing (r.change :: m.answers) =
      (r.change.nodeId, r.change.peerAddr) :: standing m.answers := by
    rw [standing, htype]
  refine ⟨horderly, h.requests_erase r, ?_, ?_, fun hconfigured => ?_⟩
  · rw [proposed, hstanding]
    refine List.nodup_cons.mpr ⟨fun hmem => ?_, h.nodup⟩
    obtain ⟨a, ha, heq⟩ := List.mem_map.mp hmem
    exact hother a ha heq
  · rw [proposed, hstanding]
    intro a ha
    rw [hsame.peers, hpeers, OrderedMap.mem_keys_insert]
    rcases List.mem_cons.mp ha with rfl | ha
    · exact .inl rfl
    · exact .inr (h.peers a ha)
  · rw [proposed, hstanding]
    intro a ha
    rw [addresses_congr config hsame.calls, addresses_called config hcalls]
    obtain ⟨registered, hregistered⟩ :=
      Option.isSome_iff_exists.mp (addresses_isSome hconfigured m.node.settled)
    have hold := h.addresses hconfigured
    rw [hregistered] at hold ⊢
    simp only [onConfChangeApplied, htype, Option.map_some, if_true, Option.bind_some] at hold ⊢
    rcases List.mem_cons.mp ha with rfl | ha
    · exact OrderedMap.get?_insert_self _ _ _
    · rw [OrderedMap.get?_insert_ne _ _ (hother a ha)]
      exact hold a ha

private theorem remove (h : Enrolled config m) (htype : r.change.type = .removeNode) :
    Enrolled config (proposed m r) := by
  obtain ⟨horderly, hsame⟩ := RaftNode.settled_recordProposal h.orderly r.change
  obtain ⟨hpeers, hcalls⟩ := RaftNode.applyConfChange_remove (n := m.node.settled) htype
  have hstanding : standing (r.change :: m.answers) =
      (standing m.answers).filter fun a => a.1 ≠ r.change.nodeId := by
    rw [standing, htype]
  refine ⟨horderly, h.requests_erase r, ?_, ?_, fun hconfigured => ?_⟩
  · rw [proposed, hstanding]
    exact h.nodup.sublist (List.Sublist.map _ List.filter_sublist)
  · rw [proposed, hstanding]
    intro a ha
    obtain ⟨ha, hne⟩ := List.mem_filter.mp ha
    rw [hsame.peers, hpeers a.1 (by simpa using hne)]
    exact h.peers a ha
  · rw [proposed, hstanding]
    intro a ha
    obtain ⟨ha, _⟩ := List.mem_filter.mp ha
    have hold := h.addresses hconfigured a ha
    rw [addresses_congr config hsame.calls]
    rcases hcalls with hcalls | hcalls
    · rwa [addresses_congr config hcalls]
    · rw [addresses_called config hcalls]
      simpa [onConfChangeApplied, htype] using hold

theorem step (h : Enrolled config m) {event : Event} (hok : Unclaimed m event)
    (hs : m.step event = some m') : Enrolled config m' := by
  cases event with
  | memberAdd peerAddr =>
    cases hcc : EtcdServer.memberAdd m.node peerAddr with
    | ok cc =>
      rw [Membership.step, hcc] at hs
      exact Option.some.inj hs ▸ h.request (.inl (memberAdd_ok hcc))
    | error error =>
      rw [Membership.step, hcc] at hs
      exact Option.some.inj hs ▸ h
  | memberRemove id =>
    cases hcc : EtcdServer.memberRemove m.node id with
    | ok cc =>
      rw [Membership.step, hcc] at hs
      exact Option.some.inj hs ▸ h.request (.inr (memberRemove_ok hcc))
    | error error =>
      rw [Membership.step, hcc] at hs
      exact Option.some.inj hs ▸ h
  | propose r =>
    obtain ⟨hmem, hs⟩ := Option.ite_none_right_eq_some.mp hs
    rw [proposeMember_leader h.orderly.leads] at hs
    rcases h.requests r hmem with ⟨htype, hfirst⟩ | htype
    · exact Option.some.inj hs ▸ h.add htype hfirst hok
    · exact Option.some.inj hs ▸ h.remove htype
  | call c =>
    obtain ⟨⟨hplain, hleads⟩, hs⟩ := Option.ite_none_right_eq_some.mp hs
    obtain ⟨horderly, hsame⟩ := h.orderly.after hplain hleads
    exact Option.some.inj hs ▸ h.congr horderly hsame

end Enrolled

/-- Members added through a leader and not removed since have different ids, and once all entries
have been applied each of them is a peer with the address it was added with, as long as no addition
is proposed or applied for the first id that another one, which has not been proposed yet, has read
as free. The address needs a transport. -/
theorem member_ids_unique (config : ClusterConfig) {n : RaftNode} (h : n.Orderly) {m : Membership}
    (hrun : Run step Unclaimed { node := n } m) :
    ((standing m.answers).map Prod.fst).Nodup ∧
    (m.node.lastApplied = m.node.log.lastIndex → ∀ a ∈ standing m.answers,
      a.1 ∈ m.node.peers.keys ∧ (config.peerAddresses.keys ≠ [] →
        (addresses config m.node).bind (OrderedMap.get? · a.1) = some a.2)) := by
  have henrolled := hrun.invariant (P := Enrolled config) (fun h hok hs => h.step hok hs)
    ⟨h, by simp, List.nodup_nil, by simp [standing], by simp [standing]⟩
  refine ⟨henrolled.nodup, fun hall a ha => ?_⟩
  have hnone : m.node.pending = [] := by
    have hslots := henrolled.orderly.lastIndex_succ
    rw [RaftNode.pending, henrolled.orderly.aligned.entriesFrom henrolled.orderly.positive,
      List.drop_eq_nil_of_le (by omega)]
    rfl
  have hsettled : m.node.settled = m.node := by rw [RaftNode.settled, hnone, List.foldl_nil]
  have hpeers := henrolled.peers a ha
  have haddresses := fun hconfigured => henrolled.addresses hconfigured a ha
  rw [hsettled] at hpeers haddresses
  exact ⟨hpeers, haddresses⟩

def threeNodes : ClusterConfig where
  peerAddresses := (OrderedMap.insert ∅ 2 [50]).insert 3 [51]

def elected : RaftNode :=
  (RaftNode.ofConfig threeNodes).becomeCandidateLocked.becomeLeaderLocked

/-- A member request of the leader that adds the first id behind the members. -/
def additionRequest (id : Nat) (peerAddr : Bytes) : MemberRequest where
  change := { type := .addNode, nodeId := id, peerAddr := peerAddr }
  seen := List.range' 1 (id - 1)

/-- An additional member at the address, with what the leader goes through until its entry, the one
at the index, has been applied. -/
def addition (id : Nat) (peerAddr : Bytes) (index : Nat) : List Event :=
  [.memberAdd peerAddr, .propose (additionRequest id peerAddr),
    .call (.appendResponse 2 [] ⟨1, true, index, 0, 0⟩),
    .call (.appendResponse 3 [] ⟨1, true, index, 0, 0⟩), .call .advanceCommitIndex,
    .call .applyCommittedEntries]

/-- A second addition before the first one has been applied gets the same id, and its address is
lost. -/
theorem additions_share_id :
    ∃ m, Run step (fun _ _ => True) { node := elected } m ∧
      m.node.lastApplied = m.node.log.lastIndex ∧ standing m.answers = [(4, [98]), (4, [97])] ∧
      ¬ ((standing m.answers).map Prod.fst).Nodup ∧
      (addresses threeNodes m.node).bind (OrderedMap.get? · 4) = some [97] :=
  reachable_of_execute step (fun _ _ => True) { node := elected }
    (.memberAdd [97] :: .propose (additionRequest 4 [97]) :: addition 4 [98] 2) (by decide)

theorem member_ids_unique_twice :
    ∃ m, Run step Unclaimed { node := elected } m ∧
      standing m.answers = [(5, [98]), (4, [97])] ∧ ((standing m.answers).map Prod.fst).Nodup ∧
      (∀ a ∈ standing m.answers, a.1 ∈ m.node.peers.keys ∧
        (addresses threeNodes m.node).bind (OrderedMap.get? · a.1) = some a.2) := by
  have horderly : elected.Orderly :=
    ⟨rfl, by decide, by decide, by decide, by decide, by decide, by decide, by simp [elected]; decide⟩
  obtain ⟨m, hrun, hanswers, happlied⟩ := reachable_of_execute step Unclaimed { node := elected }
    (addition 4 [97] 1 ++ addition 5 [98] 2)
    (P := fun m => standing m.answers = [(5, [98]), (4, [97])] ∧
      m.node.lastApplied = m.node.log.lastIndex) (by decide)
  obtain ⟨hnodup, hall⟩ := member_ids_unique threeNodes horderly hrun
  exact ⟨m, hrun, hanswers, hnodup, fun a ha =>
    ⟨(hall happlied a ha).1, (hall happlied a ha).2 (by decide)⟩⟩

end Membership
end EtcdServer
end MyEtcd
