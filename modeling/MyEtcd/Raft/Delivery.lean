import MyEtcd.Raft.Service

/-! What a node hands to `ready_handler_`, over any run after its start.
`ApplyCommittedEntries` moves `last_applied_` to the commit index, also where the log is shorter. -/
namespace MyEtcd
open Library

namespace RaftNode

/-- Indices are given out only on a ready log, received entries are numbered one after another, and
what is committed is applied only where the log holds it. -/
def Deliverable (n : RaftNode) (c : Call) : Prop :=
  Numbers n c ∧ match c with
    | .handleAppendEntries req => RaftLog.Successive req.entries
    | .applyCommittedEntries => n.commitIndex ≤ n.lastApplied ∨ n.commitIndex ≤ n.log.lastIndex
    | _ => True

instance (n : RaftNode) (c : Call) : Decidable (Deliverable n c) :=
  match c with
  | .handleAppendEntries req =>
    inferInstanceAs (Decidable (Numbers n (.handleAppendEntries req) ∧ RaftLog.Successive req.entries))
  | .applyCommittedEntries =>
    inferInstanceAs (Decidable (Numbers n .applyCommittedEntries ∧
      (n.commitIndex ≤ n.lastApplied ∨ n.commitIndex ≤ n.log.lastIndex)))
  | .becomeFollower _ | .becomeCandidate | .becomeLeader | .propose _ | .proposeConfChange _
  | .proposeBatch _ | .flushBatch | .handleRequestVote _ | .appendResponse _ _ _
  | .advanceCommitIndex => inferInstanceAs (Decidable (Numbers n _ ∧ True))

/-- Everything after the snapshot up to `lastApplied` has been delivered in order. -/
structure Delivered (n : RaftNode) (base : Nat) : Prop where
  based : n.log.Based base
  applied : base ≤ n.lastApplied
  delivered : n.delivered.map RaftEntry.index = List.range' (base + 1) (n.lastApplied - base)

namespace Delivered
variable {n n' : RaftNode} {base : Nat}

theorem ofSnapshot (config : ClusterConfig) (snapshot : Option Snapshot) :
    Delivered (.ofSnapshot config snapshot) ((snapshot.map Snapshot.lastIndex).getD 0) := by
  cases snapshot with
  | none => exact ⟨⟨RaftLog.aligned_empty 1, Nat.one_pos, le_rfl, fun _ => rfl⟩, le_rfl, rfl⟩
  | some snapshot =>
    rw [ofSnapshot_some]
    refine ⟨.restore (ofConfig config).log _, le_rfl, ?_⟩
    simp [RaftNode.delivered, ofConfig]

theorem congr (h : Delivered n base) (hbased : n'.log.Based base)
    (happlied : n'.lastApplied = n.lastApplied) (hdelivered : n'.delivered = n.delivered) :
    Delivered n' base :=
  ⟨hbased, happlied ▸ h.applied, by rw [happlied, hdelivered]; exact h.delivered⟩

theorem applyCommittedEntries (h : Delivered n base)
    (hstored : n.commitIndex ≤ n.lastApplied ∨ n.commitIndex ≤ n.log.lastIndex) :
    Delivered n.applyCommittedEntries base := by
  obtain ⟨hdelivered, happlied⟩ := n.applyCommittedEntries_delivered
  have hbase := h.applied
  refine ⟨n.applyCommittedEntries_kept.log ▸ h.based, by omega, ?_⟩
  rw [hdelivered, happlied]
  split_ifs with hmore
  · have hreach := hstored.resolve_left (not_le.mpr hmore)
    have hne : n.log.entries ≠ [] := by
      intro hnil
      rw [RaftLog.lastIndex_of_empty hnil] at hreach
      omega
    have hlast := h.based.aligned.lastIndex_succ hne
    have hfirst := h.based.first
    have hlength := h.based.aligned.slice_length h.based.positive
      (n.lastApplied + 1) (n.commitIndex + 1)
    have hslice := h.based.aligned.slice_contiguous (n.lastApplied + 1) (n.commitIndex + 1)
    rw [RaftLog.contiguous_iff_map, hlength] at hslice
    rw [List.map_append, h.delivered, hslice]
    have hstart : max (n.lastApplied + 1) n.log.firstIndex =
        base + 1 + 1 * (n.lastApplied - base) := by omega
    rw [hstart, List.range'_append]
    congr 1
    omega
  · rw [List.append_nil, h.delivered]
    congr 1
    omega

theorem after (h : Delivered n base) {c : Call} (hok : Deliverable n c) :
    Delivered (n.after c) base := by
  have hserve : n.serve c = some (n.after c) := by
    cases c with
    | handleAppendEntries req => exact if_pos hok.2
    | _ => rfl
  have hbased := serve_based h.based hok.1 hserve
  obtain ⟨m, heq | ⟨heq, hstored⟩, _, _, hcalls, happlied⟩ := n.after_cases c
  · rw [heq] at hbased ⊢
    exact h.congr hbased happlied (congrArg List.flatten hcalls)
  · rw [heq] at hbased ⊢
    rw [← m.applyCommittedEntries_kept.log] at hbased
    refine applyCommittedEntries (h.congr hbased happlied (congrArg List.flatten hcalls)) ?_
    rcases hstored with ⟨rfl, rfl⟩ | ⟨_, hstored⟩
    · exact hok.2
    · exact .inr hstored

end Delivered

/-- The entries delivered over a run are those after the snapshot up to `lastApplied`, each once
and in order, as long as indices are given out on a ready log, received entries are numbered one
after another and only stored entries are applied. -/
theorem delivered_in_order (config : ClusterConfig) (snapshot : Option Snapshot) {n : RaftNode}
    (hrun : Run (fun n c => some (n.after c)) Deliverable (ofSnapshot config snapshot) n) :
    (snapshot.map Snapshot.lastIndex).getD 0 ≤ n.lastApplied ∧
    n.delivered.map RaftEntry.index =
      List.range' ((snapshot.map Snapshot.lastIndex).getD 0 + 1)
        (n.lastApplied - (snapshot.map Snapshot.lastIndex).getD 0) := by
  have h := hrun.invariant (P := fun n => Delivered n ((snapshot.map Snapshot.lastIndex).getD 0))
    (fun h hok hs => Option.some.inj hs ▸ h.after hok) (.ofSnapshot config snapshot)
  exact ⟨h.applied, h.delivered⟩

def upToFive : Snapshot := { lastIndex := 5, lastTerm := 1 }

/-- A restored node alone in its cluster proposes six times and applies what it commits. -/
def sixProposals : List Call :=
  [.becomeCandidate, .becomeLeader, .propose {}, .propose {}, .propose {}, .propose {}, .propose {},
    .propose {}, .advanceCommitIndex, .applyCommittedEntries]

/-- Between commit and apply, a leader of term 2 takes one of two committed entries away. -/
def overtaken : List Call :=
  [.becomeCandidate, .becomeLeader, .propose {}, .propose {}, .advanceCommitIndex,
    .handleAppendEntries ⟨2, 2, 0, 0, [{ term := 1, index := 1 }], 0⟩, .applyCommittedEntries]

/-- A follower receives and applies entries that are not numbered one after another. -/
def scattered : List Call :=
  [.handleAppendEntries ⟨1, 2, 0, 0, [{ term := 1, index := 1 }, { term := 1, index := 3 }], 3⟩]

/-- The first proposal is delivered for index 6; index 2 is counted as applied and never delivered,
after its entry has been taken away or where it has not been sent. -/
theorem delivers_out_of_order :
    (∃ n, Run (fun n c => some (n.after c)) (fun _ _ => True) (ofSnapshot {} (some upToFive)) n ∧
      n.lastApplied = 6 ∧ n.delivered.map RaftEntry.index = [1]) ∧
    (∃ n, Run (fun n c => some (n.after c)) (fun _ _ => True) (ofSnapshot {} none) n ∧
      n.lastApplied = 2 ∧ n.delivered.map RaftEntry.index = [1]) ∧
    ∃ n, Run (fun n c => some (n.after c)) (fun _ _ => True) (ofSnapshot {} none) n ∧
      n.lastApplied = 3 ∧ n.delivered.map RaftEntry.index = [1, 3] :=
  ⟨reachable_of_execute _ (fun _ _ => True) (ofSnapshot {} (some upToFive)) sixProposals (by decide),
    reachable_of_execute _ (fun _ _ => True) (ofSnapshot {} none) overtaken (by decide),
    reachable_of_execute _ (fun _ _ => True) (ofSnapshot {} none) scattered (by decide)⟩

/-- A restored node receives two entries with one of them committed, then takes office and commits
both and a third of its own. -/
theorem delivered_in_order_restored :
    ∃ n, Run (fun n c => some (n.after c)) Deliverable (ofSnapshot {} (some upToFive)) n ∧
      n.lastApplied = 8 ∧ n.delivered.map RaftEntry.index = [6, 7, 8] := by
  obtain ⟨n, hrun, happlied⟩ := reachable_of_execute (fun n c => some (n.after c)) Deliverable
    (ofSnapshot {} (some upToFive))
    [.handleAppendEntries ⟨1, 2, 5, 0, [{ term := 1, index := 6 }, { term := 1, index := 7 }], 6⟩,
      .becomeCandidate, .becomeLeader, .propose {}, .advanceCommitIndex, .applyCommittedEntries]
    (P := fun n => n.lastApplied = 8) (by decide)
  refine ⟨n, hrun, happlied, ?_⟩
  rw [(delivered_in_order {} (some upToFive) hrun).2, happlied]
  rfl

end RaftNode
end MyEtcd
