import MyEtcd.Raft.Delivery

/-! The indices a leader gives out, and what becomes of the proposals behind them.
A batched proposal gets its index before it is in the log; a direct proposal that comes before the
flush takes the same index. -/
namespace MyEtcd
open Library

namespace RaftLog

/-- The log has the proposal at the index that was given out for it. -/
def Has (log : RaftLog) (proposal : Nat × RaftEntry) : Prop :=
  ∃ term, log.entryAt proposal.1 = some { proposal.2 with term := term, index := proposal.1 }

theorem has_iff {log : RaftLog} {proposal : Nat × RaftEntry} : log.Has proposal ↔
    ∃ e ∈ log.entryAt proposal.1, e = { proposal.2 with term := e.term, index := proposal.1 } := by
  constructor
  · rintro ⟨term, hheld⟩
    exact ⟨_, hheld, rfl⟩
  · rintro ⟨e, hheld, heq⟩
    exact ⟨e.term, heq ▸ hheld⟩

instance (log : RaftLog) (proposal : Nat × RaftEntry) : Decidable (log.Has proposal) :=
  decidable_of_iff _ has_iff.symm

theorem Has.append {log : RaftLog} {proposal : Nat × RaftEntry} (h : log.Has proposal)
    (entries : List RaftEntry) :
    RaftLog.Has { log with entries := log.entries ++ entries } proposal := by
  obtain ⟨term, hheld⟩ := h
  obtain ⟨hfirst, hslot⟩ := entryAt_eq_some.mp hheld
  have hlt := (List.getElem?_eq_some_iff.mp hslot).1
  exact ⟨term, entryAt_eq_some.mpr ⟨hfirst, by rwa [List.getElem?_append_left hlt]⟩⟩

/-- Entries behind a ready log stand at the indices after its last one. -/
theorem Ready.entryAt_append {log : RaftLog} (hready : log.Ready) (h : log.Aligned)
    (entries : List RaftEntry) (k : Nat) :
    RaftLog.entryAt { log with entries := log.entries ++ entries } (log.lastIndex + 1 + k) =
      entries[k]? := by
  have hnext := hready.lastIndex_succ h
  rw [entryAt, if_neg (by dsimp only; omega), List.getElem?_append_right (by dsimp only; omega)]
  congr 1
  dsimp only
  omega

end RaftLog

namespace RaftNode

/-- The index a call is answered with when it accepts a proposal, and the proposal. -/
def accepts (n : RaftNode) : Call → Option (Nat × RaftEntry)
  | .propose entry => (n.propose entry).1.toOption.map (·, entry)
  | .proposeBatch entry => (n.proposeBatch entry).1.toOption.map (·, entry)
  | .proposeConfChange cc =>
    (n.proposeConfChange cc).1.toOption.map (·, { type := .confChange, confChange := cc })
  | _ => none

/-- A node, the proposals it has accepted since it last took office, and those of them that were
followed by a flush. -/
structure Tenure where
  node : RaftNode
  accepted : List (Nat × RaftEntry) := []
  flushed : List (Nat × RaftEntry) := []

namespace Tenure

/-- One call. Who leaves office has accepted nothing. -/
def step (t : Tenure) (c : Call) : Option Tenure :=
  (t.node.serve c).map fun n =>
    if n.state = .leader then
      { node := n
        accepted := (t.node.accepts c).toList ++ t.accepted
        flushed := match c with
          | .flushBatch => t.accepted
          | _ => t.flushed }
    else { node := n }

/-- Indices are given out on a ready log, and none directly while a batch is buffered. -/
def Direct (t : Tenure) (c : Call) : Prop :=
  Numbers t.node c ∧ match c with
    | .propose _ | .proposeConfChange _ => t.node.state = .leader → t.node.batchBuffer = []
    | _ => True

instance (t : Tenure) (c : Call) : Decidable (Direct t c) :=
  match c with
  | .propose entry => inferInstanceAs (Decidable (Numbers t.node (.propose entry) ∧
      (t.node.state = .leader → t.node.batchBuffer = [])))
  | .proposeConfChange cc => inferInstanceAs (Decidable (Numbers t.node (.proposeConfChange cc) ∧
      (t.node.state = .leader → t.node.batchBuffer = [])))
  | .becomeFollower _ | .becomeCandidate | .becomeLeader | .proposeBatch _ | .flushBatch
  | .handleRequestVote _ | .handleAppendEntries _ | .appendResponse _ _ _ | .advanceCommitIndex
  | .applyCommittedEntries => inferInstanceAs (Decidable (Numbers t.node _ ∧ True))

/-- Where an accepted proposal is: in the log, or in the buffer where the next flush takes it to its
index. -/
def Placed (n : RaftNode) (proposal : Nat × RaftEntry) : Prop :=
  n.log.Has proposal ∨ ∃ k term, proposal.1 = n.log.lastIndex + 1 + k ∧
    n.batchBuffer[k]? = some { proposal.2 with term := term, index := proposal.1 }

/-- What holds of the proposals of a tenure. -/
structure Kept (base : Nat) (t : Tenure) : Prop where
  based : t.node.log.Based base
  vacant : t.node.state ≠ .leader → t.accepted = [] ∧ t.flushed = []
  nodup : (t.accepted.map Prod.fst).Nodup
  placed : ∀ a ∈ t.accepted, Placed t.node a
  flushed : ∀ a ∈ t.flushed, t.node.log.Has a

theorem Placed.index_le {n : RaftNode} {base : Nat} (h : n.log.Based base)
    {a : Nat × RaftEntry} (ha : Placed n a) : a.1 ≤ n.log.lastIndex + n.batchBuffer.length := by
  rcases ha with ⟨_, hheld⟩ | ⟨k, _, hindex, hslot⟩
  · exact (h.aligned.entryAt_lastIndex hheld).1.trans (Nat.le_add_right _ _)
  · have := (List.getElem?_eq_some_iff.mp hslot).1
    omega

/-- With nothing buffered every accepted proposal is in the log. -/
theorem Placed.has {n : RaftNode} (hempty : n.batchBuffer = []) {a : Nat × RaftEntry}
    (ha : Placed n a) : n.log.Has a := by
  rcases ha with hheld | ⟨k, _, _, hslot⟩
  · exact hheld
  · simp [hempty] at hslot

namespace Kept
variable {base : Nat} {t : Tenure}

private theorem unmoved (h : Kept base t) {n : RaftNode} (hleads : n.state = .leader)
    (hlog : n.log = t.node.log) (hbatch : n.batchBuffer = t.node.batchBuffer) :
    Kept base ⟨n, t.accepted, t.flushed⟩ where
  based := hlog.symm ▸ h.based
  vacant hno := absurd hleads hno
  nodup := h.nodup
  placed a ha := by
    dsimp only
    rw [Placed, hlog, hbatch]
    exact h.placed a ha
  flushed a ha := by
    dsimp only
    rw [hlog]
    exact h.flushed a ha

private theorem fresh (h : Kept base t) :
    t.node.log.lastIndex + 1 + t.node.batchBuffer.length ∉ t.accepted.map Prod.fst := by
  intro hmem
  obtain ⟨a, ha, heq⟩ := List.mem_map.mp hmem
  have := (h.placed a ha).index_le h.based
  omega

private theorem recordProposal (h : Kept base t) (hleads : t.node.state = .leader)
    (hready : t.node.log.Ready) (hempty : t.node.batchBuffer = []) (entry : RaftEntry) (term : Nat) :
    Kept base ⟨t.node.recordProposal { entry with term := term, index := t.node.log.lastIndex + 1 },
      (t.node.log.lastIndex + 1, entry) :: t.accepted, t.flushed⟩ where
  based := h.based.append hready rfl
  vacant hno := absurd hleads hno
  nodup := by
    have hfresh := h.fresh
    rw [hempty] at hfresh
    exact List.nodup_cons.mpr ⟨hfresh, h.nodup⟩
  placed a ha := by
    rcases List.mem_cons.mp ha with rfl | ha
    · exact .inl ⟨term, hready.entryAt_append h.based.aligned _ 0⟩
    · exact .inl (((h.placed a ha).has hempty).append _)
  flushed a ha := (h.flushed a ha).append _

private theorem proposeBatch (h : Kept base t) (hleads : t.node.state = .leader)
    (entry : RaftEntry) (term : Nat) :
    Kept base ⟨{ t.node with
        batchBuffer := t.node.batchBuffer ++ [{ entry with
          term := term
          index := t.node.log.lastIndex + 1 + t.node.batchBuffer.length }] },
      (t.node.log.lastIndex + 1 + t.node.batchBuffer.length, entry) :: t.accepted, t.flushed⟩ where
  based := h.based
  vacant hno := absurd hleads hno
  nodup := List.nodup_cons.mpr ⟨h.fresh, h.nodup⟩
  placed a ha := by
    rcases List.mem_cons.mp ha with rfl | ha
    · exact .inr ⟨t.node.batchBuffer.length, term, rfl, List.getElem?_concat_length⟩
    · rcases h.placed a ha with hheld | ⟨k, term', hindex, hslot⟩
      · exact .inl hheld
      · have hlt := (List.getElem?_eq_some_iff.mp hslot).1
        exact .inr ⟨k, term', hindex, by
          dsimp only
          rwa [List.getElem?_append_left hlt]⟩
  flushed a ha := h.flushed a ha

private theorem flushBatch (h : Kept base t) (hleads : t.node.state = .leader)
    (hready : t.node.batchBuffer ≠ [] → t.node.log.Ready) :
    Kept base ⟨t.node.flushBatch, t.accepted, t.accepted⟩ := by
  rcases t.node.flushBatch_cases with ⟨hempty, heq⟩ | ⟨hne, heq⟩
  · rw [heq]
    exact ⟨h.based, fun hno => absurd hleads hno, h.nodup, h.placed,
      fun a ha => (h.placed a ha).has hempty⟩
  have happend := h.based.appendAll_eq (hready hne) t.node.renumberedBatch_contiguous
  have hplaced (a : Nat × RaftEntry) (ha : a ∈ t.accepted) :
      (t.node.log.appendAll t.node.renumberedBatch).Has a := by
    rw [happend]
    rcases h.placed a ha with hheld | ⟨k, term, hindex, hslot⟩
    · exact hheld.append _
    · refine ⟨term, ?_⟩
      rw [hindex, (hready hne).entryAt_append h.based.aligned, renumberedBatch,
        List.getElem?_mapIdx, hslot]
      rfl
  rw [heq]
  exact ⟨h.based.appendAll (hready hne) t.node.renumberedBatch_contiguous,
    fun hno => absurd hleads hno, h.nodup, fun a ha => .inl (hplaced a ha), hplaced⟩

/-- One call within the condition keeps every accepted proposal at its index. -/
theorem step (h : Kept base t) {c : Call} (hok : Direct t c) {t' : Tenure}
    (hs : t.step c = some t') : Kept base t' := by
  obtain ⟨n, hserve, rfl⟩ := Option.map_eq_some_iff.mp hs
  have hbased := serve_based h.based hok.1 hserve
  split_ifs with hleads
  · cases c with
    | propose entry =>
      obtain rfl : (t.node.propose entry).2 = n := Option.some.inj hserve
      rcases t.node.propose_cases entry with ⟨hno, heq⟩ | ⟨hled, e, rfl, hindex, heq⟩
      · rw [heq] at hleads
        exact absurd hleads hno
      · have hnext := h.recordProposal hled (hok.1 hled) (hok.2 hled) entry t.node.currentTerm
        simp only [accepts, hindex, heq]
        exact hnext
    | proposeConfChange cc =>
      obtain rfl : (t.node.proposeConfChange cc).2 = n := Option.some.inj hserve
      rcases t.node.proposeConfChange_cases cc with ⟨hno, heq⟩ | ⟨hled, e, rfl, hindex, heq⟩
      · rw [heq] at hleads
        exact absurd hleads hno
      · have hnext := h.recordProposal hled (hok.1 hled) (hok.2 hled)
          { type := .confChange, confChange := cc } t.node.currentTerm
        simp only [accepts, hindex, heq]
        exact hnext
    | proposeBatch entry =>
      obtain rfl : (t.node.proposeBatch entry).2 = n := Option.some.inj hserve
      rcases t.node.proposeBatch_cases entry with ⟨hno, heq⟩ | ⟨hled, e, rfl, hindex, heq⟩
      · rw [heq] at hleads
        exact absurd hleads hno
      · have hnext := h.proposeBatch hled entry t.node.currentTerm
        simp only [accepts, hindex, heq]
        exact hnext
    | flushBatch =>
      obtain rfl : t.node.flushBatch = n := Option.some.inj hserve
      have hled : t.node.state = .leader := by
        rcases t.node.flushBatch_cases with ⟨_, heq⟩ | ⟨_, heq⟩
        · rwa [heq] at hleads
        · rwa [heq] at hleads
      exact h.flushBatch hled hok.1
    | handleAppendEntries req =>
      obtain ⟨_, hserve⟩ := Option.ite_none_right_eq_some.mp hserve
      obtain rfl : (t.node.handleAppendEntries req).2 = n := Option.some.inj hserve
      have hsame := handleAppendEntries_of_leader hleads
      exact h.unmoved hleads (congrArg log hsame) (congrArg batchBuffer hsame)
    | _ => exact h.unmoved hleads (serve_quiet hserve trivial).1 (serve_quiet hserve trivial).2
  · exact ⟨hbased, fun _ => ⟨rfl, rfl⟩, List.nodup_nil, by simp, by simp⟩

end Kept

def start (config : ClusterConfig) (snapshot : Option Snapshot) : Tenure :=
  { node := ofSnapshot config snapshot }

/-- While a node leads, no two proposals it accepts get the same index, and a proposal that a flush
has followed stands in the log at its index, as long as indices are given out on a ready log and
nothing is proposed directly while a batch is buffered. -/
theorem accepted_keep_index (config : ClusterConfig) (snapshot : Option Snapshot) {t : Tenure}
    (hrun : Run step Direct (start config snapshot) t) :
    (t.accepted.map Prod.fst).Nodup ∧ ∀ a ∈ t.flushed, t.node.log.Has a := by
  have h := hrun.invariant
    (P := Kept ((snapshot.map Snapshot.lastIndex).getD 0)) (fun h hok hs => h.step hok hs)
    ⟨(Delivered.ofSnapshot config snapshot).based, fun _ => ⟨rfl, rfl⟩, List.nodup_nil,
      by simp [start], by simp [start]⟩
  exact ⟨h.nodup, h.flushed⟩

/-- A proposal is batched, another one is made directly, and the batch is flushed. -/
theorem batched_and_direct_collide : ∃ t, Run step (fun _ _ => True) (start {} none) t ∧
    t.node.state = .leader ∧ ¬ (t.accepted.map Prod.fst).Nodup ∧
    ∃ a ∈ t.flushed, ¬ t.node.log.Has a :=
  reachable_of_execute step (fun _ _ => True) (start {} none)
    [.becomeCandidate, .becomeLeader, .proposeBatch { key := [1] }, .propose { key := [2] },
      .flushBatch] (by decide)

theorem accepted_keep_index_flushed : ∃ t, Run step Direct (start {} none) t ∧
    t.flushed.length = 2 ∧ (t.accepted.map Prod.fst).Nodup ∧ ∀ a ∈ t.flushed, t.node.log.Has a := by
  obtain ⟨t, hrun, hlength⟩ := reachable_of_execute step Direct (start {} none)
    [.becomeCandidate, .becomeLeader, .propose { key := [1] }, .proposeBatch { key := [2] },
      .flushBatch, .propose { key := [3] }] (P := fun t => t.flushed.length = 2) (by decide)
  exact ⟨t, hrun, hlength, accepted_keep_index {} none hrun⟩

end Tenure
end RaftNode
end MyEtcd
