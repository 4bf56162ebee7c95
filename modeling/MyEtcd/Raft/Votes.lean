import MyEtcd.Library.Execution
import MyEtcd.Raft.Transitions

/-! The votes of one node while its process runs.
`ApplySnapshot` raises the term and leaves `voted_for_` as it is: the old vote then blocks every
other candidate of the new term, and cannot let a second one in. -/
namespace MyEtcd
open Library

/-- A vote given in a term: an answer that grants it, or the node's own candidacy. -/
structure Ballot where
  term : Nat
  candidate : Nat
  deriving DecidableEq

/-- A node, and every ballot it has cast since its process started. -/
structure Voter where
  node : RaftNode
  cast : List Ballot := []

/-- The operations that read or write `current_term_` and `voted_for_`. -/
inductive VoterCall where
  | requestVote (req : RequestVoteRequest)
  | appendEntries (req : AppendEntriesRequest)
  | becomeFollower (term : Nat)
  | becomeCandidate
  | becomeLeader
  | applySnapshot (snapshot : Snapshot)

namespace VoterCall

def Identified : VoterCall → Prop
  | requestVote req => req.candidateId ≠ 0
  | _ => True

instance (call : VoterCall) : Decidable call.Identified := by
  unfold Identified
  split <;> infer_instance

def step (v : Voter) : VoterCall → Option Voter
  | requestVote req =>
    let answer := v.node.handleRequestVote req
    some ⟨answer.2,
      if answer.1.voteGranted then ⟨answer.1.term, req.candidateId⟩ :: v.cast else v.cast⟩
  | appendEntries req => some { v with node := (v.node.handleAppendEntries req).2 }
  | becomeFollower term => some { v with node := v.node.becomeFollowerLocked term }
  | becomeCandidate =>
    let node := v.node.becomeCandidateLocked
    some ⟨node, ⟨node.currentTerm, node.nodeId⟩ :: v.cast⟩
  | becomeLeader => some { v with node := v.node.becomeLeaderLocked }
  | applySnapshot snapshot => some { v with node := v.node.applySnapshot snapshot }

end VoterCall

namespace RaftNode

/-- The part of a node's state that a change of term may leave alone: nothing, or its vote. -/
structure TermMoves (n n' : RaftNode) : Prop where
  nodeId : n'.nodeId = n.nodeId
  grows : n.currentTerm ≤ n'.currentTerm
  keepsVote : n'.currentTerm = n.currentTerm → n'.votedFor = n.votedFor

theorem TermMoves.of_eq {n n' : RaftNode} (hid : n'.nodeId = n.nodeId)
    (hterm : n'.currentTerm = n.currentTerm) (hvote : n'.votedFor = n.votedFor) :
    TermMoves n n' := ⟨hid, hterm.ge, fun _ => hvote⟩

theorem becomeFollowerLocked_termMoves (n : RaftNode) (term : Nat) :
    TermMoves n (n.becomeFollowerLocked term) := by
  rcases Nat.lt_or_ge n.currentTerm term with hlt | hle
  · rw [becomeFollowerLocked_of_lt hlt]
    exact ⟨rfl, hlt.le, fun h => absurd h hlt.ne'⟩
  · rw [becomeFollowerLocked_of_le hle]
    exact .of_eq rfl rfl rfl

theorem handleAppendEntries_termMoves (n : RaftNode) (req : AppendEntriesRequest) :
    TermMoves n (n.handleAppendEntries req).2 := by
  have hmoves := n.becomeFollowerLocked_termMoves req.term
  rcases n.handleAppendEntries_cases req with ⟨_, heq⟩ | ⟨_, ⟨_, heq⟩ | ⟨_, _, m, hm, hcases⟩⟩
  · rw [heq]
    exact .of_eq rfl rfl rfl
  · rw [heq]
    exact ⟨hmoves.nodeId, hmoves.grows, hmoves.keepsVote⟩
  · have hm' : TermMoves n m := by
      rw [hm]
      exact ⟨hmoves.nodeId, hmoves.grows, hmoves.keepsVote⟩
    rcases hcases with ⟨_, heq⟩ | ⟨_, heq⟩
    · rwa [heq]
    · have hkept := applyCommittedEntries_kept
        { m with commitIndex := min req.leaderCommit m.log.lastIndex }
      rw [heq]
      exact ⟨hkept.nodeId.symm.trans hm'.nodeId, hm'.grows.trans hkept.currentTerm.le,
        fun h => hkept.votedFor.symm.trans (hm'.keepsVote (hkept.currentTerm.trans h))⟩

theorem applySnapshot_termMoves (n : RaftNode) (snapshot : Snapshot) :
    TermMoves n (n.applySnapshot snapshot) := by
  unfold applySnapshot
  split_ifs with hold hlater
  · exact .of_eq rfl rfl rfl
  · exact ⟨rfl, hlater.le, fun _ => rfl⟩
  · exact .of_eq rfl rfl rfl

/-- A request moves the term without a vote, or the vote goes to a candidate that the node has
not chosen against; the answer then carries the term the node is in. -/
theorem handleRequestVote_ballot (n : RaftNode) (req : RequestVoteRequest) :
    ((n.handleRequestVote req).1.voteGranted = false ∧
      TermMoves n (n.handleRequestVote req).2) ∨
    ((n.handleRequestVote req).1 = ⟨req.term, true⟩ ∧ ∃ m, TermMoves n m ∧
      m.currentTerm = req.term ∧ (m.votedFor = 0 ∨ m.votedFor = req.candidateId) ∧
      (n.handleRequestVote req).2 = { m with votedFor := req.candidateId }) := by
  rcases n.handleRequestVote_cases req with ⟨_, heq⟩ | ⟨hle, m, hm, hcases⟩
  · rw [heq]
    exact .inl ⟨rfl, .of_eq rfl rfl rfl⟩
  have hmoves : TermMoves n m ∧ m.currentTerm = req.term := by
    rw [hm]
    split_ifs with hlater
    · refine ⟨n.becomeFollowerLocked_termMoves req.term, ?_⟩
      rw [becomeFollowerLocked_of_lt hlater]
    · exact ⟨.of_eq rfl rfl rfl, le_antisymm hle (not_lt.mp hlater)⟩
  rcases hcases with heq | ⟨hfree, _, heq⟩
  · rw [heq]
    exact .inl ⟨rfl, hmoves.1⟩
  · rw [heq]
    exact .inr ⟨rfl, m, hmoves.1, hmoves.2, hfree, rfl⟩

end RaftNode

namespace Voter
open RaftNode VoterCall

/-- The remembered vote answers for every ballot of the current term; later terms have none. -/
structure Remembers (v : Voter) : Prop where
  identified : v.node.nodeId ≠ 0
  reached : ∀ b ∈ v.cast, b.term ≤ v.node.currentTerm
  current : ∀ b ∈ v.cast, b.term = v.node.currentTerm →
    v.node.votedFor = b.candidate ∧ b.candidate ≠ 0
  unique : ∀ a ∈ v.cast, ∀ b ∈ v.cast, a.term = b.term → a.candidate = b.candidate

namespace Remembers
variable {v : Voter}

theorem initial {n : RaftNode} (h : n.nodeId ≠ 0) : Remembers { node := n } where
  identified := h
  reached b hb := by cases hb
  current b hb := by cases hb
  unique a ha := by cases ha

theorem move (h : Remembers v) {n : RaftNode} (hmoves : TermMoves v.node n) :
    Remembers { v with node := n } where
  identified := hmoves.nodeId ▸ h.identified
  reached b hb := (h.reached b hb).trans hmoves.grows
  current b hb hterm := by
    have hsame : n.currentTerm = v.node.currentTerm :=
      le_antisymm (hterm.symm.trans_le (h.reached b hb)) hmoves.grows
    have hnow := h.current b hb (hterm.trans hsame)
    exact ⟨(hmoves.keepsVote hsame).trans hnow.1, hnow.2⟩
  unique := h.unique

/-- A ballot of the current term for a candidate that the node has not chosen against. -/
theorem ballot (h : Remembers v) {c : Nat} (hc : c ≠ 0)
    (hfree : v.node.votedFor = 0 ∨ v.node.votedFor = c) :
    Remembers ⟨{ v.node with votedFor := c }, ⟨v.node.currentTerm, c⟩ :: v.cast⟩ := by
  have hsame : ∀ b ∈ v.cast, b.term = v.node.currentTerm → b.candidate = c := by
    intro b hb hterm
    obtain ⟨hvote, hne⟩ := h.current b hb hterm
    rcases hfree with hzero | hchosen
    · exact absurd (hvote.symm.trans hzero) hne
    · exact hvote.symm.trans hchosen
  refine ⟨h.identified, ?_, ?_, ?_⟩
  · intro b hb
    rcases List.mem_cons.mp hb with rfl | hb
    · exact le_rfl
    · exact h.reached b hb
  · intro b hb hterm
    rcases List.mem_cons.mp hb with rfl | hb
    · exact ⟨rfl, hc⟩
    · exact ⟨(hsame b hb hterm).symm, (hsame b hb hterm).symm ▸ hc⟩
  · intro a ha b hb hterm
    rcases List.mem_cons.mp ha with rfl | ha
    · rcases List.mem_cons.mp hb with rfl | hb
      · rfl
      · exact (hsame b hb hterm.symm).symm
    · rcases List.mem_cons.mp hb with rfl | hb
      · exact hsame a ha hterm
      · exact h.unique a ha b hb hterm

/-- The node's own candidacy is the first ballot of a new term. -/
theorem candidacy (h : Remembers v) :
    Remembers ⟨v.node.becomeCandidateLocked,
      ⟨v.node.currentTerm + 1, v.node.nodeId⟩ :: v.cast⟩ := by
  have hmoved : Remembers { v with node :=
      { v.node.becomeCandidateLocked with votedFor := 0 } } :=
    h.move ⟨rfl, Nat.le_succ _, fun heq => absurd heq (Nat.succ_ne_self _)⟩
  exact hmoved.ballot h.identified (.inl rfl)

end Remembers

/-- One call: the term does not go back, and the remembered vote stays in step. -/
theorem step_remembers {v v' : Voter} {call : VoterCall} (h : Remembers v)
    (hid : call.Identified) (hstep : call.step v = some v') :
    v.node.currentTerm ≤ v'.node.currentTerm ∧ Remembers v' := by
  cases call with
  | requestVote req =>
    rcases v.node.handleRequestVote_ballot req with
      ⟨hrefused, hmoves⟩ | ⟨hgranted, m, hmoves, hterm, hfree, heq⟩
    · rw [VoterCall.step, hrefused] at hstep
      obtain rfl := Option.some.inj hstep
      exact ⟨hmoves.grows, h.move hmoves⟩
    · rw [VoterCall.step, hgranted, heq] at hstep
      obtain rfl := Option.some.inj hstep
      refine ⟨hmoves.grows, ?_⟩
      have hcast := (h.move hmoves).ballot hid hfree
      rwa [hterm] at hcast
  | appendEntries req =>
    obtain rfl := Option.some.inj hstep
    have hmoves := v.node.handleAppendEntries_termMoves req
    exact ⟨hmoves.grows, h.move hmoves⟩
  | becomeFollower term =>
    obtain rfl := Option.some.inj hstep
    have hmoves := v.node.becomeFollowerLocked_termMoves term
    exact ⟨hmoves.grows, h.move hmoves⟩
  | becomeCandidate =>
    obtain rfl := Option.some.inj hstep
    exact ⟨Nat.le_succ _, h.candidacy⟩
  | becomeLeader =>
    obtain rfl := Option.some.inj hstep
    exact ⟨le_rfl, h.move (.of_eq rfl rfl rfl)⟩
  | applySnapshot snapshot =>
    obtain rfl := Option.some.inj hstep
    have hmoves := v.node.applySnapshot_termMoves snapshot
    exact ⟨hmoves.grows, h.move hmoves⟩

/-- Whatever calls a node takes, its term only grows, what it grants carries its term, and all its
ballots of one term name one candidate. -/
theorem one_candidate_a_term {n : RaftNode} (hid : n.nodeId ≠ 0) {v w : Voter}
    (hv : Run VoterCall.step (fun _ call => call.Identified) { node := n } v)
    (hw : Run VoterCall.step (fun _ call => call.Identified) v w) :
    v.node.currentTerm ≤ w.node.currentTerm ∧
    (∀ req, (v.node.handleRequestVote req).1.voteGranted = true →
      (v.node.handleRequestVote req).1.term = (v.node.handleRequestVote req).2.currentTerm) ∧
    ∀ a ∈ w.cast, ∀ b ∈ w.cast, a.term = b.term → a.candidate = b.candidate := by
  have hstart : Remembers v :=
    hv.invariant (fun h hok hstep => (step_remembers h hok hstep).2) (.initial hid)
  have hlater : v.node.currentTerm ≤ w.node.currentTerm ∧ Remembers w := by
    refine hw.invariant (P := fun u => v.node.currentTerm ≤ u.node.currentTerm ∧ Remembers u)
      (fun h hok hstep => ?_) ⟨le_rfl, hstart⟩
    have hnext := step_remembers h.2 hok hstep
    exact ⟨h.1.trans hnext.1, hnext.2⟩
  refine ⟨hlater.1, fun req hgranted => ?_, hlater.2.unique⟩
  rcases v.node.handleRequestVote_ballot req with ⟨hrefused, _⟩ | ⟨hanswer, m, _, hterm, _, heq⟩
  · rw [hrefused] at hgranted
    cases hgranted
  · rw [hanswer, heq]
    exact hterm.symm

/-- A vote, a snapshot that raises the term past it, a refused and a granted request of that term. -/
theorem one_candidate_a_term_past_snapshot :
    ∃ w, Run VoterCall.step (fun _ call => call.Identified) { node := RaftNode.ofConfig {} } w ∧
      w.cast = [⟨7, 2⟩, ⟨5, 2⟩] ∧
      ∀ a ∈ w.cast, ∀ b ∈ w.cast, a.term = b.term → a.candidate = b.candidate := by
  obtain ⟨w, hw, hcast⟩ := reachable_of_execute VoterCall.step (fun _ call => call.Identified)
    { node := RaftNode.ofConfig {} }
    [.requestVote ⟨5, 2, 0, 0⟩, .applySnapshot { lastIndex := 3, lastTerm := 7 },
      .requestVote ⟨7, 3, 9, 7⟩, .requestVote ⟨7, 2, 9, 7⟩]
    (P := fun w => w.cast = [⟨7, 2⟩, ⟨5, 2⟩]) (by decide)
  exact ⟨w, hw, hcast, (one_candidate_a_term (by decide) .start hw).2.2⟩

end Voter
end MyEtcd
