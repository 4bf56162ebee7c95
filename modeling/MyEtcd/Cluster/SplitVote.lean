import MyEtcd.Cluster.Durability
import MyEtcd.Raft.Votes
import MyEtcd.Raft.Worker

/-! A vote that is split among all members is never settled.
A candidate that has lost an election starts the next one in the same term, so once all members are
candidates of one term, no message and no timeout changes anything any more. -/
namespace MyEtcd
open Library Library.Consensus

namespace RaftNode
variable {n n' : RaftNode}

/-- The term does not fall, and who is a candidate was one in that term, with the same vote. -/
structure Stands (n n' : RaftNode) : Prop extends Yields n n' where
  vote : n'.state = .candidate → n.votedFor ≠ 0 → n'.votedFor = n.votedFor

theorem stands_handleRequestVote (n : RaftNode) (req : RequestVoteRequest) :
    Stands n (n.handleRequestVote req).2 := by
  refine ⟨.handleRequestVote n req, fun hstate hvoted => ?_⟩
  rcases n.handleRequestVote_cases req with ⟨_, heq⟩ | ⟨_, m, hm, hcases⟩
  · rw [heq]
  have hsame : m.state = .candidate → m = n := by
    rw [hm]
    split_ifs with hlater
    · rw [becomeFollowerLocked_of_lt hlater]
      exact fun hc => by cases hc
    · exact fun _ => rfl
  rcases hcases with heq | ⟨hfree, _, heq⟩
  · rw [heq] at hstate ⊢
    rw [hsame hstate]
  · rw [heq] at hstate ⊢
    rw [hsame hstate] at hfree
    exact (hfree.resolve_left hvoted).symm

theorem stands_after (n : RaftNode) {c : Call} (hc : c ≠ .becomeCandidate) : Stands n (n.after c) := by
  cases c with
  | becomeCandidate => exact absurd rfl hc
  | becomeFollower term => exact ⟨.becomeFollowerLocked n term, fun hstate => by cases hstate⟩
  | becomeLeader => exact ⟨.becomeLeaderLocked n, fun hstate => by cases hstate⟩
  | handleRequestVote req => exact n.stands_handleRequestVote req
  | handleAppendEntries req =>
    have hyields := Yields.handleAppendEntries n req
    exact ⟨hyields, fun hstate _ =>
      (n.handleAppendEntries_termMoves req).keepsVote (hyields.candidate hstate).2⟩
  | flushBatch =>
    refine ⟨.flushBatch n, fun _ _ => ?_⟩
    rcases n.flushBatch_cases with ⟨_, heq⟩ | ⟨_, heq⟩ <;> rw [after, heq]
  | appendResponse peer entries resp =>
    refine ⟨.appendResponse n peer entries resp, fun hstate _ => ?_⟩
    rcases n.appendResponse_cases peer entries resp with ⟨_, heq⟩ | ⟨_, _, _, heq⟩
    · rw [after, heq] at hstate
      cases hstate
    · rw [after, heq]
  | advanceCommitIndex =>
    refine ⟨.advanceCommitIndex n, fun _ _ => ?_⟩
    obtain ⟨_, heq⟩ := n.advanceCommitIndex_kept
    rw [after, heq]
  | applyCommittedEntries =>
    exact ⟨.applyCommittedEntries n, fun _ _ => n.applyCommittedEntries_kept.votedFor.symm⟩
  | propose entry =>
    refine ⟨.after n rfl, fun _ _ => ?_⟩
    rcases n.propose_cases entry with ⟨_, heq⟩ | ⟨_, _, _, _, heq⟩ <;> rw [after, heq]
    rfl
  | proposeBatch entry =>
    refine ⟨.after n rfl, fun _ _ => ?_⟩
    rcases n.proposeBatch_cases entry with ⟨_, heq⟩ | ⟨_, _, _, _, heq⟩ <;> rw [after, heq]
  | proposeConfChange cc =>
    refine ⟨.after n rfl, fun _ _ => ?_⟩
    rcases n.proposeConfChange_cases cc with ⟨_, heq⟩ | ⟨_, _, _, _, heq⟩ <;> rw [after, heq]
    rfl

/-- What the node did in a term belongs to the past: a candidate has done nothing yet in its term. -/
def Past (n : RaftNode) (term : Nat) : Prop :=
  term ≤ n.currentTerm ∧ (n.state = .candidate → term < n.currentTerm)

theorem Past.stands {term : Nat} (h : n.Past term) (hstands : Stands n n') : n'.Past term := by
  refine ⟨h.1.trans hstands.term, fun hstate => ?_⟩
  obtain ⟨hbefore, hterm⟩ := hstands.candidate hstate
  exact hterm ▸ h.2 hbefore

end RaftNode

namespace Cluster
variable {addresses : OrderedMap Nat Bytes} {s s' : Cluster} {i : Nat}

/-- Only a timeout makes a candidate. -/
theorem step_stands {a : Action} (hs : step addresses s a = some s') (ha : ∀ i, a ≠ .timeout i)
    (j : Nat) : (s.node j).Stands (s'.node j) := by
  have hset {i : Nat} {n : RaftNode} (c : RaftNode.Call) (hc : c ≠ .becomeCandidate)
      (hn : n = (s.node i).after c) : (s.node j).Stands ((s.setNode i n).node j) := by
    rcases eq_or_ne j i with rfl | hj
    · simpa [setNode, hn] using (s.node j).stands_after hc
    · simpa [setNode, hj] using ⟨.refl _, fun _ _ => rfl⟩
  cases step_cases hs with
  | timeout => exact absurd rfl (ha _)
  | winAlone => exact hset .becomeLeader (by simp) rfl
  | deposed => exact hset (.becomeFollower _) (by simp) rfl
  | win => exact hset .becomeLeader (by simp) rfl
  | beginHeartbeat => exact hset .flushBatch (by simp) rfl
  | recvAppend => exact hset (.appendResponse _ _ _) (by simp) rfl
  | advance => exact hset .advanceCommitIndex (by simp) rfl
  | apply => exact hset .applyCommittedEntries (by simp) rfl
  | handleVote => exact hset (.handleRequestVote _) (by simp) rfl
  | handleAppend => exact hset (.handleAppendEntries _) (by simp) rfl
  | propose => exact hset (.propose _) (by simp) rfl
  | proposeBatch => exact hset (.proposeBatch _) (by simp) rfl
  | flushBatch => exact hset .flushBatch (by simp) rfl
  | _ => exact ⟨.refl _, fun _ _ => rfl⟩

/-- More votes than the candidate's own come from answers to the request it counts them for. -/
def Tallied (s : Cluster) (i : Nat) (req : RequestVoteRequest) (votes : Nat) : Prop :=
  votes ≤ 1 ∨ ∃ r ∈ s.voteReplies, r.2.voteGranted = true ∧ ∃ call, s.voteCalls[r.1]? = some call ∧
    call.source = i ∧ call.request = req

/-- A candidate's thread asks in the candidate's term, and does not send entries. -/
def Polling (s : Cluster) (i : Nat) : RunPoint → Prop
  | .loop | .election => True
  | .collecting req votes _ | .awaitVote req votes _ _ => req.term ≤ (s.node i).currentTerm ∧
    ((s.node i).state = .candidate → req.term = (s.node i).currentTerm) ∧ Tallied s i req votes
  | _ => (s.node i).state ≠ .candidate

/-- What candidates have and have not done in their term, in whatever run. -/
structure Ballots (addresses : OrderedMap Nat Bytes) (s : Cluster) : Prop where
  routed : Routed addresses s
  candidate : ∀ i, (s.node i).state = .candidate →
    i ∈ addresses.keys ∧ (s.node i).votedFor = i
  polling : ∀ i, Polling s i (s.point i)
  asked : ∀ c ∈ s.voteCalls, c.request.term ≤ (s.node c.source).currentTerm
  sent : ∀ c ∈ s.appendCalls, (s.node c.source).Past c.request.term
  replies : ∀ r ∈ s.voteReplies, ∃ call, s.voteCalls[r.1]? = some call ∧
    r.2.term ≤ (s.node call.dest).currentTerm ∧
    (r.2.voteGranted = true → (s.node call.dest).Past call.request.term)

theorem Tallied.mono {req : RequestVoteRequest} {votes : Nat} (h : Tallied s i req votes)
    (hcalls : s.voteCalls <+: s'.voteCalls) (hreplies : s.voteReplies <+: s'.voteReplies) :
    Tallied s' i req votes := by
  refine h.imp_right fun hmore => ?_
  obtain ⟨r, hr, hgranted, call, hcall, hsource⟩ := hmore
  exact ⟨r, hreplies.subset hr, hgranted, call, getElem?_of_isPrefix hcalls hcall, hsource⟩

theorem Polling.mono {p : RunPoint} (h : Polling s i p) (hstands : (s.node i).Stands (s'.node i))
    (hcalls : s.voteCalls <+: s'.voteCalls) (hreplies : s.voteReplies <+: s'.voteReplies) :
    Polling s' i p := by
  have hcount {req : RequestVoteRequest} {votes : Nat} (h : req.term ≤ (s.node i).currentTerm ∧
      ((s.node i).state = .candidate → req.term = (s.node i).currentTerm) ∧ Tallied s i req votes) :
      req.term ≤ (s'.node i).currentTerm ∧ ((s'.node i).state = .candidate →
        req.term = (s'.node i).currentTerm) ∧ Tallied s' i req votes := by
    obtain ⟨hterm, hcurrent, htally⟩ := h
    refine ⟨hterm.trans hstands.term, fun hstate => ?_, htally.mono hcalls hreplies⟩
    obtain ⟨hbefore, hsame⟩ := hstands.candidate hstate
    exact hsame ▸ hcurrent hbefore
  cases p with
  | loop | election => trivial
  | collecting req votes rest => exact hcount h
  | awaitVote req votes rest call => exact hcount h
  | _ => exact fun hstate => h (hstands.candidate hstate).1

namespace Ballots

theorem start (addresses : OrderedMap Nat Bytes) : Ballots addresses (Cluster.start addresses) where
  routed := .start addresses
  candidate i hstate := by cases hstate
  polling i := trivial
  asked c hc := by cases hc
  sent c hc := by cases hc
  replies r hr := by cases hr

theorem carry (h : Ballots addresses s) (hrouted : Routed addresses s')
    (hcandidate : ∀ i, (s'.node i).state = .candidate →
      i ∈ addresses.keys ∧ (s'.node i).votedFor = i)
    (hpolling : ∀ i, Polling s' i (s'.point i))
    (hterm : ∀ i, (s.node i).currentTerm ≤ (s'.node i).currentTerm)
    (hpast : ∀ i term, (s.node i).Past term → (s'.node i).Past term)
    (hcalls : s.voteCalls <+: s'.voteCalls)
    (hasked : ∀ c ∈ s'.voteCalls, c ∈ s.voteCalls ∨ c.request.term ≤ (s.node c.source).currentTerm)
    (hsent : ∀ c ∈ s'.appendCalls, c ∈ s.appendCalls ∨ (s.node c.source).Past c.request.term)
    (hreplies : ∀ r ∈ s'.voteReplies, r ∈ s.voteReplies ∨ ∃ call, s'.voteCalls[r.1]? = some call ∧
      r.2.term ≤ (s'.node call.dest).currentTerm ∧
      (r.2.voteGranted = true → (s'.node call.dest).Past call.request.term)) :
    Ballots addresses s' := by
  refine ⟨hrouted, hcandidate, hpolling, fun c hc => ?_, fun c hc => ?_, fun r hr => ?_⟩
  · rcases hasked c hc with hold | hnew
    · exact (h.asked c hold).trans (hterm _)
    · exact hnew.trans (hterm _)
  · rcases hsent c hc with hold | hnew
    · exact hpast _ _ (h.sent c hold)
    · exact hpast _ _ hnew
  · rcases hreplies r hr with hold | hnew
    · obtain ⟨call, hcall, hle, hgranted⟩ := h.replies r hold
      exact ⟨call, getElem?_of_isPrefix hcalls hcall, hle.trans (hterm _),
        fun hgrant => hpast _ _ (hgranted hgrant)⟩
    · exact hnew

theorem timeout (h : Ballots addresses s) (hi : i ∈ addresses.keys) (here : s.point i = .loop)
    (hrouted : Routed addresses (s.setNode i (s.node i).becomeCandidateLocked)) :
    Ballots addresses (s.setNode i (s.node i).becomeCandidateLocked) := by
  have hself : (s.setNode i (s.node i).becomeCandidateLocked).node i =
      (s.node i).becomeCandidateLocked := by simp [setNode]
  have hother {j : Nat} (hj : j ≠ i) :
      (s.setNode i (s.node i).becomeCandidateLocked).node j = s.node j := by simp [setNode, hj]
  refine h.carry hrouted (fun j hstate => ?_) (fun j => ?_) (fun j => ?_) (fun j term hpast => ?_)
    List.prefix_rfl (fun c hc => .inl hc) (fun c hc => .inl hc) (fun r hr => .inl hr)
  · rcases eq_or_ne j i with rfl | hj
    · rw [hself]
      exact ⟨hi, (h.routed.node j).nodeId⟩
    · rw [hother hj] at hstate ⊢
      exact h.candidate j hstate
  · rcases eq_or_ne j i with rfl | hj
    · change Polling _ j (s.point j)
      rw [here]
      trivial
    · refine (h.polling j).mono ?_ List.prefix_rfl List.prefix_rfl
      rw [hother hj]
      exact ⟨.refl _, fun _ _ => rfl⟩
  · rcases eq_or_ne j i with rfl | hj
    · rw [hself]
      exact Nat.le_succ _
    · rw [hother hj]
  · rcases eq_or_ne j i with rfl | hj
    · rw [hself]
      exact ⟨hpast.1.trans (Nat.le_succ _), fun _ => Nat.lt_succ_of_le hpast.1⟩
    · rwa [hother hj]

/-- A vote that a node gives as a candidate would be for the candidate it has voted for. -/
theorem granted {n : RaftNode} {req : RequestVoteRequest}
    (h : (n.handleRequestVote req).1.voteGranted = true) :
    req.term = (n.handleRequestVote req).2.currentTerm ∧
      ((n.handleRequestVote req).2.state = .candidate →
        n.votedFor = 0 ∨ n.votedFor = req.candidateId) := by
  rcases n.handleRequestVote_cases req with ⟨_, heq⟩ | ⟨hle, m, hm, heq | ⟨hfree, _, heq⟩⟩
  · rw [heq] at h
    cases h
  · rw [heq] at h
    cases h
  · rw [heq]
    rw [hm] at hfree ⊢
    split_ifs at hfree ⊢ with hlater
    · rw [RaftNode.becomeFollowerLocked_of_lt hlater]
      exact ⟨rfl, fun hstate => by cases hstate⟩
    · exact ⟨le_antisymm (not_lt.mp hlater) hle, fun _ => hfree⟩

theorem answer_term (n : RaftNode) (req : RequestVoteRequest) :
    (n.handleRequestVote req).1.term = (n.handleRequestVote req).2.currentTerm := by
  rcases n.handleRequestVote_cases req with ⟨_, heq⟩ | ⟨hle, m, hm, hcases⟩
  · rw [heq]
  · have hterm : req.term = m.currentTerm := by
      rw [hm]
      split_ifs with hlater
      · rw [RaftNode.becomeFollowerLocked_of_lt hlater]
      · exact le_antisymm (not_lt.mp hlater) hle
    rcases hcases with heq | ⟨_, _, heq⟩
    · rw [heq]
      exact hterm
    · rw [heq]
      exact hterm

theorem voted (h : Ballots addresses s) (numbered : 0 ∉ addresses.keys)
    (hstate : (s.node i).state = .candidate) : (s.node i).votedFor ≠ 0 := by
  obtain ⟨hi, hvote⟩ := h.candidate i hstate
  rw [hvote]
  exact fun hzero => numbered (hzero ▸ hi)

theorem step (h : Ballots addresses s) (numbered : 0 ∉ addresses.keys) {a : Action}
    (hs : Cluster.step addresses s a = some s') : Ballots addresses s' := by
  have hrouted := h.routed.step hs
  by_cases htimeout : ∃ i, a = .timeout i
  · obtain ⟨i, rfl⟩ := htimeout
    cases step_cases hs with
    | timeout configured here _ => exact h.timeout configured here hrouted
  have hstands := step_stands hs fun i hi => htimeout ⟨i, hi⟩
  have hcandidate (j : Nat) (hstate : (s'.node j).state = .candidate) :
      j ∈ addresses.keys ∧ (s'.node j).votedFor = j := by
    have hbefore := ((hstands j).candidate hstate).1
    obtain ⟨hj, hvote⟩ := h.candidate j hbefore
    exact ⟨hj, ((hstands j).vote hstate (h.voted numbered hbefore)).trans hvote⟩
  have hstay (hpoint : s'.point = s.point) (hcalls : s.voteCalls <+: s'.voteCalls)
      (hreplies : s.voteReplies <+: s'.voteReplies) (j : Nat) : Polling s' j (s'.point j) :=
    hpoint ▸ (h.polling j).mono (hstands j) hcalls hreplies
  have hmove {i : Nat} {p : RunPoint} (hpoint : s'.point = Function.update s.point i p)
      (hp : Polling s' i p) (hcalls : s.voteCalls <+: s'.voteCalls)
      (hreplies : s.voteReplies <+: s'.voteReplies) (j : Nat) : Polling s' j (s'.point j) := by
    rw [hpoint]
    rcases eq_or_ne j i with rfl | hj
    · rwa [Function.update_self]
    · rw [Function.update_of_ne hj]
      exact (h.polling j).mono (hstands j) hcalls hreplies
  have hcarry := fun hpolling => h.carry hrouted hcandidate hpolling (fun j => (hstands j).term)
    (fun j term hpast => hpast.stands (hstands j))
  have hquiet (hpolling : ∀ j, Polling s' j (s'.point j)) (hcalls : s'.voteCalls = s.voteCalls)
      (happend : s'.appendCalls = s.appendCalls) (hreplies : s'.voteReplies = s.voteReplies) :
      Ballots addresses s' := by
    refine hcarry hpolling (hcalls ▸ List.prefix_rfl) ?_ ?_ ?_
    · exact hcalls ▸ fun c hc => .inl hc
    · exact happend ▸ fun c hc => .inl hc
    · rw [hreplies]
      exact fun r hr => .inl hr
  -- a thread that goes on to something else than asking for votes belongs to no candidate
  have hserving {i : Nat} (hp : (s.node i).state ≠ .candidate) : (s'.node i).state ≠ .candidate :=
    fun hstate => hp ((hstands i).candidate hstate).1
  have hhere {i : Nat} {p : RunPoint} (here : s.point i = p) : Polling s i p := here ▸ h.polling i
  cases step_cases hs with
  | timeout => exact absurd ⟨_, rfl⟩ htimeout
  | enterElection => exact hquiet (hmove rfl trivial List.prefix_rfl List.prefix_rfl) rfl rfl rfl
  | winAlone => exact hquiet (hmove rfl trivial List.prefix_rfl List.prefix_rfl) rfl rfl rfl
  | deposed => exact hquiet (hmove rfl trivial List.prefix_rfl List.prefix_rfl) rfl rfl rfl
  | win => exact hquiet (hmove rfl trivial List.prefix_rfl List.prefix_rfl) rfl rfl rfl
  | lose => exact hquiet (hmove rfl trivial List.prefix_rfl List.prefix_rfl) rfl rfl rfl
  | apply => exact hquiet (hmove rfl trivial List.prefix_rfl List.prefix_rfl) rfl rfl rfl
  | canvass =>
    exact hquiet (hmove rfl ⟨le_rfl, fun _ => rfl, .inl le_rfl⟩ List.prefix_rfl List.prefix_rfl)
      rfl rfl rfl
  | @sendVote i votes peer req rest here =>
    obtain ⟨hterm, hcurrent, htally⟩ := hhere here
    have hcalls := List.prefix_append s.voteCalls [⟨i, peer, req⟩]
    refine hcarry (hmove rfl ⟨hterm, hcurrent, htally.mono hcalls List.prefix_rfl⟩ hcalls
      List.prefix_rfl) hcalls (fun c hc => ?_) (fun c hc => .inl hc) (fun r hr => .inl hr)
    rcases List.mem_append.mp hc with hc | hc
    · exact .inl hc
    · rw [List.mem_singleton.mp hc]
      exact .inr hterm
  | @countVote i votes call req rest resp here answered current =>
    obtain ⟨hterm, hcurrent, htally⟩ := hhere here
    obtain ⟨_, _, peer, hcall, _⟩ := h.routed.located here
    refine hquiet (hmove rfl ⟨hterm, hcurrent, ?_⟩ List.prefix_rfl List.prefix_rfl) rfl rfl rfl
    split_ifs with hgrant
    · rcases answered with rfl | hreply
      · cases hgrant
      · exact .inr ⟨_, hreply, hgrant, _, hcall, rfl, rfl⟩
    · exact htally
  | enterHeartbeat configured here state =>
    refine hquiet (hmove rfl (hserving ?_) List.prefix_rfl List.prefix_rfl) rfl rfl rfl
    rw [state]
    exact fun hstate => by cases hstate
  | beginHeartbeat here =>
    exact hquiet (hmove rfl (hserving (hhere here)) List.prefix_rfl List.prefix_rfl) rfl rfl rfl
  | @sendAppend i commit peer rest here =>
    have hserves := hhere here
    refine hcarry (hmove rfl hserves List.prefix_rfl List.prefix_rfl) List.prefix_rfl
      (fun c hc => .inl hc) (fun c hc => ?_) (fun r hr => .inl hr)
    rcases List.mem_append.mp hc with hc | hc
    · exact .inl hc
    · rw [List.mem_singleton.mp hc]
      exact .inr ⟨le_rfl, fun hstate => absurd hstate hserves⟩
  | recvAppend here sent answered =>
    have hserves := hserving (hhere here)
    refine hquiet (hmove rfl ?_ List.prefix_rfl List.prefix_rfl) rfl rfl rfl
    split_ifs
    · exact hserves
    · exact hserves
  | finishHeartbeat here =>
    exact hquiet (hmove rfl (hhere here) List.prefix_rfl List.prefix_rfl) rfl rfl rfl
  | advance here =>
    exact hquiet (hmove rfl (hserving (hhere here)) List.prefix_rfl List.prefix_rfl) rfl rfl rfl
  | @handleVote id call sent =>
    have hreplies := List.prefix_append s.voteReplies
      [(id, ((s.node call.dest).handleRequestVote call.request).1)]
    refine hcarry (hstay rfl List.prefix_rfl hreplies) List.prefix_rfl (fun c hc => .inl hc)
      (fun c hc => .inl hc) (fun r hr => ?_)
    rcases List.mem_append.mp hr with hr | hr
    · exact .inl hr
    right
    obtain rfl := List.mem_singleton.mp hr
    refine ⟨call, sent, ?_⟩
    simp only [setNode, Function.update_self]
    refine ⟨(answer_term _ _).le, fun hgrant => ?_⟩
    obtain ⟨hterm, hvote⟩ := granted hgrant
    refine ⟨hterm.le, fun hstate => ?_⟩
    have hbefore := ((s.node call.dest).stands_handleRequestVote call.request).candidate hstate
    obtain ⟨hsource, hdest, hcandidateId⟩ := h.routed.voteCall call (List.mem_of_getElem? sent)
    have hself := (hvote hstate).resolve_left (h.voted numbered hbefore.1)
    rw [(h.candidate _ hbefore.1).2, hcandidateId] at hself
    exact absurd hself (mem_peersOf.mp hdest).2
  | handleAppend =>
    exact hquiet (hstay rfl List.prefix_rfl List.prefix_rfl) rfl rfl rfl
  | propose => exact hquiet (hstay rfl List.prefix_rfl List.prefix_rfl) rfl rfl rfl
  | proposeBatch => exact hquiet (hstay rfl List.prefix_rfl List.prefix_rfl) rfl rfl rfl
  | flushBatch => exact hquiet (hstay rfl List.prefix_rfl List.prefix_rfl) rfl rfl rfl

theorem of_run (numbered : 0 ∉ addresses.keys) {ok : Cluster → Action → Prop}
    (h : Run (Cluster.step addresses) ok (Cluster.start addresses) s) : Ballots addresses s :=
  h.invariant (fun h _ hs => h.step numbered hs) (.start addresses)

end Ballots

def Split (addresses : OrderedMap Nat Bytes) (s : Cluster) (term : Nat) : Prop :=
  ∀ i ∈ addresses.keys, (s.node i).state = .candidate ∧ (s.node i).currentTerm = term

instance (addresses : OrderedMap Nat Bytes) (s : Cluster) (term : Nat) :
    Decidable (Split addresses s term) := List.decidableBAll _ addresses.keys

theorem answered_of_recvVote {resp : RequestVoteResponse} {req : RequestVoteRequest} {votes id : Nat}
    {rest : List Nat} (hs : step addresses s (.recvVote i resp) = some s')
    (here : s.point i = .awaitVote req votes rest id) :
    resp = .unreachable ∨ (id, resp) ∈ s.voteReplies := by
  rw [step, here] at hs
  exact (Option.ite_none_right_eq_some.mp hs).1

/-- Whatever is delivered to them and whatever times out, candidates of one term stay as they are. -/
theorem Split.frozen {term : Nat} (h : Split addresses s term) (hb : Ballots addresses s)
    (numbered : 0 ∉ addresses.keys) (htwo : 2 ≤ addresses.size) {a : Action}
    (hs : step addresses s a = some s') :
    ∀ i ∈ addresses.keys, s'.node i = s.node i ∨ s'.node i = (s.node i).flushBatch := by
  have hset {k : Nat} {n : RaftNode} (hk : k ∈ addresses.keys → n = s.node k) :
      ∀ i ∈ addresses.keys, (s.setNode k n).node i = s.node i ∨
        (s.setNode k n).node i = (s.node i).flushBatch := by
    intro i hi
    rcases eq_or_ne i k with rfl | hne
    · exact .inl (by simpa [setNode] using hk hi)
    · exact .inl (by simp [setNode, hne])
  have hserves {i : Nat} {p : RunPoint} (hi : i ∈ addresses.keys) (here : s.point i = p) :
      Polling s i p ∧ (s.node i).state = .candidate := ⟨here ▸ hb.polling i, (h i hi).1⟩
  have hmember {call : Call RequestVoteRequest} (hcall : call ∈ s.voteCalls) :
      call.source ∈ addresses.keys ∧ call.dest ∈ addresses.keys ∧ call.dest ≠ call.source := by
    obtain ⟨hsource, hdest, _⟩ := hb.routed.voteCall call hcall
    exact ⟨hsource, mem_peersOf.mp hdest⟩
  cases step_cases hs with
  | @timeout i configured here state =>
    rw [(h i configured).1] at state
    cases state
  | @winAlone i here alone =>
    have hi := hb.routed.located here
    have hcard := card_members hi
    rw [(hb.routed.node i).peers] at alone
    rw [← OrderedMap.length_keys, alone, members,
      List.toFinset_card_of_nodup (OrderedMap.keys_nodup _), OrderedMap.length_keys] at hcard
    simp at hcard
    omega
  | @deposed i votes call req rest resp here later =>
    obtain ⟨hi, _, peer, hcall, _⟩ := hb.routed.located here
    rcases answered_of_recvVote hs here with rfl | hreply
    · exact absurd later (Nat.not_lt_zero _)
    · obtain ⟨call', hcall', hle, _⟩ := hb.replies _ hreply
      have hdest := (hmember (List.mem_of_getElem? hcall')).2.1
      rw [(h _ hdest).2, ← (h i hi).2] at hle
      exact absurd later (not_lt.mpr hle)
  | @win i votes req here enough =>
    have hi := (hb.routed.located here).1
    obtain ⟨_, hcurrent, htally⟩ := (hserves hi here).1
    have hmajority : 2 ≤ (s.node i).majority := by
      have hcard := card_members hi
      rw [members, List.toFinset_card_of_nodup (OrderedMap.keys_nodup _),
        OrderedMap.length_keys] at hcard
      rw [RaftNode.majority, (hb.routed.node i).peers]
      omega
    rcases htally with hone | ⟨r, hr, hgrant, call, hcall, _, hreq⟩
    · omega
    · obtain ⟨call', hcall', _, hpast⟩ := hb.replies r hr
      obtain rfl := Option.some.inj (hcall.symm.trans hcall')
      have hdest := (hmember (List.mem_of_getElem? hcall)).2.1
      have hlt := (hpast hgrant).2 (h _ hdest).1
      rw [hreq, hcurrent (h i hi).1, (h _ hdest).2, (h i hi).2] at hlt
      exact absurd hlt (lt_irrefl _)
  | @beginHeartbeat i here =>
    obtain ⟨hnot, hstate⟩ := hserves (hb.routed.located here) here
    exact absurd hstate hnot
  | @recvAppend i commit id rest call resp here sent answered =>
    obtain ⟨hnot, hstate⟩ := hserves (hb.routed.located here).1 here
    exact absurd hstate hnot
  | @advance i here =>
    obtain ⟨hnot, hstate⟩ := hserves (hb.routed.located here) here
    exact absurd hstate hnot
  | @apply i here =>
    obtain ⟨hnot, hstate⟩ := hserves (hb.routed.located here) here
    exact absurd hstate hnot
  | @handleVote id call sent =>
    refine hset fun _ => ?_
    have hcall := List.mem_of_getElem? sent
    obtain ⟨hsource, hdest, hother⟩ := hmember hcall
    have hasked := hb.asked call hcall
    rw [(h _ hsource).2, ← (h _ hdest).2] at hasked
    rcases (s.node call.dest).handleRequestVote_cases call.request with
      ⟨_, heq⟩ | ⟨_, m, hm, heq | ⟨hfree, _, _⟩⟩
    · rw [heq]
    · rw [heq, hm, if_neg (not_lt.mpr hasked)]
    · rw [hm, if_neg (not_lt.mpr hasked)] at hfree
      have hself := hfree.resolve_left (hb.voted numbered (h _ hdest).1)
      rw [(hb.candidate _ (h _ hdest).1).2, (hb.routed.voteCall call hcall).2.2] at hself
      exact absurd hself hother
  | @handleAppend id call sent =>
    refine hset fun hdest => ?_
    have hcall := List.mem_of_getElem? sent
    have hsource := (hb.routed.appendCall call hcall).1
    have hlt := (hb.sent call hcall).2 (h _ hsource).1
    rw [(h _ hsource).2, ← (h _ hdest).2] at hlt
    rcases (s.node call.dest).handleAppendEntries_cases call.request with ⟨_, heq⟩ | ⟨hle, _⟩
    · rw [heq]
    · exact absurd hlt (not_lt.mpr hle)
  | @propose i entry plain =>
    refine hset fun hi => ?_
    rw [RaftNode.propose_refused fun hlead => by cases hlead.symm.trans (h i hi).1]
  | @proposeBatch i entry plain =>
    refine hset fun hi => ?_
    rw [RaftNode.proposeBatch_refused fun hlead => by cases hlead.symm.trans (h i hi).1]
  | @flushBatch i =>
    intro j hj
    rcases eq_or_ne j i with rfl | hne
    · exact .inr (by simp [setNode])
    · exact .inl (by simp [setNode, hne])
  | _ => exact fun i _ => .inl rfl

theorem Split.step {term : Nat} (h : Split addresses s term)
    (hframe : ∀ i ∈ addresses.keys, s'.node i = s.node i ∨ s'.node i = (s.node i).flushBatch) :
    Split addresses s' term ∧ ∀ i ∈ addresses.keys,
      (s'.node i).commitIndex = (s.node i).commitIndex ∧
      (s'.node i).delivered = (s.node i).delivered := by
  have hkept (n : RaftNode) : n.flushBatch.state = n.state ∧ n.flushBatch.currentTerm = n.currentTerm ∧
      n.flushBatch.commitIndex = n.commitIndex ∧ n.flushBatch.delivered = n.delivered := by
    rcases n.flushBatch_cases with ⟨_, heq⟩ | ⟨_, heq⟩
    · rw [heq]
      exact ⟨rfl, rfl, rfl, rfl⟩
    · rw [heq]
      exact ⟨rfl, rfl, rfl, rfl⟩
  constructor
  · intro i hi
    rcases hframe i hi with heq | heq
    · exact heq ▸ h i hi
    · rw [heq, (hkept _).1, (hkept _).2.1]
      exact h i hi
  · intro i hi
    rcases hframe i hi with heq | heq
    · exact heq ▸ ⟨rfl, rfl⟩
    · exact heq ▸ (hkept _).2.2

theorem Split.run {term : Nat} (h : Split addresses s term) (hb : Ballots addresses s)
    (numbered : 0 ∉ addresses.keys) (htwo : 2 ≤ addresses.size) {ok : Cluster → Action → Prop}
    (h' : Run (Cluster.step addresses) ok s s') :
    Split addresses s' term ∧ ∀ i ∈ addresses.keys,
      (s'.node i).commitIndex = (s.node i).commitIndex ∧
      (s'.node i).delivered = (s.node i).delivered := by
  have hall := h'.invariant (P := fun t => Ballots addresses t ∧ Split addresses t term ∧
      ∀ i ∈ addresses.keys, (t.node i).commitIndex = (s.node i).commitIndex ∧
        (t.node i).delivered = (s.node i).delivered) ?_ ⟨hb, h, fun i _ => ⟨rfl, rfl⟩⟩
  · exact hall.2
  · rintro t a u ⟨hb, ht, hsame⟩ _ hs
    obtain ⟨hu, hkept⟩ := ht.step (ht.frozen hb numbered htwo hs)
    exact ⟨hb.step numbered hs, hu, fun i hi =>
      ⟨(hkept i hi).1.trans (hsame i hi).1, (hkept i hi).2.trans (hsame i hi).2⟩⟩

/-- Once all members of a cluster of two or more are candidates of one term, that is how it stays:
no run goes on to elect a leader, to accept a command, to commit or to deliver anything. -/
theorem split_vote_is_final (M : Membership) (htwo : 2 ≤ M.addresses.size)
    (h : Run (step M.addresses) (fun _ _ => True) (start M.addresses) s) {term : Nat}
    (hsplit : Split M.addresses s term) (h' : Run (step M.addresses) (fun _ _ => True) s s') :
    Split M.addresses s' term ∧ ∀ i ∈ M.addresses.keys,
      (s'.node i).commitIndex = (s.node i).commitIndex ∧
      (s'.node i).delivered = (s.node i).delivered ∧
      ∀ entry, ∃ text, (s'.node i).propose entry = (.error text, s'.node i) := by
  obtain ⟨hfinal, hsame⟩ := hsplit.run (.of_run M.numbered h) M.numbered htwo h'
  refine ⟨hfinal, fun i hi => ⟨(hsame i hi).1, (hsame i hi).2, fun entry => ?_⟩⟩
  exact ⟨_, RaftNode.propose_refused (fun hlead => by cases hlead.symm.trans (hfinal i hi).1) entry⟩

def askInVain : List Action :=
  [.enterElection 1, .beginElection 1, .sendVote 1, .handleVote 0, .recvVote 1 ⟨1, false⟩,
    .sendVote 1, .handleVote 1, .recvVote 1 ⟨1, false⟩, .finishElection 1]

theorem split_vote_is_final_trio : ∃ s s', Run (step trio.addresses) (fun _ _ => True)
    (start trio.addresses) s ∧ Run (step trio.addresses) (fun _ _ => True) s s' ∧
    s'.voteReplies.length = 2 ∧ Split trio.addresses s' 1 := by
  obtain ⟨s, s', h, h', hsplit, hheard⟩ := reachable_twice_of_execute (step trio.addresses)
    (fun _ _ => True) (start trio.addresses) [.timeout 1, .timeout 2, .timeout 3] askInVain
    (P := fun s s' => Split trio.addresses s 1 ∧ s'.voteReplies.length = 2) (by decide)
  exact ⟨s, s', h, h', hheard, (split_vote_is_final trio (by decide) h hsplit h').1⟩

end Cluster
end MyEtcd
