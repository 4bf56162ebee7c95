import MyEtcd.Cluster.Configuration
import MyEtcd.Library.Consensus.Voting

/-! Elections in the cluster, told as a history of votes and leaders.
`track` adds to the protocol's history what a step of the cluster does. `StartElection` counts the
votes of the term it first read, so the history stays sound while a candidate keeps to that term. -/
namespace MyEtcd
open Library Library.Consensus

abbrev History := Protocol Nat RaftEntry

namespace Cluster

/-- The history after a step. -/
def track (s : Cluster) (P : History) : Action → History
  | .timeout i => (P.raiseTerm i (P.term i + 1)).castBallot i i
  | .beginElection i => if (s.node i).peers.keys = [] then P.install i else P
  | .recvVote i resp => P.observe i resp.term
  | .finishElection i =>
    match s.point i with
    | .collecting _ votes [] => if votes ≥ (s.node i).majority then P.install i else P
    | _ => P
  | .recvAppend i resp => P.observe i resp.term
  | .handleVote id =>
    match s.voteCalls[id]? with
    | some call =>
      let P := P.observe call.dest call.request.term
      if ((s.node call.dest).handleRequestVote call.request).1.voteGranted ∧
          (P.ballot call.request.term call.dest).isNone then
        P.castBallot call.dest call.request.candidateId
      else P
    | none => P
  | .handleAppend id =>
    match s.appendCalls[id]? with
    | some call =>
      let P := P.observe call.dest call.request.term
      if ((s.node call.dest).handleAppendEntries call.request).1.success then
        P.store call.dest call.request.prevLogIndex
          (call.request.prevLogIndex + call.request.entries.length)
      else P
    | none => P
  | .propose i entry =>
    if (s.node i).isLeader then
      P.extend i { entry with
        term := (s.node i).currentTerm
        index := (s.node i).log.lastIndex + 1 }
    else P
  | .beginHeartbeat i | .flushBatch i =>
    P.extendAll i (s.node i).renumberedBatch
  | _ => P

/-- What the history says about the term, the vote and the leadership of node `i`. -/
structure Voter (P : History) (i : Nat) (n : RaftNode) : Prop where
  term : P.term i = n.currentTerm
  vote : n.votedFor = 0 ∧ P.ballot n.currentTerm i = none ∨
    n.votedFor ≠ 0 ∧ ∃ L, P.ballot n.currentTerm i = some (n.votedFor, L)
  leads : n.state = .leader → P.leader n.currentTerm = some i

/-- Different members, the candidate `i` among them, that have voted for it in the term asked for. -/
def Canvassed (addresses : OrderedMap Nat Bytes) (P : History) (i : Nat) (req : RequestVoteRequest)
    (votes : Nat) (rest : List Nat) : Prop :=
  ∃ V ⊆ members addresses, i ∈ V ∧ V.card = votes ∧ (∀ q ∈ rest, q ∉ V) ∧
    ∀ v ∈ V, ∃ L, P.ballot req.term v = some (i, L)

/-- The votes that a candidate counts have been cast. -/
def Counted (addresses : OrderedMap Nat Bytes) (s : Cluster) (P : History) (i : Nat) :
    RunPoint → Prop
  | .collecting req votes rest => Canvassed addresses P i req votes rest
  | .awaitVote req votes rest id => ∃ peer, s.voteCalls[id]? = some ⟨i, peer, req⟩ ∧
    Canvassed addresses P i req votes (peer :: rest)
  | _ => True

structure Elections (addresses : OrderedMap Nat Bytes) (s : Cluster) (P : History) : Prop where
  voting : Voting (members addresses) P
  voter : ∀ i, Voter P i (s.node i)
  counted : ∀ i, Counted addresses s P i (s.point i)
  calls : ∀ c ∈ s.voteCalls, ∃ L, P.ballot c.request.term c.source = some (c.source, L)
  replies : ∀ r ∈ s.voteReplies, ∃ call, s.voteCalls[r.1]? = some call ∧
    (r.2.voteGranted = true → ∃ L, P.ballot call.request.term call.dest = some (call.source, L))

/-- A candidate has its own vote when it reads the term it asks votes for, and is still in that
term when it has enough of them. -/
def StillStanding (s : Cluster) : Action → Prop
  | .beginElection i => (s.node i).votedFor = (s.node i).nodeId
  | .finishElection i =>
    match s.point i with
    | .collecting req votes [] =>
      votes ≥ (s.node i).majority → (s.node i).currentTerm = req.term
    | _ => True
  | _ => True

instance (s : Cluster) (a : Action) : Decidable (StillStanding s a) := by
  unfold StillStanding
  split
  · infer_instance
  · split <;> infer_instance
  · infer_instance

variable {addresses : OrderedMap Nat Bytes} {s s' : Cluster} {P P' : History} {i : Nat}

namespace Voter
variable {n n' : RaftNode}

theorem congr (h : Voter P i n) (hterm : n'.currentTerm = n.currentTerm)
    (hvote : n'.votedFor = n.votedFor) (hstate : n'.state = .leader → n.state = .leader) :
    Voter P i n' where
  term := hterm ▸ h.term
  vote := by
    rw [hterm, hvote]
    exact h.vote
  leads hl := hterm ▸ h.leads (hstate hl)

theorem flushBatch (h : Voter P i n) : Voter P i n.flushBatch := by
  rcases n.flushBatch_cases with ⟨_, heq⟩ | ⟨_, heq⟩
  · rwa [heq]
  · rw [heq]
    exact h.congr rfl rfl id

/-- A step that leaves the term and the ballots of a node alone does not concern it. -/
theorem aside (h : Voter P i n) (hg : VotesGrow P P') (hterm : P'.term i = P.term i)
    (hballot : P'.ballot n.currentTerm i = P.ballot n.currentTerm i) : Voter P' i n where
  term := hterm.trans h.term
  vote := by
    rw [hballot]
    exact h.vote
  leads hl := hg.leader (h.leads hl)

/-- A node that sees a larger term enters it as a follower without a vote. -/
theorem becomeFollowerLocked {m : Finset Nat} (h : Voter P i n) (hv : Voting m P) (term : Nat) :
    Voter (P.observe i term) i (n.becomeFollowerLocked term) := by
  rcases Nat.lt_or_ge n.currentTerm term with hlt | hle
  · rw [RaftNode.becomeFollowerLocked_of_lt hlt, Protocol.observe, if_pos (h.term ▸ hlt)]
    exact ⟨by simp [Protocol.raiseTerm], .inl ⟨rfl, hv.fresh (h.term ▸ hlt)⟩, by simp⟩
  · rw [RaftNode.becomeFollowerLocked_of_le hle, Protocol.observe,
      if_neg (h.term ▸ not_lt.mpr hle)]
    exact h.congr rfl rfl (by simp)

end Voter

theorem Canvassed.mono {req : RequestVoteRequest} {votes : Nat} {rest : List Nat}
    (h : Canvassed addresses P i req votes rest) (hg : VotesGrow P P') :
    Canvassed addresses P' i req votes rest := by
  obtain ⟨V, hsub, hi, hcard, hrest, hV⟩ := h
  exact ⟨V, hsub, hi, hcard, hrest, fun v hv => (hV v hv).imp fun _ hL => hg.ballot hL⟩

theorem Counted.mono {p : RunPoint} {t : Cluster} (h : Counted addresses s P i p)
    (hg : VotesGrow P P') (hcalls : s.voteCalls <+: t.voteCalls) : Counted addresses t P' i p := by
  cases p with
  | collecting req votes rest => exact Canvassed.mono h hg
  | awaitVote req votes rest id =>
    obtain ⟨peer, hcall, hV⟩ := h
    exact ⟨peer, getElem?_of_isPrefix hcalls hcall, hV.mono hg⟩
  | _ => trivial

theorem observe_aside {m : Finset Nat} (hv : Voting m P) (i term : Nat) :
    Voting m (P.observe i term) ∧ VotesGrow P (P.observe i term) ∧
      (P.observe i term).ballot = P.ballot ∧ ∀ j ≠ i, (P.observe i term).term j = P.term j := by
  unfold Protocol.observe
  split_ifs with hlt
  · exact ⟨hv.raise hlt, ⟨id, id⟩, rfl, fun j hj => by simp [Protocol.raiseTerm, hj]⟩
  · exact ⟨hv, .refl P, rfl, fun _ _ => rfl⟩

namespace Elections

theorem start (addresses : OrderedMap Nat Bytes) :
    Elections addresses (Cluster.start addresses) Protocol.initial where
  voting := .initial _
  voter i := ⟨rfl, .inl ⟨rfl, rfl⟩, by simp [Cluster.start, RaftNode.ofConfig]⟩
  counted _ := trivial
  calls c hc := by simp [Cluster.start] at hc
  replies r hr := by simp [Cluster.start] at hr

theorem counts (h : Elections addresses s P) {p : RunPoint} (here : s.point i = p) :
    Counted addresses s P i p := here ▸ h.counted i

end Elections

/-- The state and the history after some steps: nothing recorded in `P` is lost. -/
structure Advances (addresses : OrderedMap Nat Bytes) (P : History) (s' : Cluster) (P' : History) :
    Prop where
  grows : VotesGrow P P'
  elections : Elections addresses s' P'

theorem Advances.trans {P'' : History} (h : Advances addresses P s P')
    (h' : Elections addresses s P' → Advances addresses P' s' P'') : Advances addresses P s' P'' :=
  ⟨h.grows.trans (h' h.elections).grows, (h' h.elections).elections⟩

private theorem Advances.setPoint (h : Advances addresses P s P') {p : RunPoint}
    (hp : Counted addresses s P' i p) : Advances addresses P (s.setPoint i p) P' := by
  obtain ⟨hg, h⟩ := h
  refine ⟨hg, h.voting, h.voter, fun j => ?_, h.calls, h.replies⟩
  rcases eq_or_ne j i with rfl | hj
  · simpa [Cluster.setPoint] using hp.mono (t := s.setPoint j p) (.refl P') List.prefix_rfl
  · simpa [Cluster.setPoint, hj] using
      (h.counted j).mono (t := s.setPoint i p) (.refl P') List.prefix_rfl

namespace Elections

private theorem stay (h : Elections addresses s P) : Advances addresses P s P := ⟨.refl P, h⟩

private theorem setNode (h : Elections addresses s P) {n : RaftNode}
    (hv : Voting (members addresses) P') (hg : VotesGrow P P') (hn : Voter P' i n)
    (hterm : ∀ j ≠ i, P'.term j = P.term j)
    (hballot : ∀ t, ∀ j ≠ i, P'.ballot t j = P.ballot t j) :
    Advances addresses P (s.setNode i n) P' := by
  refine ⟨hg, hv, fun j => ?_, fun j => (h.counted j).mono hg List.prefix_rfl,
    fun c hc => (h.calls c hc).imp fun _ hL => hg.ballot hL, fun r hr => ?_⟩
  · rcases eq_or_ne j i with rfl | hj
    · simpa [Cluster.setNode] using hn
    · simpa [Cluster.setNode, hj] using (h.voter j).aside hg (hterm j hj) (hballot _ j hj)
  · obtain ⟨call, hcall, hL⟩ := h.replies r hr
    exact ⟨call, hcall, fun hgrant => (hL hgrant).imp fun _ hL => hg.ballot hL⟩

private theorem setNode' (h : Elections addresses s P) {n : RaftNode} (hn : Voter P i n) :
    Advances addresses P (s.setNode i n) P :=
  h.setNode h.voting (.refl P) hn (fun _ _ => rfl) (fun _ _ _ => rfl)

private theorem congr (h : Elections addresses s P) (hterm : P'.term = P.term)
    (hballot : P'.ballot = P.ballot) (hleader : P'.leader = P.leader) :
    Advances addresses P s P' := by
  have hg : VotesGrow P P' := ⟨fun hb => hballot ▸ hb, fun hl => hleader ▸ hl⟩
  refine ⟨hg, ⟨fun hb => ?_, fun hl => ?_⟩,
    fun i => (h.voter i).aside hg (hterm ▸ rfl) (hballot ▸ rfl),
    fun i => (h.counted i).mono hg List.prefix_rfl, ?_, ?_⟩
  · rw [hterm]
    exact h.voting.bound (hballot ▸ hb)
  · rw [hballot]
    exact h.voting.quorum (hleader ▸ hl)
  · rw [hballot]
    exact h.calls
  · rw [hballot]
    exact h.replies

private theorem becomeLeader (h : Elections addresses s P) {quorum : Finset Nat}
    (large : Majority (members addresses) quorum) (own : i ∈ quorum)
    (votes : ∀ v ∈ quorum, ∃ L, P.ballot (s.node i).currentTerm v = some (i, L)) :
    Advances addresses P (s.setNode i (s.node i).becomeLeaderLocked) (P.install i) := by
  rw [← (h.voter i).term] at votes
  obtain ⟨hg, hv⟩ := h.voting.elect large own votes
  refine h.setNode hv hg ⟨(h.voter i).term, (h.voter i).vote, fun _ => ?_⟩
    (fun _ _ => rfl) (fun _ _ _ => rfl)
  change (P.install i).leader (s.node i).currentTerm = some i
  rw [← (h.voter i).term]
  simp [Protocol.install]

private theorem observe (h : Elections addresses s P) (i term : Nat) :
    Advances addresses P (s.setNode i ((s.node i).becomeFollowerLocked term))
      (P.observe i term) := by
  obtain ⟨hv, hg, hballot, hterm⟩ := observe_aside h.voting i term
  exact h.setNode hv hg ((h.voter i).becomeFollowerLocked h.voting term) hterm
    (fun t j _ => by rw [hballot])

private theorem extend (h : Elections addresses s P) (i : Nat) (batch : List RaftEntry) :
    Advances addresses P s (P.extendAll i batch) := by
  induction batch generalizing P with
  | nil => exact ⟨.refl P, h⟩
  | cons e rest ih => 
    have hone : Advances addresses P s (P.extend i e) := h.congr rfl rfl rfl
    exact hone.trans ih

private theorem timeout (h : Elections addresses s P) (hr : Routed addresses s)
    (hi : i ∈ addresses.keys) (hid : i ≠ 0) :
    Advances addresses P (s.setNode i (s.node i).becomeCandidateLocked)
      ((P.raiseTerm i (P.term i + 1)).castBallot i i) := by
  have hlt : P.term i < P.term i + 1 := Nat.lt_succ_self _
  have hterm : (P.raiseTerm i (P.term i + 1)).term i = P.term i + 1 := by simp [Protocol.raiseTerm]
  obtain ⟨hg, hv⟩ := (h.voting.raise hlt).vote (c := i) (List.mem_toFinset.mpr hi)
    (by rw [hterm]; exact Nat.succ_pos _) (by rw [hterm]; exact h.voting.fresh hlt)
  have hraise : VotesGrow P (P.raiseTerm i (P.term i + 1)) := ⟨id, id⟩
  refine h.setNode hv (hraise.trans hg) ⟨?_, .inr ⟨?_, (P.log i), ?_⟩, ?_⟩
    (fun j hj => ?_) (fun t j hj => ?_)
  · exact hterm.trans (by rw [(h.voter i).term]; rfl)
  · simpa [RaftNode.becomeCandidateLocked, (hr.node i).nodeId] using hid
  · rw [RaftNode.becomeCandidateLocked, ← (h.voter i).term]
    simp [Protocol.castBallot, Protocol.raiseTerm, (hr.node i).nodeId]
  · simp [RaftNode.becomeCandidateLocked]
  · simp [Protocol.castBallot, Protocol.raiseTerm, hj]
  · simp [Protocol.castBallot, Protocol.raiseTerm, hj]

private theorem countVote (h : Elections addresses s P) (hr : Routed addresses s)
    {req : RequestVoteRequest} {votes call : Nat} {rest : List Nat} {resp : RequestVoteResponse}
    (here : s.point i = .awaitVote req votes rest call)
    (answered : resp = .unreachable ∨ (call, resp) ∈ s.voteReplies) :
    Canvassed addresses P i req (if resp.voteGranted then votes + 1 else votes) rest := by
  obtain ⟨_, _, peer, hcall, hsuffix⟩ := hr.located here
  obtain ⟨peer', hcall', V, hsub, hi, hcard, hrest, hV⟩ := h.counts here
  obtain rfl : peer = peer' := by simpa [hcall] using hcall'
  split_ifs with hgrant
  · have hreply : (call, resp) ∈ s.voteReplies := by
      rcases answered with rfl | hreply
      · cases hgrant
      · exact hreply
    obtain ⟨c, hc, hL⟩ := h.replies _ hreply
    obtain rfl : ⟨i, peer, req⟩ = c := Option.some.inj (hcall.symm.trans hc)
    have hnodup := (hsuffix.sublist.nodup (OrderedMap.keys_nodup _))
    have hfresh := hrest peer List.mem_cons_self
    have hpeer := (mem_peersOf.mp (hsuffix.subset List.mem_cons_self)).1
    refine ⟨insert peer V, ?_, Finset.mem_insert_of_mem hi, ?_, fun q hq hmem => ?_, ?_⟩
    · exact Finset.insert_subset (List.mem_toFinset.mpr hpeer) hsub
    · rw [Finset.card_insert_of_notMem hfresh, hcard]
    · rcases Finset.mem_insert.mp hmem with rfl | hmem
      · exact (List.nodup_cons.mp hnodup).1 hq
      · exact hrest q (List.mem_cons_of_mem _ hq) hmem
    · intro v hv
      rcases Finset.mem_insert.mp hv with rfl | hv
      · exact hL hgrant
      · exact hV v hv
  · exact ⟨V, hsub, hi, hcard, fun q hq => hrest q (List.mem_cons_of_mem _ hq), hV⟩

private theorem handleVote (h : Elections addresses s P) (hr : Routed addresses s)
    (numbered : 0 ∉ addresses.keys) {k : Nat} {call : Call RequestVoteRequest}
    (sent : s.voteCalls[k]? = some call) :
    Advances addresses P
      { s.setNode call.dest ((s.node call.dest).handleRequestVote call.request).2 with
        voteReplies := s.voteReplies ++
          [(k, ((s.node call.dest).handleRequestVote call.request).1)] }
      (track s P (.handleVote k)) := by
  have hmem := List.mem_of_getElem? sent
  obtain ⟨hsource, hdest, hcand⟩ := hr.voteCall call hmem
  obtain ⟨L₀, hL₀⟩ := h.calls call hmem
  have hstarted := (h.voting.bound hL₀).2.1
  have hreplies {P' : History} {n : RaftNode}
      (hnew : Advances addresses P (s.setNode call.dest n) P')
      (answer : RequestVoteResponse) (hanswer : answer.voteGranted = true →
        ∃ L, P'.ballot call.request.term call.dest = some (call.source, L)) :
      Advances addresses P { s.setNode call.dest n with
        voteReplies := s.voteReplies ++ [(k, answer)] } P' := by
    obtain ⟨hgrows, hnew⟩ := hnew
    refine ⟨hgrows, hnew.voting, hnew.voter, hnew.counted, hnew.calls, fun r hr => ?_⟩
    rcases List.mem_append.mp hr with hr | hr
    · exact hnew.replies r hr
    · obtain rfl := List.mem_singleton.mp hr
      exact ⟨call, sent, hanswer⟩
  obtain ⟨hv, hg, hballot, hterm⟩ := observe_aside h.voting call.dest call.request.term
  have hside {n : RaftNode} (hn : Voter (P.observe call.dest call.request.term) call.dest n) :
      Advances addresses P (s.setNode call.dest n) (P.observe call.dest call.request.term) :=
    h.setNode hv hg hn hterm (fun t j _ => by rw [hballot])
  simp only [track, sent]
  rcases (s.node call.dest).handleRequestVote_cases call.request with
    ⟨hold, heq⟩ | ⟨hle, m, hm, hcases⟩
  · rw [heq]
    have hsame : P.observe call.dest call.request.term = P := by
      rw [Protocol.observe, if_neg]
      rw [(h.voter _).term]
      omega
    simp only [Bool.false_eq_true, false_and, if_false, hsame]
    exact hreplies (h.setNode' (h.voter _)) _ (by simp)
  have hvoter : Voter (P.observe call.dest call.request.term) call.dest m ∧
      m.currentTerm = call.request.term := by
    rw [hm]
    split_ifs with hlater
    · exact ⟨(h.voter _).becomeFollowerLocked h.voting _, by
        rw [RaftNode.becomeFollowerLocked_of_lt hlater]⟩
    · refine ⟨?_, by omega⟩
      rw [Protocol.observe, if_neg (by rw [(h.voter _).term]; omega)]
      exact h.voter _
  obtain ⟨hvoter, hmterm⟩ := hvoter
  rcases hcases with heq | ⟨hfree, _, heq⟩
  · rw [heq]
    simp only [Bool.false_eq_true, false_and, if_false]
    exact hreplies (hside hvoter) _ (by simp)
  rw [heq]
  rcases hvoter.vote with ⟨_, hnone⟩ | ⟨hne, L, hL⟩
  · -- the first vote of the term
    rw [hmterm] at hnone
    have htermEq := hvoter.term.trans hmterm
    obtain ⟨hg', hv'⟩ := hv.vote (c := call.request.candidateId)
      (List.mem_toFinset.mpr (mem_peersOf.mp hdest).1) (by rwa [htermEq]) (by rwa [htermEq])
    have hcast : ((P.observe call.dest call.request.term).castBallot call.dest
        call.request.candidateId).ballot call.request.term call.dest =
        some (call.request.candidateId, (P.observe call.dest call.request.term).log call.dest) := by
      simp [Protocol.castBallot, htermEq]
    simp only [hnone, Option.isNone_none, and_self, if_true]
    refine hreplies (n := { m with votedFor := call.request.candidateId })
      (h.setNode hv' (hg.trans hg') ⟨hvoter.term, .inr ⟨?_, ?_⟩, ?_⟩ hterm ?_) _
      (fun _ => ⟨_, by rw [hcast, hcand]⟩)
    · exact hcand ▸ ne_of_mem_of_not_mem hsource numbered
    · exact ⟨_, by rw [← hcast, hmterm]⟩
    · intro hleader
      exact hg'.leader (hvoter.leads hleader)
    · intro t j hj
      simp [Protocol.castBallot, hj, hballot]
  · -- the same vote once more
    have hsame : m.votedFor = call.request.candidateId := hfree.resolve_left hne
    rw [hmterm] at hL
    simp only [hL, Option.isNone_some, Bool.false_eq_true, and_false, if_false]
    exact hreplies (n := { m with votedFor := call.request.candidateId })
      (hside (hvoter.congr rfl hsame.symm id)) _
      (fun _ => ⟨L, by rw [hL, hsame, hcand]⟩)

private theorem handleAppend (h : Elections addresses s P) {k : Nat}
    {call : Call AppendEntriesRequest} (sent : s.appendCalls[k]? = some call) :
    Advances addresses P
      (s.setNode call.dest ((s.node call.dest).handleAppendEntries call.request).2)
      (track s P (.handleAppend k)) := by
  obtain ⟨hv, hg, hballot, hterm⟩ := observe_aside h.voting call.dest call.request.term
  have hside {n : RaftNode} (hn : Voter (P.observe call.dest call.request.term) call.dest n) :
      Advances addresses P (s.setNode call.dest n) (P.observe call.dest call.request.term) :=
    h.setNode hv hg hn hterm (fun t j _ => by rw [hballot])
  have hfollower := (h.voter call.dest).becomeFollowerLocked h.voting call.request.term
  simp only [track, sent]
  rcases (s.node call.dest).handleAppendEntries_cases call.request with
    ⟨hold, heq⟩ | ⟨_, ⟨_, heq⟩ | ⟨_, hsuccess, m, hm, heq⟩⟩
  · have hsame : P.observe call.dest call.request.term = P := by
      rw [Protocol.observe, if_neg]
      rw [(h.voter _).term]
      omega
    rw [heq, hsame]
    exact h.setNode' (h.voter _)
  · rw [heq]
    exact hside (hfollower.congr rfl rfl id)
  · rw [hsuccess]
    have hm' : Voter (P.observe call.dest call.request.term) call.dest m := by
      rw [hm]
      exact hfollower.congr rfl rfl id
    refine (hside ?_).trans fun hnew => hnew.congr rfl rfl rfl
    rcases heq with ⟨_, heq⟩ | ⟨_, heq⟩
    · rwa [heq]
    · rw [heq]
      have hk := RaftNode.applyCommittedEntries_kept
        { m with commitIndex := min call.request.leaderCommit m.log.lastIndex }
      exact hm'.congr hk.currentTerm.symm hk.votedFor.symm (fun hl => hk.state.trans hl)

def Backed (addresses : OrderedMap Nat Bytes) (P : History) (i term : Nat) : Prop :=
  ∃ Q, Majority (members addresses) Q ∧ i ∈ Q ∧ ∀ v ∈ Q, ∃ L, P.ballot term v = some (i, L)

/-- A candidate that has not moved on since its timeout has its own vote. -/
theorem ownVote (h : Elections addresses s P) (hr : Routed addresses s)
    (numbered : 0 ∉ addresses.keys) (hi : i ∈ addresses.keys)
    (hok : (s.node i).votedFor = (s.node i).nodeId) :
    ∃ L, P.ballot (s.node i).currentTerm i = some (i, L) := by
  have hown : (s.node i).votedFor = i := hok.trans (hr.node i).nodeId
  rcases (h.voter i).vote with ⟨hzero, _⟩ | ⟨_, hL⟩
  · exact absurd (hown.symm.trans hzero) (ne_of_mem_of_not_mem hi numbered)
  · rwa [hown] at hL

/-- Its own vote is enough for a node without peers. -/
theorem backed_alone (h : Elections addresses s P) (hr : Routed addresses s)
    (numbered : 0 ∉ addresses.keys) (here : s.point i = .election)
    (alone : (s.node i).peers.keys = []) (hok : (s.node i).votedFor = (s.node i).nodeId) :
    Backed addresses P i (s.node i).currentTerm := by
  have hi := hr.located here
  refine ⟨{i}, ⟨?_, ?_⟩, Finset.mem_singleton_self i, fun v hv => ?_⟩
  · exact Finset.singleton_subset_iff.mpr (List.mem_toFinset.mpr hi)
  · rw [card_members hi, ← OrderedMap.length_keys, ← (hr.node i).peers, alone]
    simp
  · obtain rfl := Finset.mem_singleton.mp hv
    exact h.ownVote hr numbered hi hok

/-- Enough votes counted in the term the candidate is still in. -/
theorem backed_count (h : Elections addresses s P) (hr : Routed addresses s)
    {req : RequestVoteRequest} {votes : Nat} (here : s.point i = .collecting req votes [])
    (enough : (s.node i).majority ≤ votes) (hterm : (s.node i).currentTerm = req.term) :
    Backed addresses P i (s.node i).currentTerm := by
  obtain ⟨V, hsub, hown, hcard, _, hV⟩ := h.counts here
  refine ⟨V, ⟨hsub, ?_⟩, hown, hterm ▸ hV⟩
  rw [RaftNode.majority, (hr.node i).peers] at enough
  rw [card_members (hr.located here).1, hcard]
  omega

/-- One step keeps the votes in order, as long as candidates stand by their term. -/
theorem step (h : Elections addresses s P) (hr : Routed addresses s)
    (numbered : 0 ∉ addresses.keys) {a : Action} (hok : StillStanding s a)
    (hs : step addresses s a = some s') : Advances addresses P s' (track s P a) := by
  cases step_cases hs with
  | timeout configured here state =>
    exact h.timeout hr configured (ne_of_mem_of_not_mem configured numbered)
  | enterElection configured here state => exact h.stay.setPoint (p := .election) trivial
  | winAlone here alone =>
    rw [track, if_pos alone]
    obtain ⟨Q, large, own, votes⟩ := h.backed_alone hr numbered here alone hok
    exact (h.becomeLeader large own votes).setPoint (p := .loop) trivial
  | @canvass i here others =>
    have hi := hr.located here
    rw [track, if_neg others]
    refine h.stay.setPoint (p := .collecting _ _ _)
      ⟨{i}, ?_, Finset.mem_singleton_self i, rfl, fun q hq hmem => ?_, fun v hv => ?_⟩
    · exact Finset.singleton_subset_iff.mpr (List.mem_toFinset.mpr hi)
    · rw [(hr.node i).peers] at hq
      exact (mem_peersOf.mp hq).2 (Finset.mem_singleton.mp hmem)
    · obtain rfl := Finset.mem_singleton.mp hv
      exact h.ownVote hr numbered hi hok
  | @sendVote i votes peer req rest here =>
    have hV := h.counts here
    have hnew : Elections addresses
        { s with voteCalls := s.voteCalls ++ [⟨i, peer, req⟩] } P := by
      refine ⟨h.voting, h.voter, fun j => (h.counted j).mono (.refl P) (List.prefix_append _ _),
        fun c hc => ?_, fun r hr => ?_⟩
      · rcases List.mem_append.mp hc with hc | hc
        · exact h.calls c hc
        · obtain ⟨V, _, hi, _, _, hV⟩ := hV
          exact List.mem_singleton.mp hc ▸ hV i hi
      · obtain ⟨call, hcall, hL⟩ := h.replies r hr
        exact ⟨call, getElem?_of_isPrefix (List.prefix_append _ _) hcall, hL⟩
    exact hnew.stay.setPoint (p := .awaitVote _ _ _ _) ⟨peer, by simp, hV⟩
  | deposed here later => exact (h.observe _ _).setPoint (p := .loop) trivial
  | @countVote i votes call req rest resp here answered current =>
    have hsame : P.observe i resp.term = P := by
      rw [Protocol.observe, if_neg]
      rw [(h.voter i).term]
      omega
    rw [track, hsame]
    exact h.stay.setPoint (p := .collecting _ _ _) (h.countVote hr here answered)
  | @win i votes req here enough =>
    have hterm : (s.node i).currentTerm = req.term := by
      simp only [StillStanding, here] at hok
      exact hok enough
    simp only [track, here, ge_iff_le, enough, if_true]
    obtain ⟨Q, large, own, votes⟩ := h.backed_count hr here enough hterm
    exact (h.becomeLeader large own votes).setPoint (p := .loop) trivial
  | @lose i votes req here short =>
    simp only [track, here, ge_iff_le, not_le.mpr short, if_false]
    exact h.stay.setPoint (p := .loop) trivial
  | enterHeartbeat configured here state => exact h.stay.setPoint (p := .heartbeat) trivial
  | @beginHeartbeat i here =>
    have hflush := h.extend i (s.node i).renumberedBatch
    exact (hflush.trans fun hnew => hnew.setNode' (hnew.voter i).flushBatch).setPoint
      (p := .replicating _ _) trivial
  | @sendAppend i commit peer rest here =>
    obtain ⟨hg, hnew⟩ :=
      h.stay.setPoint (i := i) (p := .awaitAppend commit rest s.appendCalls.length) trivial
    exact ⟨hg, hnew.voting, hnew.voter, hnew.counted, hnew.calls, hnew.replies⟩
  | @recvAppend i commit k rest call resp here sent answered =>
    suffices hset : Advances addresses P _ (track s P (.recvAppend i resp)) from
      hset.setPoint (by split_ifs <;> trivial)
    rcases (s.node i).appendResponse_cases call.dest call.request.entries resp with
      ⟨_, heq⟩ | ⟨hle, _, _, heq⟩
    · rw [heq]
      exact h.observe i resp.term
    · have hsame : P.observe i resp.term = P := by
        rw [Protocol.observe, if_neg]
        rw [(h.voter i).term]
        omega
      rw [heq, track, hsame]
      exact h.setNode' ((h.voter i).congr rfl rfl id)
  | finishHeartbeat here => exact h.stay.setPoint (p := .advance) trivial
  | @advance i here =>
    refine (h.setNode' ?_).setPoint (p := .apply) trivial
    obtain ⟨_, heq⟩ := (s.node i).advanceCommitIndex_kept
    rw [heq]
    exact (h.voter i).congr rfl rfl id
  | @apply i here =>
    refine (h.setNode' ?_).setPoint (p := .loop) trivial
    have hk := (s.node i).applyCommittedEntries_kept
    exact (h.voter i).congr hk.currentTerm.symm hk.votedFor.symm (fun hl => hk.state.trans hl)
  | handleVote sent => exact h.handleVote hr numbered sent
  | @handleAppend k call sent =>
    obtain ⟨hg, hnew⟩ := h.handleAppend sent
    exact ⟨hg, hnew.voting, hnew.voter, hnew.counted, hnew.calls, hnew.replies⟩
  | @propose i entry plain =>
    have hpropose : Advances addresses P s (track s P (.propose i entry)) := by
      rw [track]
      split_ifs
      · exact h.congr rfl rfl rfl
      · exact h.stay
    refine hpropose.trans fun hnew => hnew.setNode' ?_
    rcases (s.node i).propose_cases entry with ⟨_, heq⟩ | ⟨_, _, _, _, heq⟩
    · rw [heq]
      exact hnew.voter i
    · rw [heq]
      exact (hnew.voter i).congr rfl rfl id
  | @proposeBatch i entry plain =>
    refine h.setNode' ?_
    rcases (s.node i).proposeBatch_cases entry with ⟨_, heq⟩ | ⟨_, _, _, _, heq⟩
    · rw [heq]
      exact h.voter i
    · rw [heq]
      exact (h.voter i).congr rfl rfl id
  | @flushBatch i =>
    have hflush := h.extend i (s.node i).renumberedBatch
    exact hflush.trans fun hnew => hnew.setNode' (hnew.voter i).flushBatch

/-- Along a run whose candidates stand by their term, the history only grows. -/
theorem run (numbered : 0 ∉ addresses.keys) (h : Elections addresses s P)
    (hr : Routed addresses s) (hrun : Run (Cluster.step addresses) StillStanding s s') :
    Routed addresses s' ∧ ∃ P', Advances addresses P s' P' := by
  refine hrun.invariant (P := fun t => Routed addresses t ∧ ∃ P', Advances addresses P t P') ?_
    ⟨hr, P, h.stay⟩
  rintro t a t' ⟨hrt, P', hP'⟩ hok hs
  exact ⟨hrt.step hs, track t P' a, hP'.trans fun ht => ht.step hrt numbered hok hs⟩

end Elections

/-- The addresses all nodes are started with. Node ids count from one; zero is no node's id. -/
structure Membership where
  addresses : OrderedMap Nat Bytes
  numbered : 0 ∉ addresses.keys

/-- In runs whose candidates stand by their term, no two nodes ever lead in the same term, be it at
the same time or one after the other. -/
theorem election_safety (M : Membership) {s t : Cluster}
    (hs : Run (step M.addresses) StillStanding (start M.addresses) s)
    (ht : Run (step M.addresses) StillStanding s t) {p q : Nat}
    (hp : (s.node p).state = .leader) (hq : (t.node q).state = .leader)
    (hterm : (s.node p).currentTerm = (t.node q).currentTerm) : p = q := by
  obtain ⟨hr, P, hP⟩ := (Elections.start M.addresses).run M.numbered (.start M.addresses) hs
  obtain ⟨_, Q, hQ⟩ := hP.elections.run M.numbered hr ht
  have hwon := hQ.grows.leader ((hP.elections.voter p).leads hp)
  have hlead := (hQ.elections.voter q).leads hq
  rw [hterm, hlead] at hwon
  exact (Option.some.inj hwon).symm

def trio : Membership where
  addresses := ((OrderedMap.insert ∅ 1 []).insert 2 []).insert 3 []
  numbered := by decide

/-- Node 1 gets the votes of both others in term 1. -/
def canvass : List Action :=
  [.timeout 1, .enterElection 1, .beginElection 1, .sendVote 1, .handleVote 0, .recvVote 1 ⟨1, true⟩,
    .sendVote 1, .handleVote 1, .recvVote 1 ⟨1, true⟩]

/-- Before node 1 takes office, it votes for node 3 in term 2. -/
def lateWin : List Action :=
  canvass ++ [.timeout 3, .enterElection 3, .beginElection 3, .sendVote 3, .handleVote 2,
    .recvVote 3 ⟨2, true⟩, .sendVote 3, .recvVote 3 .unreachable, .finishElection 3,
    .finishElection 1]

/-- The votes of term 1 make node 1 a leader of term 2, next to the elected one. -/
theorem two_leaders_of_a_term : ¬ ∀ (M : Membership) (s : Cluster),
    Run (step M.addresses) (fun _ _ => True) (start M.addresses) s →
    ∀ p q, (s.node p).state = .leader → (s.node q).state = .leader →
      (s.node p).currentTerm = (s.node q).currentTerm → p = q := by
  intro h
  obtain ⟨s, hrun, h1, h3, hterm⟩ := reachable_of_execute (step trio.addresses)
    (fun _ _ => True) (start trio.addresses) lateWin
    (P := fun s => (s.node 1).state = .leader ∧ (s.node 3).state = .leader ∧
      (s.node 1).currentTerm = (s.node 3).currentTerm) (by decide)
  exact absurd (h trio s hrun 1 3 h1 h3 hterm) (by decide)

/-- Left alone, node 1 is the only leader of term 1. -/
theorem election_safety_trio : ∃ s, Run (step trio.addresses) StillStanding (start trio.addresses) s ∧
    (s.node 1).state = .leader ∧ ∀ q, (s.node q).state = .leader →
      (s.node 1).currentTerm = (s.node q).currentTerm → 1 = q := by
  obtain ⟨s, hrun, hlead⟩ := reachable_of_execute (step trio.addresses)
    StillStanding (start trio.addresses) (canvass ++ [.finishElection 1])
    (P := fun s => (s.node 1).state = .leader) (by decide)
  exact ⟨s, hrun, hlead, fun q hq hterm => election_safety trio hrun .start hlead hq hterm⟩

end Cluster
end MyEtcd
