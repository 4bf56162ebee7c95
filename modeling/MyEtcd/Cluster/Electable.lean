import Mathlib.Data.Finset.Max
import Mathlib.Data.Prod.Lex
import MyEtcd.Cluster.SplitVote

/-! When the cluster can still get a leader.
An election of which every message arrives is told as one step: it brings all other members to the
candidate's term, and the candidate wins if its log is the newest. Only a split vote stands in the way. -/
namespace MyEtcd
open Library Library.Consensus

namespace RaftNode
variable {n : RaftNode} {req : RequestVoteRequest}

/-- The condition of `HandleRequestVote` on the candidate's log. -/
def AsNew (log log' : RaftLog) : Prop :=
  log.lastTerm > log'.lastTerm ∨ log.lastTerm = log'.lastTerm ∧ log.lastIndex ≥ log'.lastIndex

/-- Among finitely many logs one is as new as all of them. -/
theorem exists_newest {l : List Nat} (h : l ≠ []) (log : Nat → RaftLog) :
    ∃ m ∈ l, ∀ j ∈ l, AsNew (log m) (log j) := by
  obtain ⟨k, hk⟩ := List.exists_mem_of_ne_nil l h
  obtain ⟨m, hm, hnewest⟩ := l.toFinset.exists_max_image
    (fun j => toLex ((log j).lastTerm, (log j).lastIndex)) ⟨k, List.mem_toFinset.mpr hk⟩
  exact ⟨m, List.mem_toFinset.mp hm, fun j hj =>
    (Prod.Lex.toLex_le_toLex.mp (hnewest j (List.mem_toFinset.mpr hj))).imp_right
      fun hsame => ⟨hsame.1.symm, hsame.2⟩⟩

/-- A request of a later term finds a follower, and is granted if the log allows it. -/
theorem handleRequestVote_later (h : n.currentTerm < req.term) :
    (n.handleRequestVote req).2.state = .follower ∧
      ((req.lastLogTerm > n.log.lastTerm ∨
        req.lastLogTerm = n.log.lastTerm ∧ req.lastLogIndex ≥ n.log.lastIndex) →
        (n.handleRequestVote req).1.voteGranted = true) := by
  unfold handleRequestVote
  rw [if_neg h.le.not_gt, if_pos h, becomeFollowerLocked_of_lt h]
  dsimp only
  rw [if_pos (.inl rfl)]
  split_ifs with hlog
  · exact ⟨rfl, fun _ => rfl⟩
  · exact ⟨rfl, fun hlog' => absurd hlog' hlog⟩

/-- A request of a term that is not old takes the node to that term. -/
theorem handleRequestVote_reached (h : n.currentTerm ≤ req.term) :
    (n.handleRequestVote req).1.term = req.term ∧
      (n.handleRequestVote req).2.currentTerm = req.term ∧
      (n.currentTerm = req.term → (n.handleRequestVote req).2.state = n.state) := by
  rcases n.handleRequestVote_cases req with ⟨hold, _⟩ | ⟨_, m, hm, hcases⟩
  · exact absurd hold h.not_gt
  have hkept : m.currentTerm = req.term ∧ (n.currentTerm = req.term → m.state = n.state) := by
    rw [hm]
    split_ifs with hlater
    · rw [becomeFollowerLocked_of_lt hlater]
      exact ⟨rfl, fun heq => absurd heq hlater.ne⟩
    · exact ⟨le_antisymm h (not_lt.mp hlater), fun _ => rfl⟩
  rcases hcases with heq | ⟨_, _, heq⟩
  · rw [heq]
    exact ⟨rfl, hkept⟩
  · rw [heq]
    exact ⟨rfl, hkept⟩

end RaftNode

namespace Cluster
variable {addresses : OrderedMap Nat Bytes} {s s' : Cluster} {x : Nat}

/-- What takes place in an election is sound, apart from its beginning and its end. -/
theorem sound_canvass (s : Cluster) (x : Nat) : Sound s (.timeout x) ∧ Sound s (.enterElection x) ∧
    Sound s (.sendVote x) ∧ (∀ id, Sound s (.handleVote id)) ∧ ∀ resp, Sound s (.recvVote x resp) :=
  ⟨⟨⟨trivial, trivial, trivial⟩, trivial, trivial, trivial⟩,
    ⟨⟨trivial, trivial, trivial⟩, trivial, trivial, trivial⟩,
    ⟨⟨trivial, trivial, trivial⟩, trivial, trivial, trivial⟩,
    fun _ => ⟨⟨trivial, trivial, trivial⟩, trivial, trivial, trivial⟩,
    fun _ => ⟨⟨trivial, trivial, trivial⟩, trivial, trivial, trivial⟩⟩

variable (addresses) in
/-- One call of `StartElection`, with the request and the answer delivered. -/
theorem ask {req : RequestVoteRequest} {votes peer : Nat} {rest : List Nat}
    (here : s.point x = .collecting req votes (peer :: rest)) (hne : x ≠ peer)
    (hx : (s.node x).currentTerm = req.term) (hterm : (s.node peer).currentTerm ≤ req.term) :
    ∃ s', Run (step addresses) Sound s s' ∧
      s'.point = Function.update s.point x (.collecting req
        (if ((s.node peer).handleRequestVote req).1.voteGranted then votes + 1 else votes) rest) ∧
      s'.node = Function.update s.node peer ((s.node peer).handleRequestVote req).2 := by
  obtain ⟨hanswer, _⟩ := RaftNode.handleRequestVote_reached hterm
  generalize hresp : ((s.node peer).handleRequestVote req).1 = resp at hanswer ⊢
  have hcalled : step addresses s (.sendVote x) = some
      { s.setPoint x (.awaitVote req votes rest s.voteCalls.length) with
        voteCalls := s.voteCalls ++ [⟨x, peer, req⟩] } := by
    simp only [step, here]
  generalize hasked : ({ s.setPoint x (.awaitVote req votes rest s.voteCalls.length) with
    voteCalls := s.voteCalls ++ [⟨x, peer, req⟩] } : Cluster) = asked at hcalled
  have hcall : asked.voteCalls[s.voteCalls.length]? = some ⟨x, peer, req⟩ := by simp [← hasked]
  have hnode : asked.node = s.node := by rw [← hasked, setPoint]
  have hhandled : step addresses asked (.handleVote s.voteCalls.length) = some
      { asked.setNode peer ((s.node peer).handleRequestVote req).2 with
        voteReplies := asked.voteReplies ++ [(s.voteCalls.length, resp)] } := by
    simp only [step, hcall, hnode, hresp]
  generalize hanswered : ({ asked.setNode peer ((s.node peer).handleRequestVote req).2 with
    voteReplies := asked.voteReplies ++ [(s.voteCalls.length, resp)] } : Cluster) = answered at hhandled
  have hawait : answered.point x = .awaitVote req votes rest s.voteCalls.length := by
    simp [← hanswered, setNode, ← hasked, setPoint]
  have hreply : (s.voteCalls.length, resp) ∈ answered.voteReplies := by simp [← hanswered]
  have hcurrent : ¬ resp.term > (answered.node x).currentTerm := by
    simp [← hanswered, setNode, hne, hnode, hx, hanswer]
  have hheard : step addresses answered (.recvVote x resp) = some (answered.setPoint x
      (.collecting req (if resp.voteGranted then votes + 1 else votes) rest)) := by
    simp only [step, hawait]
    rw [if_pos (.inr hreply), if_neg hcurrent]
  have hsound := fun t => sound_canvass t x
  refine ⟨_, ((Run.start.next (hsound s).2.2.1 hcalled).next ((hsound asked).2.2.2.1 _) hhandled).next
    ((hsound answered).2.2.2.2 _) hheard, ?_, ?_⟩
  · rw [setPoint, ← hanswered, setNode, ← hasked, setPoint, Function.update_idem]
  · rw [setPoint, ← hanswered, setNode, hnode]

def votesFor (s : Cluster) (req : RequestVoteRequest) (peers : List Nat) : Nat :=
  peers.countP fun p => ((s.node p).handleRequestVote req).1.voteGranted

variable (addresses) in
/-- The rest of `StartElection`, with every request and every answer delivered. -/
theorem poll {req : RequestVoteRequest} {votes : Nat} {rest : List Nat}
    (here : s.point x = .collecting req votes rest) (hx : (s.node x).currentTerm = req.term)
    (hterm : ∀ p ∈ rest, (s.node p).currentTerm ≤ req.term) (hnodup : rest.Nodup) (hself : x ∉ rest) :
    ∃ s', Run (step addresses) Sound s s' ∧
      s'.point = Function.update s.point x (.collecting req (votes + votesFor s req rest) []) ∧
      s'.node = fun p => if p ∈ rest then ((s.node p).handleRequestVote req).2 else s.node p := by
  induction rest generalizing s votes with
  | nil =>
    refine ⟨s, .start, ?_, ?_⟩
    · rw [votesFor, List.countP_nil, Nat.add_zero, ← here, Function.update_eq_self]
    · funext p
      rw [if_neg List.not_mem_nil]
  | cons peer rest ih =>
    obtain ⟨hpeer, hnodup⟩ := List.nodup_cons.mp hnodup
    have hne : x ≠ peer := fun heq => hself (heq ▸ List.mem_cons_self)
    obtain ⟨t, hrun, hpoint, hnode⟩ := ask addresses here hne hx
      (hterm peer List.mem_cons_self)
    have hrest {p : Nat} (hp : p ∈ rest) : t.node p = s.node p := by
      have hother : p ≠ peer := fun heq => hpeer (heq ▸ hp)
      rw [hnode, Function.update_of_ne hother]
    have hvotes : votesFor t req rest = votesFor s req rest :=
      List.countP_congr fun p hp => by rw [hrest hp]
    obtain ⟨u, hrun', hpoint', hnode'⟩ := ih (s := t) (by rw [hpoint, Function.update_self])
      (by rw [hnode, Function.update_of_ne hne, hx])
      (fun p hp => by rw [hrest hp]; exact hterm p (List.mem_cons_of_mem _ hp)) hnodup
      (fun hmem => hself (List.mem_cons_of_mem _ hmem))
    refine ⟨u, hrun.trans hrun', ?_, ?_⟩
    · rw [hpoint', hpoint, Function.update_idem, hvotes, votesFor, votesFor, List.countP_cons]
      congr 2
      split_ifs <;> omega
    · rw [hnode']
      funext p
      rcases eq_or_ne p peer with rfl | hp
      · rw [if_neg hpeer, if_pos List.mem_cons_self, hnode, Function.update_self]
      · rw [hnode, Function.update_of_ne hp]
        simp only [List.mem_cons, hp, false_or]

/-- The nodes after an election of `x` in which every message arrives. -/
def elected (s : Cluster) (x : Nat) (p : Nat) : RaftNode :=
  let req := (s.node x).voteRequest
  let peers := (s.node x).peers.keys
  if p = x then
    if (s.node x).majority ≤ 1 + votesFor s req peers then (s.node x).becomeLeaderLocked else s.node x
  else if p ∈ peers then ((s.node p).handleRequestVote req).2 else s.node p

theorem election (hb : Ballots addresses s) (here : s.point x = .loop)
    (hstate : (s.node x).state = .candidate)
    (hterm : ∀ p ∈ (s.node x).peers.keys, (s.node p).currentTerm ≤ (s.node x).currentTerm) :
    ∃ s', Run (step addresses) Sound s s' ∧ s'.point = s.point ∧ s'.node = elected s x := by
  obtain ⟨hx, hvote⟩ := hb.candidate x hstate
  have hself : x ∉ (s.node x).peers.keys := by
    rw [(hb.routed.node x).peers]
    exact fun hmem => (mem_peersOf.mp hmem).2 rfl
  have hloop : Function.update s.point x .loop = s.point := here ▸ Function.update_eq_self x s.point
  have hentered : step addresses s (.enterElection x) = some (s.setPoint x .election) := by
    simp only [step]
    rw [if_pos ⟨hx, here, hstate⟩]
  have hstart := Run.start.next (sound_canvass s x).2.1 hentered
  generalize hentry : s.setPoint x .election = entry at hstart
  have hsame : entry.node = s.node := by rw [← hentry, setPoint]
  have hat : entry.point = Function.update s.point x .election := by rw [← hentry, setPoint]
  have hbegin : Sound entry (.beginElection x) := by
    refine ⟨⟨?_, trivial, trivial⟩, trivial, trivial, trivial⟩
    rw [StillStanding, hsame, hvote, (hb.routed.node x).nodeId]
  by_cases halone : (s.node x).peers.keys = []
  · have hwon : step addresses entry (.beginElection x) = some
        ((entry.setNode x (s.node x).becomeLeaderLocked).setPoint x .loop) := by
      simp only [step, hat, Function.update_self, hsame, halone, if_true]
    have hmajority : (s.node x).majority ≤ 1 := by
      rw [RaftNode.majority, ← OrderedMap.length_keys, halone]
      rfl
    refine ⟨_, hstart.next hbegin hwon, ?_, ?_⟩
    · simp only [setPoint, setNode, hat, Function.update_idem, hloop]
    · funext p
      simp only [setPoint, setNode, elected, hsame, halone, Function.update_apply, votesFor,
        List.countP_nil, if_pos hmajority, List.not_mem_nil, if_false]
  · have hcanvass : step addresses entry (.beginElection x) = some
        (entry.setPoint x (.collecting (s.node x).voteRequest 1 (s.node x).peers.keys)) := by
      simp only [step, hat, Function.update_self, hsame, halone, if_true, if_false]
    generalize hasking : entry.setPoint x
      (.collecting (s.node x).voteRequest 1 (s.node x).peers.keys) = asking at hcanvass
    have hnode : asking.node = s.node := by rw [← hasking, setPoint, hsame]
    have hpoint : asking.point = Function.update s.point x
        (.collecting (s.node x).voteRequest 1 (s.node x).peers.keys) := by
      rw [← hasking, setPoint, hat, Function.update_idem]
    obtain ⟨t, hrun, hcounted, hpolled⟩ := poll addresses (s := asking)
      (by rw [hpoint, Function.update_self]) (by rw [hnode]; rfl) (by rw [hnode]; exact hterm)
      (OrderedMap.keys_nodup _) hself
    have hvotes (req : RequestVoteRequest) (peers : List Nat) :
        votesFor asking req peers = votesFor s req peers := by rw [votesFor, votesFor, hnode]
    rw [hvotes, hpoint, Function.update_idem] at hcounted
    rw [hnode] at hpolled
    have hcandidate : t.node x = s.node x := (congrFun hpolled x).trans (if_neg hself)
    have hdone : t.point x = .collecting (s.node x).voteRequest
        (1 + votesFor s (s.node x).voteRequest (s.node x).peers.keys) [] := by
      rw [hcounted, Function.update_self]
    have hfinish : Sound t (.finishElection x) := by
      refine ⟨⟨?_, trivial, trivial⟩, trivial, trivial, trivial⟩
      simp only [StillStanding, hdone, hcandidate]
      exact fun _ => rfl
    have hsofar := ((hstart.next hbegin hcanvass).trans hrun)
    by_cases hmajority : (s.node x).majority ≤
        1 + votesFor s (s.node x).voteRequest (s.node x).peers.keys
    · have hend : step addresses t (.finishElection x) = some
          ((t.setNode x (s.node x).becomeLeaderLocked).setPoint x .loop) := by
        simp only [step, hdone, hcandidate, ge_iff_le, if_pos hmajority]
      refine ⟨_, hsofar.next hfinish hend, ?_, ?_⟩
      · simp only [setPoint, setNode, hcounted, Function.update_idem, hloop]
      · funext p
        simp only [setPoint, setNode, elected, hpolled, Function.update_apply, if_pos hmajority]
    · have hend : step addresses t (.finishElection x) = some (t.setPoint x .loop) := by
        simp only [step, hdone, hcandidate, ge_iff_le, if_neg hmajority]
      refine ⟨_, hsofar.next hfinish hend, ?_, ?_⟩
      · simp only [setPoint, hcounted, Function.update_idem, hloop]
      · funext p
        simp only [setPoint, elected, if_neg hmajority]
        rcases eq_or_ne p x with rfl | hp
        · rw [if_pos rfl, hcandidate]
        · rw [if_neg hp, hpolled]

/-- Calls and answers have come and gone, and no log has changed. -/
structure Canvasses (addresses : OrderedMap Nat Bytes) (s s' : Cluster) : Prop where
  run : Run (step addresses) Sound s s'
  point : s'.point = s.point
  log : ∀ i, (s'.node i).log = (s.node i).log
  buffer : ∀ i, (s'.node i).batchBuffer = (s.node i).batchBuffer

namespace Canvasses
variable {t : Cluster}

theorem refl (addresses : OrderedMap Nat Bytes) (s : Cluster) : Canvasses addresses s s :=
  ⟨.start, rfl, fun _ => rfl, fun _ => rfl⟩

theorem trans (h : Canvasses addresses s s') (h' : Canvasses addresses s' t) :
    Canvasses addresses s t where
  run := h.run.trans h'.run
  point := h'.point.trans h.point
  log i := (h'.log i).trans (h.log i)
  buffer i := (h'.buffer i).trans (h.buffer i)

theorem ballots (h : Canvasses addresses s s') (hb : Ballots addresses s)
    (numbered : 0 ∉ addresses.keys) : Ballots addresses s' :=
  h.run.invariant (fun hb _ hs => hb.step numbered hs) hb

end Canvasses

theorem elected_kept (s : Cluster) (x p : Nat) : (elected s x p).log = (s.node p).log ∧
    (elected s x p).batchBuffer = (s.node p).batchBuffer := by
  rw [elected]
  split_ifs with hp hmajority hpeer
  · exact hp ▸ ⟨rfl, rfl⟩
  · exact hp ▸ ⟨rfl, rfl⟩
  · obtain ⟨_, _, _, heq⟩ := (s.node p).handleRequestVote_eq (s.node x).voteRequest
    exact heq ▸ ⟨rfl, rfl⟩
  · exact ⟨rfl, rfl⟩

/-- What an election of `x` in the highest term does to the members. -/
structure Outcome (addresses : OrderedMap Nat Bytes) (s s' : Cluster) (x : Nat) : Prop
    extends Canvasses addresses s s' where
  term : ∀ j ∈ addresses.keys, (s'.node j).currentTerm = (s.node x).currentTerm
  yields : ∀ j ∈ addresses.keys, j ≠ x → (s.node j).currentTerm < (s.node x).currentTerm →
    (s'.node j).state = .follower
  stays : ∀ j ∈ addresses.keys, j ≠ x → (s.node j).currentTerm = (s.node x).currentTerm →
    (s'.node j).state = (s.node j).state
  wins : (∀ j ∈ addresses.keys, j ≠ x → (s.node j).currentTerm < (s.node x).currentTerm ∧
    RaftNode.AsNew (s.node x).log (s.node j).log) → (s'.node x).state = .leader

theorem election_outcome (hb : Ballots addresses s) (here : s.point x = .loop)
    (hstate : (s.node x).state = .candidate)
    (htop : ∀ j ∈ addresses.keys, (s.node j).currentTerm ≤ (s.node x).currentTerm) :
    ∃ s', Outcome addresses s s' x := by
  have hpeer {j : Nat} : j ∈ (s.node x).peers.keys ↔ j ∈ addresses.keys ∧ j ≠ x := by
    rw [(hb.routed.node x).peers]
    exact mem_peersOf
  obtain ⟨s', hrun, hpoint, hnode⟩ := election hb here hstate fun p hp => htop p (hpeer.mp hp).1
  have hother {j : Nat} (hj : j ∈ addresses.keys) (hne : j ≠ x) :
      s'.node j = ((s.node j).handleRequestVote (s.node x).voteRequest).2 := by
    rw [hnode, elected, if_neg hne, if_pos (hpeer.mpr ⟨hj, hne⟩)]
  have hself : s'.node x = if (s.node x).majority ≤
      1 + votesFor s (s.node x).voteRequest (s.node x).peers.keys then (s.node x).becomeLeaderLocked
      else s.node x := by
    rw [hnode, elected]
    exact if_pos rfl
  refine ⟨s', ⟨hrun, hpoint, fun i => ?_, fun i => ?_⟩, fun j hj => ?_, fun j hj hne hlt => ?_,
    fun j hj hne heq => ?_, fun hnew => ?_⟩
  · rw [hnode]
    exact (elected_kept s x i).1
  · rw [hnode]
    exact (elected_kept s x i).2
  · rcases eq_or_ne j x with rfl | hne
    · rw [hself]
      split_ifs <;> rfl
    · rw [hother hj hne]
      exact (RaftNode.handleRequestVote_reached (htop j hj : _ ≤ (s.node x).voteRequest.term)).2.1
  · rw [hother hj hne]
    exact (RaftNode.handleRequestVote_later (hlt : _ < (s.node x).voteRequest.term)).1
  · rw [hother hj hne]
    exact (RaftNode.handleRequestVote_reached (htop j hj : _ ≤ (s.node x).voteRequest.term)).2.2 heq
  · have hvotes : votesFor s (s.node x).voteRequest (s.node x).peers.keys =
        (s.node x).peers.keys.length := by
      refine List.countP_eq_length.mpr fun p hp => ?_
      obtain ⟨hlt, hlog⟩ := hnew p (hpeer.mp hp).1 (hpeer.mp hp).2
      exact (RaftNode.handleRequestVote_later (hlt : _ < (s.node x).voteRequest.term)).2 hlog
    have hmajority : (s.node x).majority ≤
        1 + votesFor s (s.node x).voteRequest (s.node x).peers.keys := by
      rw [hvotes, OrderedMap.length_keys, RaftNode.majority]
      omega
    rw [hself, if_pos hmajority]
    rfl

/-- A leader whose term no member has passed. -/
def Leads (addresses : OrderedMap Nat Bytes) (s : Cluster) (m : Nat) : Prop :=
  m ∈ addresses.keys ∧ (s.node m).state = .leader ∧
    ∀ j ∈ addresses.keys, (s.node j).currentTerm ≤ (s.node m).currentTerm

structure Calm (addresses : OrderedMap Nat Bytes) (s : Cluster) : Prop where
  ballots : Ballots addresses s
  loop : ∀ i ∈ addresses.keys, s.point i = .loop

theorem Calm.canvasses (h : Calm addresses s) (numbered : 0 ∉ addresses.keys)
    (hc : Canvasses addresses s s') : Calm addresses s' :=
  ⟨hc.ballots h.ballots numbered, fun i hi => hc.point ▸ h.loop i hi⟩

/-- A follower in the highest term asks for votes in the next one. -/
theorem campaign (h : Calm addresses s) (numbered : 0 ∉ addresses.keys) {y : Nat}
    (hy : y ∈ addresses.keys) (hstate : (s.node y).state = .follower)
    (htop : ∀ j ∈ addresses.keys, (s.node j).currentTerm ≤ (s.node y).currentTerm) :
    ∃ s', Canvasses addresses s s' ∧
      (∀ j ∈ addresses.keys, (s'.node j).currentTerm = (s.node y).currentTerm + 1) ∧
      (∀ j ∈ addresses.keys, j ≠ y → (s'.node j).state = .follower) ∧
      ((∀ j ∈ addresses.keys, RaftNode.AsNew (s.node y).log (s.node j).log) →
        (s'.node y).state = .leader) := by
  have hstep : step addresses s (.timeout y) = some (s.setNode y (s.node y).becomeCandidateLocked) := by
    simp only [step]
    rw [if_pos ⟨hy, h.loop y hy, hstate⟩]
  generalize ht : s.setNode y (s.node y).becomeCandidateLocked = t at hstep
  have hself : t.node y = (s.node y).becomeCandidateLocked := by simp [← ht, setNode]
  have hother {j : Nat} (hne : j ≠ y) : t.node j = s.node j := by simp [← ht, setNode, hne]
  have hlog (j : Nat) : (t.node j).log = (s.node j).log ∧
      (t.node j).batchBuffer = (s.node j).batchBuffer := by
    rcases eq_or_ne j y with rfl | hne
    · rw [hself]
      exact ⟨rfl, rfl⟩
    · rw [hother hne]
      exact ⟨rfl, rfl⟩
  have hlower {j : Nat} (hj : j ∈ addresses.keys) (hne : j ≠ y) :
      (t.node j).currentTerm < (t.node y).currentTerm := by
    rw [hself, hother hne]
    exact Nat.lt_succ_of_le (htop j hj)
  obtain ⟨u, hu⟩ := election_outcome (x := y) (h.ballots.step numbered hstep)
    (by rw [← ht]; exact h.loop y hy) (by rw [hself]; rfl) fun j hj => by
      rcases eq_or_ne j y with rfl | hne
      · exact le_rfl
      · exact (hlower hj hne).le
  have hfirst : Canvasses addresses s t :=
    ⟨Run.start.next (sound_canvass s y).1 hstep, by rw [← ht, setNode], fun j => (hlog j).1,
      fun j => (hlog j).2⟩
  refine ⟨u, hfirst.trans hu.toCanvasses, fun j hj => ?_, fun j hj hne => ?_, fun hnew => ?_⟩
  · rw [hu.term j hj, hself]
    rfl
  · exact hu.yields j hj hne (hlower hj hne)
  · refine hu.wins fun j hj hne => ⟨hlower hj hne, ?_⟩
    rw [(hlog y).1, (hlog j).1]
    exact hnew j hj

/-- A follower in the highest term is enough: if it is not elected, it has brought all others to its
term, and the one with the newest log can be elected next. -/
theorem follower_leads (h : Calm addresses s) (numbered : 0 ∉ addresses.keys) {y : Nat}
    (hy : y ∈ addresses.keys) (hstate : (s.node y).state = .follower)
    (htop : ∀ j ∈ addresses.keys, (s.node j).currentTerm ≤ (s.node y).currentTerm) :
    ∃ s' m, Canvasses addresses s s' ∧ Leads addresses s' m := by
  obtain ⟨t, hfirst, hterm, hfollow, hwin⟩ := campaign h numbered hy hstate htop
  obtain ⟨m, hm, hnewest⟩ := RaftNode.exists_newest (List.ne_nil_of_mem hy) fun j => (s.node j).log
  rcases eq_or_ne m y with rfl | hne
  · exact ⟨t, m, hfirst, hm, hwin hnewest, fun j hj => by rw [hterm j hj, hterm m hm]⟩
  · have hcalm := h.canvasses numbered hfirst
    obtain ⟨u, hsecond, hterm', _, hwin'⟩ := campaign hcalm numbered hm (hfollow m hm hne)
      fun j hj => by rw [hterm j hj, hterm m hm]
    refine ⟨u, m, hfirst.trans hsecond, hm, hwin' fun j hj => ?_,
      fun j hj => by rw [hterm' j hj, hterm' m hm]⟩
    rw [hfirst.log m, hfirst.log j]
    exact hnewest j hj

/-- From threads at rest, a leader can be elected unless the vote is split among several members. -/
theorem calm_leads (h : Calm addresses s) (numbered : 0 ∉ addresses.keys)
    (hne : addresses.keys ≠ [])
    (hfree : addresses.size = 1 ∨ ∀ term, ¬ Split addresses s term) :
    ∃ s' m, Canvasses addresses s s' ∧ Leads addresses s' m := by
  obtain ⟨k, hk⟩ := List.exists_mem_of_ne_nil _ hne
  obtain ⟨x, hx, htop⟩ := addresses.keys.toFinset.exists_max_image
    (fun j => (s.node j).currentTerm) ⟨k, List.mem_toFinset.mpr hk⟩
  rw [List.mem_toFinset] at hx
  replace htop (j : Nat) (hj : j ∈ addresses.keys) :
      (s.node j).currentTerm ≤ (s.node x).currentTerm := htop j (List.mem_toFinset.mpr hj)
  cases hstate : (s.node x).state with
  | leader => exact ⟨s, x, .refl addresses s, hx, hstate, htop⟩
  | follower => exact follower_leads h numbered hx hstate htop
  | candidate =>
    obtain ⟨t, ht⟩ := election_outcome h.ballots (h.loop x hx) hstate htop
    have htop' (y : Nat) (hy : y ∈ addresses.keys) (j : Nat) (hj : j ∈ addresses.keys) :
        (t.node j).currentTerm ≤ (t.node y).currentTerm := by rw [ht.term j hj, ht.term y hy]
    rcases hfree with hone | hfree
    · refine ⟨t, x, ht.toCanvasses, hx, ht.wins fun j hj hjx => ?_, htop' x hx⟩
      obtain ⟨a, ha⟩ := List.length_eq_one_iff.mp ((OrderedMap.length_keys _).trans hone)
      rw [ha, List.mem_singleton] at hj hx
      exact absurd (hj.trans hx.symm) hjx
    · -- somebody else is no candidate of that term
      obtain ⟨y, hy, hnot⟩ : ∃ y ∈ addresses.keys, ¬ ((s.node y).state = .candidate ∧
          (s.node y).currentTerm = (s.node x).currentTerm) := by
        by_contra hall
        exact hfree (s.node x).currentTerm fun y hy => by_contra fun hnot => hall ⟨y, hy, hnot⟩
      have hyx : y ≠ x := by
        rintro rfl
        exact hnot ⟨hstate, rfl⟩
      have hcalm := h.canvasses numbered ht.toCanvasses
      rcases (htop y hy).lt_or_eq with hlt | heq
      · obtain ⟨u, m, hu, hm⟩ := follower_leads hcalm numbered hy (ht.yields y hy hyx hlt) (htop' y hy)
        exact ⟨u, m, ht.toCanvasses.trans hu, hm⟩
      · have hkept := ht.stays y hy hyx heq
        cases hystate : (s.node y).state with
        | candidate => exact absurd ⟨hystate, heq⟩ hnot
        | leader => exact ⟨t, y, ht.toCanvasses, hy, hkept.trans hystate, htop' y hy⟩
        | follower =>
          obtain ⟨u, m, hu, hm⟩ := follower_leads hcalm numbered hy (hkept.trans hystate) (htop' y hy)
          exact ⟨u, m, ht.toCanvasses.trans hu, hm⟩

/-- A thread has gone on without hearing anything. Its node is where it was, or has come to lead. -/
structure Deaf (addresses : OrderedMap Nat Bytes) (s s' : Cluster) (i : Nat) : Prop where
  run : Run (step addresses) (fun _ _ => True) s s'
  point : ∀ j ≠ i, s'.point j = s.point j
  node : ∀ j, (s'.node j).state = .leader ∨ (s'.node j).state = (s.node j).state ∧
    (s'.node j).currentTerm = (s.node j).currentTerm

namespace Deaf
variable {t : Cluster} {i : Nat}

theorem refl (addresses : OrderedMap Nat Bytes) (s : Cluster) (i : Nat) : Deaf addresses s s i :=
  ⟨.start, fun _ _ => rfl, fun _ => .inr ⟨rfl, rfl⟩⟩

theorem next (h : Deaf addresses s t i) {a : Action} {u : Cluster} {n : RaftNode} {p : RunPoint}
    (hs : step addresses t a = some u) (hnode : u.node = Function.update t.node i n)
    (hpoint : u.point = Function.update t.point i p)
    (hn : n.state = .leader ∨ n.state = (t.node i).state ∧ n.currentTerm = (t.node i).currentTerm) :
    Deaf addresses s u i := by
  refine ⟨h.run.next trivial hs, fun j hj => ?_, fun j => ?_⟩
  · rw [hpoint, Function.update_of_ne hj, h.point j hj]
  · rw [hnode]
    rcases eq_or_ne j i with rfl | hj
    · rw [Function.update_self]
      rcases hn with hlead | ⟨hstate, hterm⟩
      · exact .inl hlead
      · rw [hstate, hterm]
        exact h.node j
    · rw [Function.update_of_ne hj]
      exact h.node j

theorem move (h : Deaf addresses s t i) {a : Action} {u : Cluster} {p : RunPoint}
    (hs : step addresses t a = some u) (hnode : u.node = t.node)
    (hpoint : u.point = Function.update t.point i p) : Deaf addresses s u i :=
  h.next hs (hnode.trans (Function.update_eq_self i t.node).symm) hpoint (.inr ⟨rfl, rfl⟩)

theorem collecting {req : RequestVoteRequest} {votes : Nat} {rest : List Nat}
    (h : Deaf addresses s t i) (here : t.point i = .collecting req votes rest) :
    ∃ u, Deaf addresses s u i ∧ u.point i = .loop := by
  induction rest generalizing t votes with
  | nil =>
    by_cases hmajority : (t.node i).majority ≤ votes
    · have hs : step addresses t (.finishElection i) =
          some ((t.setNode i (t.node i).becomeLeaderLocked).setPoint i .loop) := by
        simp only [step, here, ge_iff_le, if_pos hmajority]
      exact ⟨_, h.next hs rfl rfl (.inl rfl), Function.update_self _ _ _⟩
    · have hs : step addresses t (.finishElection i) = some (t.setPoint i .loop) := by
        simp only [step, here, ge_iff_le, if_neg hmajority]
      exact ⟨_, h.move hs rfl rfl, Function.update_self _ _ _⟩
  | cons peer rest ih =>
    have hs : step addresses t (.sendVote i) = some
        { t.setPoint i (.awaitVote req votes rest t.voteCalls.length) with
          voteCalls := t.voteCalls ++ [⟨i, peer, req⟩] } := by
      simp only [step, here]
    generalize hu : ({ t.setPoint i (.awaitVote req votes rest t.voteCalls.length) with
      voteCalls := t.voteCalls ++ [⟨i, peer, req⟩] } : Cluster) = u at hs
    have hpoint : u.point = Function.update t.point i (.awaitVote req votes rest t.voteCalls.length) := by
      rw [← hu, setPoint]
    have hs' : step addresses u (.recvVote i .unreachable) =
        some (u.setPoint i (.collecting req votes rest)) := by
      simp only [step, hpoint, Function.update_self, RequestVoteResponse.unreachable, true_or, if_true,
        gt_iff_lt, Nat.not_lt_zero, if_false, Bool.false_eq_true]
    exact ih ((h.move hs (by rw [← hu, setPoint]) hpoint).move hs' rfl rfl) (Function.update_self _ _ _)

theorem advance (h : Deaf addresses s t i) (here : t.point i = .advance) :
    ∃ u, Deaf addresses s u i ∧ u.point i = .loop := by
  have hs : step addresses t (.advance i) =
      some ((t.setNode i (t.node i).advanceCommitIndex).setPoint i .apply) := by
    simp only [step, here, if_true]
  generalize hu : (t.setNode i (t.node i).advanceCommitIndex).setPoint i .apply = u at hs
  have hpoint : u.point = Function.update t.point i .apply := by rw [← hu, setPoint, setNode]
  have hnode : u.node = Function.update t.node i (t.node i).advanceCommitIndex := by
    rw [← hu, setPoint, setNode]
  have hs' : step addresses u (.apply i) =
      some ((u.setNode i (u.node i).applyCommittedEntries).setPoint i .loop) := by
    simp only [step, hpoint, Function.update_self, if_true]
  obtain ⟨_, hadvanced⟩ := (t.node i).advanceCommitIndex_kept
  have hkept := (u.node i).applyCommittedEntries_kept
  refine ⟨_, (h.next hs hnode hpoint (.inr ?_)).next hs' rfl rfl
    (.inr ⟨hkept.state.symm, hkept.currentTerm.symm⟩), Function.update_self _ _ _⟩
  rw [hadvanced]
  exact ⟨rfl, rfl⟩

theorem unheard (h : Deaf addresses s t i) {commit id : Nat} {rest : List Nat}
    (here : t.point i = .awaitAppend commit rest id) {call : Call AppendEntriesRequest}
    (hcall : t.appendCalls[id]? = some call) :
    ∃ u, Deaf addresses s u i ∧ u.point i = .replicating commit rest := by
  have hs : step addresses t (.recvAppend i .unreachable) =
      some ((t.setNode i ((t.node i).appendResponse call.dest call.request.entries .unreachable)).setPoint
        i (.replicating commit rest)) := by
    simp only [step, here, hcall, AppendEntriesResponse.unreachable, true_or, if_true, gt_iff_lt,
      Nat.not_lt_zero, if_false]
  refine ⟨_, h.next hs rfl rfl (.inr ?_), Function.update_self _ _ _⟩
  rcases (t.node i).appendResponse_cases call.dest call.request.entries .unreachable with
    ⟨hlater, _⟩ | ⟨_, _, _, heq⟩
  · exact absurd hlater (Nat.not_lt_zero _)
  · rw [heq]
    exact ⟨rfl, rfl⟩

theorem replicating {commit : Nat} {rest : List Nat} (h : Deaf addresses s t i)
    (here : t.point i = .replicating commit rest) : ∃ u, Deaf addresses s u i ∧ u.point i = .loop := by
  induction rest generalizing t with
  | nil =>
    have hs : step addresses t (.finishHeartbeat i) = some (t.setPoint i .advance) := by
      simp only [step, here]
    exact (h.move hs rfl rfl).advance (Function.update_self _ _ _)
  | cons peer rest ih =>
    have hs : step addresses t (.sendAppend i) = some
        { t.setPoint i (.awaitAppend commit rest t.appendCalls.length) with
          appendCalls := t.appendCalls ++ [⟨i, peer, (t.node i).appendRequest peer commit⟩] } := by
      simp only [step, here]
    obtain ⟨u, hu, hpoint⟩ := (h.move hs rfl rfl).unheard (Function.update_self _ _ _)
      (List.getElem?_concat_length ..)
    exact ih hu hpoint

/-- Wherever a thread is, it can come back to the beginning of its loop. -/
theorem settle (hrouted : Routed addresses s) (i : Nat) :
    ∃ u, Deaf addresses s u i ∧ u.point i = .loop := by
  have h := refl addresses s i
  cases here : s.point i with
  | loop => exact ⟨s, h, here⟩
  | election =>
    by_cases halone : (s.node i).peers.keys = []
    · have hs : step addresses s (.beginElection i) =
          some ((s.setNode i (s.node i).becomeLeaderLocked).setPoint i .loop) := by
        simp only [step, here, halone, if_true]
      exact ⟨_, h.next hs rfl rfl (.inl rfl), Function.update_self _ _ _⟩
    · have hs : step addresses s (.beginElection i) = some
          (s.setPoint i (.collecting (s.node i).voteRequest 1 (s.node i).peers.keys)) := by
        simp only [step, here, halone, if_true, if_false]
      exact (h.move hs rfl rfl).collecting (Function.update_self _ _ _)
  | collecting req votes rest => exact h.collecting here
  | awaitVote req votes rest id =>
    have hs : step addresses s (.recvVote i .unreachable) =
        some (s.setPoint i (.collecting req votes rest)) := by
      simp only [step, here, RequestVoteResponse.unreachable, true_or, if_true, gt_iff_lt,
        Nat.not_lt_zero, if_false, Bool.false_eq_true]
    exact (h.move hs rfl rfl).collecting (Function.update_self _ _ _)
  | heartbeat =>
    have hs : step addresses s (.beginHeartbeat i) = some ((s.setNode i (s.node i).flushBatch).setPoint i
        (.replicating (s.node i).commitIndex (s.node i).peers.keys)) := by
      simp only [step, here, if_true]
    refine (h.next hs rfl rfl (.inr ?_)).replicating (Function.update_self _ _ _)
    rcases (s.node i).flushBatch_cases with ⟨_, heq⟩ | ⟨_, heq⟩
    · rw [heq]
      exact ⟨rfl, rfl⟩
    · rw [heq]
      exact ⟨rfl, rfl⟩
  | replicating commit rest => exact h.replicating here
  | awaitAppend commit rest id =>
    obtain ⟨_, _, call, hcall, _⟩ := hrouted.located here
    obtain ⟨u, hu, hpoint⟩ := h.unheard here hcall
    exact hu.replicating hpoint
  | advance => exact h.advance here
  | apply =>
    have hs : step addresses s (.apply i) =
        some ((s.setNode i (s.node i).applyCommittedEntries).setPoint i .loop) := by
      simp only [step, here, if_true]
    have hkept := (s.node i).applyCommittedEntries_kept
    exact ⟨_, h.next hs rfl rfl (.inr ⟨hkept.state.symm, hkept.currentTerm.symm⟩),
      Function.update_self _ _ _⟩

end Deaf

theorem settle_all (hrouted : Routed addresses s) (l : List Nat) :
    ∃ u, Run (step addresses) (fun _ _ => True) s u ∧ (∀ i ∈ l, u.point i = .loop) ∧
      ∀ j, (u.node j).state = .leader ∨ (u.node j).state = (s.node j).state ∧
        (u.node j).currentTerm = (s.node j).currentTerm := by
  induction l with
  | nil => exact ⟨s, .start, fun i hi => absurd hi List.not_mem_nil, fun _ => .inr ⟨rfl, rfl⟩⟩
  | cons i l ih =>
    obtain ⟨t, hrun, hloop, hnode⟩ := ih
    have ht : Routed addresses t := hrun.invariant (fun ht _ hs => ht.step hs) hrouted
    obtain ⟨u, hu, hi⟩ := Deaf.settle ht i
    refine ⟨u, hrun.trans hu.run, fun k hk => ?_, fun j => ?_⟩
    · rcases eq_or_ne k i with rfl | hne
      · exact hi
      · rw [hu.point k hne]
        exact hloop k ((List.mem_cons.mp hk).resolve_left hne)
    · rcases hu.node j with hlead | ⟨hstate, hterm⟩
      · exact .inl hlead
      · rw [hstate, hterm]
        exact hnode j

/-- From every state of every run a leader can still be elected, whatever has been lost so far, except
where the vote is split among all of several members. -/
theorem leader_electable_iff (M : Membership) (hne : M.addresses.keys ≠ [])
    (h : Run (step M.addresses) (fun _ _ => True) (start M.addresses) s) :
    (∃ s' m, Run (step M.addresses) (fun _ _ => True) s s' ∧ Leads M.addresses s' m) ↔
      M.addresses.size = 1 ∨ ∀ term, ¬ Split M.addresses s term := by
  have hb : Ballots M.addresses s := .of_run M.numbered h
  constructor
  · rintro ⟨s', m, h', hm, hlead, _⟩
    by_contra hstuck
    obtain ⟨hmany, hsome⟩ := not_or.mp hstuck
    obtain ⟨term, hsplit⟩ := not_forall_not.mp hsome
    have hpos := List.length_pos_iff.mpr hne
    rw [OrderedMap.length_keys] at hpos
    obtain ⟨hfinal, _⟩ := hsplit.run hb M.numbered (by omega) h'
    cases hlead.symm.trans (hfinal m hm).1
  · intro hfree
    obtain ⟨t, hrun, hloop, hnode⟩ := settle_all hb.routed M.addresses.keys
    have hcalm : Calm M.addresses t :=
      ⟨hrun.invariant (fun hb _ hs => hb.step M.numbered hs) hb, hloop⟩
    obtain ⟨u, m, hu, hm⟩ := calm_leads hcalm M.numbered hne <| hfree.imp_right fun hfree term hsplit =>
      hfree term fun i hi => by
        rcases hnode i with hlead | ⟨hstate, hterm⟩
        · cases hlead.symm.trans (hsplit i hi).1
        · rw [← hstate, ← hterm]
          exact hsplit i hi
    exact ⟨u, m, hrun.trans (hu.run.mono fun _ _ _ => trivial), hm⟩

theorem leader_electable_iff_trio : ∃ s, Run (step trio.addresses) (fun _ _ => True)
    (start trio.addresses) s ∧ (s.node 1).state = .candidate ∧ (s.node 2).state = .candidate ∧
    ∃ s' m, Run (step trio.addresses) (fun _ _ => True) s s' ∧ Leads trio.addresses s' m := by
  obtain ⟨s, h, h1, h2, h3⟩ := reachable_of_execute (step trio.addresses) (fun _ _ => True)
    (start trio.addresses) [.timeout 1, .timeout 2] (P := fun s => (s.node 1).state = .candidate ∧
      (s.node 2).state = .candidate ∧ (s.node 3).state = .follower) (by decide)
  refine ⟨s, h, h1, h2, (leader_electable_iff trio (by decide) h).mpr <| .inr fun term hsplit => ?_⟩
  cases h3.symm.trans (hsplit 3 (by decide)).1

end Cluster
end MyEtcd
