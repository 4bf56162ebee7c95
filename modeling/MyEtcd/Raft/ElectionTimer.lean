import MyEtcd.Raft.Worker

/-! When a node holds elections, and in which terms.
Only the end of a follower's wait raises the term; a candidate's election is repeated in the term it
has. Nothing that a follower hears makes its wait longer. -/
namespace MyEtcd
open Library

namespace Worker

/-- The term the next election takes is new, wherever the thread may go on to one; in the Leader case
and behind it the node is no candidate. -/
def Anew (w : Worker) : Prop :=
  match w.stage with
  | .switch (some .follower) | .election => ∀ term ∈ w.elections, term < w.node.currentTerm
  | .switch (some .candidate) => True
  | .switch _ => w.node.state ≠ .candidate
  | stage => stage.Leading → w.node.state ≠ .candidate

/-- The elections so far were in rising terms, and none is ahead of the node's term. -/
structure Rising (w : Worker) : Prop where
  sorted : w.elections.Pairwise (· > ·)
  bounded : ∀ term ∈ w.elections, term ≤ w.node.currentTerm
  anew : Anew w

/-- The thread does not go from the Candidate case to the Candidate case. -/
def Once (w : Worker) : Event → Prop
  | .enter => w.stage = .switch (some .candidate) → w.node.state ≠ .candidate
  | _ => True

instance (w : Worker) (e : Event) : Decidable (Once w e) := by
  unfold Once
  split <;> infer_instance

namespace Rising
variable {timing : Timing} {w w' : Worker}

private theorem moves (h : Rising w) {n : RaftNode} (hyields : RaftNode.Yields w.node n)
    {stage : RunStage} (hanew : Anew (w.goTo n stage)) : Rising (w.goTo n stage) :=
  ⟨h.sorted, fun term ht => (h.bounded term ht).trans hyields.term, hanew⟩

private theorem anew_of_yields {n : RaftNode} (hanew : Anew w)
    (hyields : RaftNode.Yields w.node n) {heard : List Nat} :
    Anew { w with node := n, heard := heard } := by
  unfold Anew at hanew ⊢
  dsimp only
  split at hanew
  · exact fun term ht => (hanew term ht).trans_le hyields.term
  · exact fun term ht => (hanew term ht).trans_le hyields.term
  · trivial
  · exact fun hcandidate => hanew (hyields.candidate hcandidate).1
  · exact fun hleading hcandidate => hanew hleading (hyields.candidate hcandidate).1

theorem step (h : Rising w) {e : Event} (hok : Once w e)
    (hs : Worker.step timing w e = some w') : Rising w' := by
  have hanew := h.anew
  cases step_cases hs with
  | tick => exact ⟨h.sorted, h.bounded, hanew⟩
  | enterFollower => exact h.moves (.refl _) (by simp [Anew, goTo, RunStage.Leading])
  | @enterCandidate last here hstate =>
    refine h.moves (.refl _) ?_
    rw [Anew, here] at hanew
    cases last with
    | none => exact absurd hstate hanew
    | some before =>
      cases before with
      | follower => exact hanew
      | candidate => exact absurd hstate (hok here)
      | leader => exact absurd hstate hanew
  | enterLeader here hstate => exact h.moves (.refl _) (by simp [Anew, goTo, hstate])
  | waitFollower => exact h.moves (.refl _) (by simp [Anew, goTo, RunStage.Leading])
  | challenge =>
    exact ⟨h.sorted, fun term ht => (h.bounded term ht).trans (Nat.le_succ _),
      fun term ht => Nat.lt_succ_of_le (h.bounded term ht)⟩
  | @elect n stage here hyields hstands =>
    rw [Anew, here] at hanew
    refine ⟨List.pairwise_cons.mpr ⟨hanew, h.sorted⟩, fun term ht => ?_, ?_⟩
    · rcases List.mem_cons.mp ht with rfl | ht
      · exact hyields.term
      · exact (hanew term ht).le.trans hyields.term
    · cases stage with
      | collecting | candidate | candidateWait => exact fun hleading => absurd hleading id
      | _ => exact absurd hstands id
  | @standing _ n stage here hyields hgoes =>
    refine h.moves hyields ?_
    rcases hgoes with hstands | rfl
    · cases stage with
      | collecting | candidate | candidateWait => exact fun hleading => absurd hleading id
      | _ => exact absurd hstands id
    · trivial
  | @leading _ n stage here hyields hgoes =>
    have hno : n.state ≠ .candidate := by
      intro hcandidate
      have hbefore := (hyields.candidate hcandidate).1
      cases hstage : w.stage with
      | heartbeat | replicating | awaitAppend | advance | apply | leader | leaderWait =>
        rw [Anew, hstage] at hanew
        exact hanew trivial hbefore
      | _ => simp [hstage, RunStage.Leading] at here
    refine h.moves hyields ?_
    rcases hgoes with hleads | rfl
    · cases stage with
      | heartbeat | replicating | awaitAppend | advance | apply | leader | leaderWait =>
        exact fun _ => hno
      | _ => exact absurd hleads id
    · exact hno
  | call hyields =>
    exact ⟨h.sorted, fun term ht => (h.bounded term ht).trans hyields.term,
      anew_of_yields hanew hyields⟩

end Rising

private theorem rising_start (config : ClusterConfig) (snapshot : Option Snapshot) :
    Rising (start config snapshot) := by
  obtain ⟨_, _, heq⟩ := (RaftNode.ofSnapshot config snapshot).becomeFollowerLocked_eq 0
  refine ⟨List.Pairwise.nil, by simp [start], ?_⟩
  simp [Anew, start, heq]

/-- As long as no candidate's wait runs out with the node still a candidate, every election is held
in a higher term than all before it. -/
theorem elections_rise (timing : Timing) (config : ClusterConfig) (snapshot : Option Snapshot)
    {w : Worker} (hrun : Run (step timing) Once (start config snapshot) w) :
    w.elections.Pairwise (· > ·) :=
  (hrun.invariant (P := Rising) (fun h hok hs => h.step hok hs) (rising_start config snapshot)).sorted

def threeNodes : ClusterConfig where
  nodeId := 1
  peerAddresses := ((OrderedMap.insert ∅ 1 []).insert 2 []).insert 3 []

def oneTick : Timing := ⟨1, 1, 1⟩

/-- The events up to the end of the first election, in which nobody answers. -/
def splitVote : List Event :=
  [.enter, .wait 1, .tick, .expire, .enter, .beginElection, .recvVote .unreachable,
    .recvVote .unreachable, .finishElection]

/-- After a split vote the candidate's wait runs out, and the next election has the same term. -/
theorem election_repeats_term : ∃ w,
    Run (step oneTick) (fun _ _ => True) (start threeNodes none) w ∧ w.elections = [1, 1] :=
  reachable_of_execute (step oneTick) (fun _ _ => True) (start threeNodes none)
    (splitVote ++ [.wait 1, .tick, .expire, .enter, .beginElection]) (by decide)

/-- A candidate hears of a leader and comes back to its own candidacy in a later term. -/
theorem elections_rise_twice : ∃ w, Run (step oneTick) Once (start threeNodes none) w ∧
    w.elections.length = 2 ∧ w.elections.Pairwise (· > ·) := by
  obtain ⟨w, hrun, hlength⟩ := reachable_of_execute (step oneTick) Once (start threeNodes none)
    (splitVote ++ [.wait 1, .call (.handleAppendEntries ⟨1, 2, 0, 0, [], 0⟩), .wake, .enter, .wait 1,
      .tick, .expire, .enter, .beginElection]) (P := fun w => w.elections.length = 2) (by decide)
  exact ⟨w, hrun, hlength, elections_rise oneTick threeNodes none hrun⟩

/-- From the start of its election on, a node that is still a candidate is in the election's term. -/
def InTerm (w : Worker) : Prop :=
  w.stage.Standing ∨ w.stage = .switch (some .candidate) → w.node.state = .candidate →
    w.elections.head? = some w.node.currentTerm

private theorem InTerm.step {timing : Timing} {w w' : Worker} (h : InTerm w) {e : Event}
    (hs : Worker.step timing w e = some w') : InTerm w' := by
  cases step_cases hs with
  | tick => exact h
  | elect _ hyields =>
    intro _ hcandidate
    rw [goTo, List.head?_cons, (hyields.candidate hcandidate).2]
  | standing here hyields =>
    intro _ hcandidate
    obtain ⟨hbefore, hterm⟩ := hyields.candidate hcandidate
    exact (h (.inl here) hbefore).trans (congrArg some hterm.symm)
  | call hyields =>
    intro hwhere hcandidate
    obtain ⟨hbefore, hterm⟩ := hyields.candidate hcandidate
    exact (h hwhere hbefore).trans (congrArg some hterm.symm)
  | @leading _ n stage _ _ hgoes =>
    intro hwhere
    rcases hgoes with hleads | rfl
    · cases stage with
      | heartbeat | replicating | awaitAppend | advance | apply | leader | leaderWait =>
        simp [goTo, RunStage.Standing] at hwhere
      | _ => exact absurd hleads id
    · simp [goTo, RunStage.Standing] at hwhere
  | enterFollower | enterCandidate | enterLeader | waitFollower | challenge =>
    intro hwhere
    simp [goTo, RunStage.Standing] at hwhere

/-- Whenever the wait has run out with the node still a candidate, the election that comes next, if
nothing comes between, repeats the term of the last one. -/
theorem candidate_repeats_term {timing : Timing} {config : ClusterConfig}
    {snapshot : Option Snapshot} {w : Worker}
    (hrun : Run (step timing) (fun _ _ => True) (start config snapshot) w)
    (hstage : w.stage = .switch (some .candidate)) (hstate : w.node.state = .candidate) :
    ∃ w' rest, (step timing w .enter).bind (step timing · .beginElection) = some w' ∧
      w'.elections = w.node.currentTerm :: w.node.currentTerm :: rest := by
  have hterm := hrun.invariant (P := InTerm) (fun h _ hs => h.step hs)
    (fun hwhere => by simp [start, RunStage.Standing] at hwhere) (.inr hstage) hstate
  obtain ⟨rest, hrest⟩ := List.head?_eq_some_iff.mp hterm
  have henter : step timing w .enter = some (w.goTo w.node .election) := by
    rw [step, hstage, hstate]
  have hat : (w.goTo w.node .election).stage = .election := rfl
  rw [henter, Option.bind_some, step, if_pos hat]
  dsimp only
  split_ifs
  · exact ⟨_, rest, rfl, congrArg _ hrest⟩
  · exact ⟨_, rest, rfl, congrArg _ hrest⟩

/-- An append request that is heard during a follower's wait comes more than the election timeout
before its end, and a wait of just the election timeout does not begin at the moment of one. -/
def Paced (timing : Timing) (w : Worker) : Event → Prop
  | .call c => hears w.node c = true →
    ∀ deadline, w.stage = .followerWait deadline → w.now + timing.electionTimeout < deadline
  | .wait timeout => w.stage = .follower → timeout = timing.electionTimeout → w.now ∉ w.heard
  | _ => True

instance (timing : Timing) (w : Worker) (e : Event) : Decidable (Paced timing w e) := by
  unfold Paced
  split
  · refine @instDecidableForall _ _ inferInstance ?_
    exact decidable_of_iff
      (∀ deadline ∈ w.stage.deadline, w.stage = .followerWait deadline →
        w.now + timing.electionTimeout < deadline)
      ⟨fun h deadline hd => h deadline (hd ▸ rfl) hd, fun h deadline _ hd => h deadline hd⟩
  · infer_instance
  · infer_instance

/-- What has been heard lies in the past, and more than the election timeout before the end of a
follower's wait. -/
structure Quiet (timing : Timing) (w : Worker) : Prop where
  past : ∀ u ∈ w.heard, u ≤ w.now
  ahead : ∀ deadline, w.stage = .followerWait deadline →
    ∀ u ∈ w.heard, u + timing.electionTimeout < deadline

private theorem Quiet.goTo {timing : Timing} {w : Worker} (h : Quiet timing w) {n : RaftNode}
    {stage : RunStage} (hstage : ∀ deadline, stage ≠ .followerWait deadline) {elections : List Nat} :
    Quiet timing ({ w with elections := elections }.goTo n stage) :=
  ⟨h.past, fun deadline hdeadline => absurd hdeadline (hstage deadline)⟩

theorem Quiet.step {timing : Timing} {w w' : Worker} (h : Quiet timing w) {e : Event}
    (hok : Paced timing w e) (hs : Worker.step timing w e = some w') : Quiet timing w' := by
  cases step_cases hs with
  | tick => exact ⟨fun u hu => (h.past u hu).trans (Nat.le_succ _), h.ahead⟩
  | @waitFollower timeout here hleast =>
    refine ⟨h.past, fun deadline hdeadline u hu => ?_⟩
    obtain rfl : w.now + timeout = deadline := RunStage.followerWait.inj hdeadline
    have hpast := h.past u hu
    have hnow : timeout = timing.electionTimeout → u ≠ w.now := by
      rintro heq rfl
      exact hok here heq hu
    omega
  | @call c =>
    split_ifs with hhears
    · refine ⟨fun u hu => ?_, fun deadline hdeadline u hu => ?_⟩
      · rcases List.mem_cons.mp hu with rfl | hu
        · exact le_rfl
        · exact h.past u hu
      · rcases List.mem_cons.mp hu with rfl | hu
        · exact hok hhears deadline hdeadline
        · exact h.ahead deadline hdeadline u hu
    · exact ⟨h.past, h.ahead⟩
  | @standing _ n stage _ _ hgoes =>
    refine h.goTo fun deadline => ?_
    rintro rfl
    simp [RunStage.Standing] at hgoes
  | @elect n stage _ _ hgoes =>
    refine h.goTo fun deadline => ?_
    rintro rfl
    simp [RunStage.Standing] at hgoes
  | @leading _ n stage _ _ hgoes =>
    refine h.goTo fun deadline => ?_
    rintro rfl
    simp [RunStage.Leading] at hgoes
  | enterFollower | enterCandidate | enterLeader | challenge => exact h.goTo (by simp)

/-- As long as the append requests that are heard are paced so, a follower that becomes a candidate
has heard none within the election timeout. -/
theorem heard_leader_unchallenged (timing : Timing) (config : ClusterConfig)
    (snapshot : Option Snapshot) {w w' : Worker} {e : Event}
    (hrun : Run (step timing) (Paced timing) (start config snapshot) w)
    (hs : step timing w e = some w') (hfollower : w.node.state = .follower)
    (hcandidate : w'.node.state = .candidate) :
    ∀ u ∈ w.heard, u + timing.electionTimeout < w.now := by
  have h := hrun.invariant (P := Quiet timing) (fun h hok hs => h.step hok hs)
    ⟨by simp [start], by simp [start]⟩
  have hyields {n : RaftNode} (hyields : RaftNode.Yields w.node n) : n.state ≠ .candidate := by
    intro hn
    cases hfollower.symm.trans (hyields.candidate hn).1
  cases step_cases hs with
  | challenge here => exact h.ahead w.now here
  | tick => cases hfollower.symm.trans hcandidate
  | enterFollower => cases hfollower.symm.trans hcandidate
  | enterCandidate => cases hfollower.symm.trans hcandidate
  | enterLeader => cases hfollower.symm.trans hcandidate
  | waitFollower => cases hfollower.symm.trans hcandidate
  | elect _ h' => exact absurd hcandidate (hyields h')
  | standing _ h' => exact absurd hcandidate (hyields h')
  | leading _ h' => exact absurd hcandidate (hyields h')
  | call h' => exact absurd hcandidate (hyields h')

def tenTicks : Timing := ⟨10, 20, 3⟩

def beat : Event := .call (.handleAppendEntries ⟨1, 2, 0, 0, [], 0⟩)

/-- A heartbeat every three ticks does not keep the follower from its candidacy after ten. -/
theorem heard_leader_challenged : ∃ w,
    Run (step tenTicks) (fun _ _ => True) (start threeNodes none) w ∧ w.node.state = .follower ∧
    (step tenTicks w .expire).any (fun w' => w'.node.state = .candidate) = true ∧
    ∃ u ∈ w.heard, w.now ≤ u + tenTicks.electionTimeout ∧ u ≤ w.now :=
  reachable_of_execute (step tenTicks) (fun _ _ => True) (start threeNodes none)
    [.enter, .wait 10, .tick, .tick, .tick, beat, .tick, .tick, .tick, beat, .tick, .tick, .tick, beat,
      .tick] (by decide)

/-- After a single heartbeat right at its beginning, a wait of twelve ticks runs out. -/
theorem heard_leader_unchallenged_twelve : ∃ w w',
    Run (step tenTicks) (Paced tenTicks) (start threeNodes none) w ∧
    step tenTicks w .expire = some w' ∧ w.heard ≠ [] ∧
    ∀ u ∈ w.heard, u + tenTicks.electionTimeout < w.now := by
  obtain ⟨w, hrun, hheard, hfollower, hexpires⟩ := reachable_of_execute (step tenTicks)
    (Paced tenTicks) (start threeNodes none)
    ([.enter, .wait 12, .tick, beat] ++ List.replicate 11 .tick)
    (P := fun w => w.heard ≠ [] ∧ w.node.state = .follower ∧
      (step tenTicks w .expire).any (fun w' => w'.node.state = .candidate) = true) (by decide)
  obtain ⟨w', hs, hcandidate⟩ := (Option.any_eq_true _ _).mp hexpires
  exact ⟨w, w', hrun, hs, hheard, heard_leader_unchallenged tenTicks threeNodes none hrun hs hfollower
    (of_decide_eq_true hcandidate)⟩

end Worker
end MyEtcd
