import MyEtcd.Cluster.Replication

/-! Log matching in the cluster.
Each step is shown to be steps of the protocol; what the protocol guarantees then holds of the
logs of the nodes. -/
namespace MyEtcd
open Library Library.Consensus

namespace Cluster
variable {addresses : OrderedMap Nat Bytes} {s s' : Cluster} {P P' : History} {i : Nat}
  {K : Prop}

/-- What the protocol knows in a state of the cluster. -/
structure Linked (addresses : OrderedMap Nat Bytes) (s : Cluster) (P : History) : Prop where
  routed : Routed addresses s
  elections : Elections addresses s P
  coherent : Coherent (members addresses) RaftEntry.term P
  replicates : Replicates s P

theorem Linked.start (addresses : OrderedMap Nat Bytes) :
    Linked addresses (Cluster.start addresses) Protocol.initial :=
  ⟨.start addresses, .start addresses, coherent_initial _ _, .start addresses⟩

theorem observe_same (h : Elections addresses s P) {term : Nat}
    (hle : term ≤ (s.node i).currentTerm) : P.observe i term = P := by
  rw [Protocol.observe, if_neg]
  rw [(h.voter i).term]
  omega

theorem observe_log (P : History) (i term : Nat) :
    (P.observe i term).log = P.log ∧ (P.observe i term).leader = P.leader ∧
      (P.observe i term).ballot = P.ballot ∧ (P.observe i term).ledger = P.ledger := by
  unfold Protocol.observe
  split_ifs
  · exact ⟨rfl, rfl, rfl, rfl⟩
  · exact ⟨rfl, rfl, rfl, rfl⟩

theorem observe_term (h : Elections addresses s P) {term : Nat}
    (hle : (s.node i).currentTerm ≤ term) : (P.observe i term).term i = term := by
  have hterm := (h.voter i).term
  unfold Protocol.observe
  split_ifs with hlt
  · simp [Protocol.raiseTerm]
  · omega

theorem lastTerm_eq (log : RaftLog) : log.lastTerm = lastTerm RaftEntry.term log.entries := by
  unfold RaftLog.lastTerm lastTerm
  cases log.entries.getLast? <;> rfl

namespace Linked

private theorem follow (h : Linked addresses s P) {term : Nat} {n : RaftNode}
    (hn : Keeper (P.observe i term) i n) (hstate : n.state = .leader →
      (s.node i).state = .leader ∧ n.currentTerm = (s.node i).currentTerm) :
    Refines addresses K P (s.setNode i n) (P.observe i term) := by
  obtain ⟨hlog, hleader, _⟩ := observe_log P i term
  exact h.replicates.placeNode h.coherent (steps_observe i term) hn hstate
    (fun j _ => by rw [hlog]) (fun t j _ => by rw [hleader]; exact id)

private theorem not_leading (h : Linked addresses s P) {term : Nat}
    (hlt : (s.node i).currentTerm < term) : P.leader term ≠ some i := by
  intro hl
  have := (h.coherent.leader_term hl).1
  rw [(h.elections.voter i).term] at this
  omega

private theorem depose (h : Linked addresses s P) {term : Nat} {p : RunPoint}
    (hlt : (s.node i).currentTerm < term)
    (hw : ∀ n, Working s (P.observe i term) i n p) :
    Refines addresses K P ((s.setNode i ((s.node i).becomeFollowerLocked term)).setPoint i p)
      (P.observe i term) := by
  obtain ⟨hlog, hleader, _⟩ := observe_log P i term
  exact h.replicates.place h.coherent (steps_observe i term)
    ((h.replicates.keeper i).becomeFollowerLocked hlt.le (h.not_leading hlt)) (hw _)
    (fun j _ => by rw [hlog]) (fun t j _ => by rw [hleader]; exact id)

private theorem timeout (h : Linked addresses s P) (hi : i ∈ addresses.keys) :
    Refines addresses K P (s.setNode i (s.node i).becomeCandidateLocked)
      ((P.raiseTerm i (P.term i + 1)).castBallot i i) := by
  have hlt : P.term i < P.term i + 1 := Nat.lt_succ_self _
  have hterm : (P.raiseTerm i (P.term i + 1)).term i = P.term i + 1 := by simp [Protocol.raiseTerm]
  refine h.replicates.placeNode h.coherent (.tail (.single (.raise hlt)) (.vote ?_ ?_ ?_ (.inl rfl)))
    ⟨(h.replicates.keeper i).whole, (h.replicates.keeper i).log, fun hl => ?_, by simp [
      RaftNode.becomeCandidateLocked]⟩ (by simp [RaftNode.becomeCandidateLocked])
    (fun _ _ => rfl) (fun _ _ _ => id)
  · exact List.mem_toFinset.mpr hi
  · rw [hterm]
    exact Nat.succ_pos _
  · rw [hterm]
    exact h.elections.voting.fresh hlt
  · exact absurd hl (h.not_leading (Nat.lt_succ_self _))

private theorem becomeLeader (h : Linked addresses s P)
    (hbacked : Elections.Backed addresses P i (s.node i).currentTerm)
    (hstate : (s.node i).state ≠ .leader) :
    Refines addresses K P ((s.setNode i (s.node i).becomeLeaderLocked).setPoint i .loop)
      (P.install i) := by
  obtain ⟨quorum, large, own, votes⟩ := hbacked
  rw [← (h.elections.voter i).term] at votes
  have hvacant := h.replicates.vacant h.elections.voting h.elections.voter large votes hstate
  refine h.replicates.place h.coherent (.single (.elect hvacant large own votes))
    (h.replicates.keeper i).becomeLeaderLocked trivial (fun _ _ => rfl) (fun t j hj hl => ?_)
  rcases eq_or_ne t (P.term i) with rfl | ht
  · exact absurd (by simpa [Protocol.install] using hl) hj.symm
  · simpa [Protocol.install, ht] using hl

private theorem propose (h : Linked addresses s P) {entry : RaftEntry} :
    Refines addresses K P (s.setNode i ((s.node i).propose entry).2)
      (track s P (.propose i entry)) := by
  have hk := h.replicates.keeper i
  rcases (s.node i).propose_cases entry with ⟨hstate, heq⟩ | ⟨hstate, e, he, _, heq⟩
  · have hleader : ¬ (s.node i).isLeader := by simp [RaftNode.isLeader, hstate]
    rw [track, if_neg hleader, heq, setNode_self]
    exact ⟨.refl, h.replicates⟩
  · have hleader : (s.node i).isLeader := by simp [RaftNode.isLeader, hstate]
    rw [track, if_pos hleader, heq, ← he]
    have hterm := (h.elections.voter i).term
    have hleads : P.leader (P.term i) = some i := hterm ▸ (h.elections.voter i).leads hstate
    refine h.replicates.placeNode h.coherent
      (.single (.append hleads (by rw [he, hterm]))) ?_ (fun _ => ⟨hstate, rfl⟩)
      (fun j hj => by simp [Protocol.extend, hj]) (fun _ _ _ => id)
    refine hk.append (b := [e]) ?_ rfl rfl ?_ rfl rfl rfl rfl
    · simp [Protocol.extend]
    · exact RaftLog.contiguous_singleton (by rw [he])

private theorem flushBatch (h : Linked addresses s P) {p : RunPoint}
    (hok : (s.node i).batchBuffer = [] ∨ (s.node i).state = .leader ∧
      ∀ e ∈ (s.node i).batchBuffer, e.term = (s.node i).currentTerm)
    (hw : ∀ n : RaftNode, n.state = (s.node i).state → n.currentTerm = (s.node i).currentTerm →
      Working s P i n p) :
    Refines addresses K P ((s.setNode i (s.node i).flushBatch).setPoint i p)
      (P.extendAll i (s.node i).renumberedBatch) := by
  have hk := h.replicates.keeper i
  rcases (s.node i).flushBatch_cases with ⟨hempty, heq⟩ | ⟨hne, heq⟩
  · have hnone : (s.node i).renumberedBatch = [] := by simp [RaftNode.renumberedBatch, hempty]
    rw [heq, hnone]
    exact h.replicates.place' h.coherent hk (hw _ rfl rfl)
  · obtain ⟨hstate, hbuffer⟩ := hok.resolve_left hne
    have hterm := (h.elections.voter i).term
    have hleads : P.leader (P.term i) = some i := hterm ▸ (h.elections.voter i).leads hstate
    have hcurrent : ∀ e ∈ (s.node i).renumberedBatch, e.term = P.term i := by
      intro e he
      obtain ⟨k, hlt, rfl⟩ := List.mem_mapIdx.mp he
      exact (hbuffer (s.node i).batchBuffer[k] (List.getElem_mem hlt)).trans hterm.symm
    obtain ⟨hsteps, _, hleader, hlog, hothers⟩ := steps_extendAll
      (members addresses) RaftEntry.term (K := K) hleads hcurrent
    have hbatch := (s.node i).renumberedBatch_contiguous
    rw [heq]
    refine h.replicates.place h.coherent hsteps ?_
      ((hw _ rfl rfl).mono (h.coherent.steps hsteps).2 List.prefix_rfl) hothers
      (fun _ _ _ => by rw [hleader]; exact id)
    exact hk.append hlog hleader (hk.whole.appendAll hbatch) hbatch rfl rfl rfl rfl

private theorem shipped (h : Linked addresses s P) (hstate : (s.node i).state = .leader)
    {peer : Nat} (hpeer : peer ∈ (s.node i).peers.keys) (commit : Nat) :
    Shipped P i ((s.node i).appendRequest peer commit) := by
  have hk := h.replicates.keeper i
  have hterm := (h.elections.voter i).term
  have hleads := (h.elections.voter i).leads hstate
  have hledger : P.ledger (s.node i).currentTerm = (s.node i).log.entries := by
    rw [← hterm, ← h.coherent.leader_log (hterm ▸ hleads), hk.log]
  obtain ⟨hpos, hle⟩ := hk.next hstate peer hpeer
  obtain ⟨k, hk1⟩ : ∃ k, (s.node i).nextIndex.getD peer 0 = k + 1 := ⟨_, (Nat.sub_add_cancel hpos).symm⟩
  have hentries : ((s.node i).appendRequest peer commit).entries =
      ((s.node i).log.entries.drop k).take RaftNode.maxEntriesPerMsg := by
    simp only [RaftNode.appendRequest, hk1, hk.whole.entriesFrom]
  have hprev : ((s.node i).appendRequest peer commit).prevLogIndex = k := by
    simp only [RaftNode.appendRequest, hk1, predIndex_succ]
  have hsize := congrArg List.length hentries
  rw [List.length_take, List.length_drop] at hsize
  refine ⟨hleads, ?_, ?_, ?_, ?_⟩
  · change _ ≤ (P.ledger (s.node i).currentTerm).length
    rw [hledger, hprev]
    omega
  · change ((P.ledger (s.node i).currentTerm).take _).drop _ = _
    rw [hledger, hprev, List.drop_take, Nat.add_sub_cancel_left, hsize, hentries]
    rw [← List.length_drop, ← List.take_eq_take_min]
  · rw [hprev, hentries, Nat.add_comm]
    exact (hk.whole.contiguous.drop k).take _
  · rw [hprev]
    rcases Nat.eq_zero_or_pos k with hzero | hkpos
    · exact .inl hzero
    · have hget := List.getElem?_eq_getElem (l := (s.node i).log.entries) (i := k - 1) (by omega)
      refine .inr ⟨_, (congrArg (·[k - 1]?) hledger).trans hget, ?_⟩
      simp only [RaftNode.appendRequest, hk1, predIndex_succ]
      exact (hk.whole.termAt hkpos hget).symm

private theorem heard (h : Linked addresses s P) {call : Call AppendEntriesRequest}
    {resp : AppendEntriesResponse} (hmem : call ∈ s.appendCalls)
    (hterm : (s.node i).state = .leader → call.request.term = (s.node i).currentTerm)
    (hcurrent : resp.term ≤ (s.node i).currentTerm) :
    Keeper P i ((s.node i).appendResponse call.dest call.request.entries resp) := by
  have hk := h.replicates.keeper i
  have hship := h.replicates.appendCall call hmem
  have hnext {next : Nat} (hstate : (s.node i).state = .leader)
      (hbound : 1 ≤ next ∧ next ≤ (s.node i).log.entries.length + 1) :
      ∀ peer ∈ (s.node i).peers.keys,
        1 ≤ ((s.node i).nextIndex.insert call.dest next).getD peer 0 ∧
        ((s.node i).nextIndex.insert call.dest next).getD peer 0 ≤
          (s.node i).log.entries.length + 1 := by
    intro peer hpeer
    rw [OrderedMap.getD_insert]
    split_ifs
    · exact hbound
    · exact hk.next hstate peer hpeer
  unfold RaftNode.appendResponse
  rw [if_neg (not_lt.mpr hcurrent)]
  split_ifs with hsuccess
  · split
    · next back hback =>
      refine ⟨hk.whole, hk.log, hk.office, fun hstate => hnext hstate ⟨Nat.succ_pos _, ?_⟩⟩
      -- the last entry sent is in the ledger, which is the leader's log
      have hleads := (h.elections.voter i).leads hstate
      have hledger : P.ledger call.request.term = (s.node i).log.entries := by
        rw [hterm hstate, ← (h.elections.voter i).term,
          ← h.coherent.leader_log ((h.elections.voter i).term ▸ hleads), hk.log]
      have hfits := hship.fits
      rw [hledger] at hfits
      have hindex := hship.contiguous.index_mem (List.mem_of_getLast? hback)
      omega
    · exact hk.congr rfl rfl rfl rfl rfl
  · refine ⟨hk.whole, hk.log, hk.office, fun hstate peer hpeer => ?_⟩
    rcases eq_or_ne peer call.dest with rfl | hne
    · have hold := hk.next hstate call.dest hpeer
      obtain ⟨hpos, hback⟩ := (s.node i).nextAfterReject_bounds call.dest resp hold.1
      exact hnext hstate ⟨hpos, hback.trans hold.2⟩ _ hpeer
    · dsimp only
      rw [OrderedMap.getD_insert_ne _ _ _ hne]
      exact hk.next hstate peer hpeer

private theorem handleVote (h : Linked addresses s P) {k : Nat} {call : Call RequestVoteRequest}
    (sent : s.voteCalls[k]? = some call) :
    Refines addresses K P
      (s.setNode call.dest ((s.node call.dest).handleRequestVote call.request).2)
      (track s P (.handleVote k)) := by
  have hmem := List.mem_of_getElem? sent
  have hk := h.replicates.keeper call.dest
  obtain ⟨hsource, hdest, hcand⟩ := h.routed.voteCall call hmem
  obtain ⟨L, hL⟩ := h.elections.calls call hmem
  simp only [track, sent]
  rcases (s.node call.dest).handleRequestVote_cases call.request with
    ⟨hold, heq⟩ | ⟨hle, m, hm, hcases⟩
  · rw [heq, observe_same h.elections hold.le]
    simpa using (⟨.refl, h.replicates⟩ : Refines addresses K P s P)
  obtain ⟨hlog, hleader, hballot, _⟩ := observe_log P call.dest call.request.term
  have hterm := observe_term h.elections hle
  have hkeeper : Keeper (P.observe call.dest call.request.term) call.dest m ∧
      (m.state = .leader → (s.node call.dest).state = .leader ∧
        m.currentTerm = (s.node call.dest).currentTerm) := by
    rw [hm]
    split_ifs with hlater
    · refine ⟨hk.becomeFollowerLocked hle (h.not_leading hlater), ?_⟩
      rw [RaftNode.becomeFollowerLocked_of_lt hlater]
      intro hstate
      cases hstate
    · rw [observe_same h.elections (not_lt.mp hlater)]
      exact ⟨hk, fun hstate => ⟨hstate, rfl⟩⟩
  obtain ⟨hkeeper, hstate⟩ := hkeeper
  rcases hcases with heq | ⟨_, hlogOk, heq⟩
  · rw [heq]
    simp only [Bool.false_eq_true, false_and, if_false]
    exact h.follow hkeeper hstate
  rw [heq]
  have hvoted : Keeper (P.observe call.dest call.request.term) call.dest
      { m with votedFor := call.request.candidateId } := hkeeper.congr rfl rfl rfl rfl rfl
  dsimp only
  split_ifs with hfirst
  · -- the first vote of the term, for a log that is up to date
    have hvote : Step (members addresses) RaftEntry.term K
        (P.observe call.dest call.request.term)
        ((P.observe call.dest call.request.term).castBallot call.dest
          call.request.candidateId) := by
      refine .vote ?_ ?_ ?_ (.inr ⟨L, ?_, fun hvacant => ?_⟩)
      · exact List.mem_toFinset.mpr (mem_peersOf.mp hdest).1
      · rw [hterm]
        exact (h.elections.voting.bound hL).2.1
      · rw [hterm]
        exact Option.isNone_iff_eq_none.mp hfirst.2
      · rw [hterm, hballot, hcand]
        exact hL
      · rw [hterm, hleader] at hvacant
        obtain ⟨L', hL', hindex, hlast⟩ := h.replicates.voteCall call hmem hvacant
        obtain rfl : L = L' := by simpa using hL.symm.trans hL'
        rw [hindex, hlast, hk.whole.lastIndex] at hlogOk
        rw [hlog, hk.log, UpToDate, ← lastTerm_eq]
        exact hlogOk
    exact h.replicates.placeNode h.coherent (.tail (steps_observe _ _) hvote)
      ⟨hvoted.whole, hvoted.log, hvoted.office, hvoted.next⟩ hstate
      (fun j _ => congrFun hlog j) (fun t j _ hl => by rwa [← hleader])
  · exact h.follow hvoted hstate

private theorem handleAppend (h : Linked addresses s P) {k : Nat} {call : Call AppendEntriesRequest}
    (sent : s.appendCalls[k]? = some call)
    (hkeep : K → ¬ DropsMatching (s.node call.dest) call.request) :
    Refines addresses K P
      (s.setNode call.dest ((s.node call.dest).handleAppendEntries call.request).2)
      (track s P (.handleAppend k)) := by
  have hmem := List.mem_of_getElem? sent
  have hk := h.replicates.keeper call.dest
  have hship := h.replicates.appendCall call hmem
  obtain ⟨_, hdest, _⟩ := h.routed.appendCall call hmem
  have hother : call.dest ≠ call.source := (mem_peersOf.mp hdest).2
  have hnot : P.leader call.request.term ≠ some call.dest := by
    rw [hship.led]
    exact fun heq => hother (Option.some.inj heq).symm
  obtain ⟨hlog, hleader, _, hledger⟩ := observe_log P call.dest call.request.term
  simp only [track, sent]
  rcases (s.node call.dest).handleAppendEntries_cases call.request with
    ⟨hold, heq⟩ | ⟨hle, hcases⟩
  · rw [heq, observe_same h.elections hold.le]
    simpa using (⟨.refl, h.replicates⟩ : Refines addresses K P s P)
  have hfollower := hk.becomeFollowerLocked hle hnot
  have hterm := observe_term h.elections hle
  have hstate (n : RaftNode)
      (hn : n.state = ((s.node call.dest).becomeFollowerLocked call.request.term).state) :
      n.state = .leader → (s.node call.dest).state = .leader ∧
        n.currentTerm = (s.node call.dest).currentTerm := by
    intro hl
    rw [hn] at hl
    cases hl
  rcases hcases with ⟨_, heq⟩ | ⟨hprev, hsuccess, m, hm, heq⟩
  · rw [heq]
    exact h.follow (hfollower.congr rfl rfl rfl rfl rfl) (hstate _ rfl)
  rw [hsuccess]
  have hobserve : Steps (members addresses) RaftEntry.term False P
      (P.observe call.dest call.request.term) := steps_observe _ _
  have hgrow := h.coherent.steps hobserve
  have hlog' : (P.observe call.dest call.request.term).log call.dest =
      (s.node call.dest).log.entries := (congrFun hlog _).trans hk.log
  obtain ⟨hagree, hwhole, hentries⟩ :=
    stored hgrow.1 hk.whole hlog' (hship.mono hgrow.2) hterm hprev
  have haccept : Step (members addresses) RaftEntry.term K
      (P.observe call.dest call.request.term)
      ((P.observe call.dest call.request.term).store call.dest call.request.prevLogIndex
        (call.request.prevLogIndex + call.request.entries.length)) := by
    refine .accept (c := call.source) ?_ hother (Nat.le_add_right _ _) ?_ hagree
      (fun hk' hne => ?_)
    · rw [hterm, hleader]
      exact hship.led
    · rw [hterm, hledger]
      exact hship.fits
    · exact careful hk.whole hlog' (hship.mono hgrow.2) hterm hle hprev (hkeep hk') (by
        rintro hempty
        simp [hempty] at hne)
  have hm' : Keeper ((P.observe call.dest call.request.term).store call.dest
      call.request.prevLogIndex (call.request.prevLogIndex + call.request.entries.length))
      call.dest m := by
    rw [hm]
    refine ⟨hwhole, ?_, hfollower.office, fun hl => by cases hl⟩
    simp [Protocol.store, hentries]
  have hfinal : Keeper ((P.observe call.dest call.request.term).store call.dest
      call.request.prevLogIndex (call.request.prevLogIndex + call.request.entries.length))
      call.dest ((s.node call.dest).handleAppendEntries call.request).2 ∧
      ((s.node call.dest).handleAppendEntries call.request).2.state = .follower := by
    rcases heq with ⟨_, heq⟩ | ⟨_, heq⟩
    · rw [heq]
      exact ⟨hm', by rw [hm]; rfl⟩
    · have hkept := RaftNode.applyCommittedEntries_kept
        { m with commitIndex := min call.request.leaderCommit m.log.lastIndex }
      have hfollows : ((s.node call.dest).handleAppendEntries call.request).2.state =
          .follower := by rw [heq, ← hkept.state, hm]; rfl
      refine ⟨⟨?_, ?_, fun hl => ?_, fun hl => ?_⟩, hfollows⟩
      · rw [heq, ← hkept.log]
        exact hm'.whole
      · rw [heq, ← hkept.log]
        exact hm'.log
      · rw [heq, ← hkept.currentTerm] at hl
        rw [heq, ← hkept.state]
        exact hm'.office hl
      · rw [hfollows] at hl
        cases hl
  exact h.replicates.placeNode h.coherent (.tail (steps_observe _ _) haccept) hfinal.1
    (hstate _ hfinal.2) (fun j hj => by simp [Protocol.store, hj, hlog])
    (fun t j _ hl => by rwa [← hleader])

theorem step (h : Linked addresses s P) (numbered : 0 ∉ addresses.keys) {a : Action}
    (hstand : StillStanding s a) (hsend : SendsInOffice s a) (hflush : FlushesOwnTerm s a)
    (hkeep : K → KeepsMatching s a) (hs : Cluster.step addresses s a = some s') :
    Steps (members addresses) RaftEntry.term K P (track s P a) ∧
      Linked addresses s' (track s P a) := by
  have hnew := h.elections.step h.routed numbered hstand hs
  suffices hrefines : Refines addresses K P s' (track s P a) from
    ⟨hrefines.steps, h.routed.step hs, hnew.elections, (h.coherent.steps hrefines.steps).1,
      hrefines.replicates⟩
  have hkeeper (i : Nat) := h.replicates.keeper i
  cases step_cases hs with
  | timeout configured here state => exact h.timeout configured
  | @enterElection i configured here state =>
    refine h.replicates.placePoint h.coherent (p := .election) ?_
    simp [Working, state]
  | @winAlone i here alone =>
    rw [track, if_pos alone]
    have hstate : Working s P i (s.node i) .election := here ▸ h.replicates.working i
    exact h.becomeLeader (h.elections.backed_alone h.routed numbered here alone hstand) hstate
  | @canvass i here others =>
    rw [track, if_neg others]
    have hstate : Working s P i (s.node i) .election := here ▸ h.replicates.working i
    refine h.replicates.placePoint h.coherent (p := .collecting _ _ _) ⟨hstate, fun hvacant => ?_⟩
    obtain ⟨L, hL⟩ := h.elections.ownVote h.routed numbered (h.routed.located here) hstand
    have hterm := (h.elections.voter i).term
    have hcurrent := h.coherent.ballot_current (hterm ▸ hL) (hterm ▸ hvacant)
    rw [(hkeeper i).log] at hcurrent
    refine ⟨L, hL, ?_, ?_⟩
    · exact (hkeeper i).whole.lastIndex.trans (congrArg List.length hcurrent)
    · exact (lastTerm_eq _).trans (congrArg _ hcurrent)
  | @sendVote i votes peer req rest here =>
    have hworking : Working s P i (s.node i) (.collecting req votes (peer :: rest)) :=
      here ▸ h.replicates.working i
    have hr := h.replicates.placePoint h.coherent (i := i) (K := K)
      (p := .awaitVote req votes rest s.voteCalls.length) hworking
    refine ⟨hr.steps, hr.replicates.keeper, hr.replicates.working, fun c hc => ?_,
      hr.replicates.appendCall⟩
    rcases List.mem_append.mp hc with hc | hc
    · exact h.replicates.voteCall c hc
    · exact List.mem_singleton.mp hc ▸ hworking.2
  | deposed here later => exact h.depose later (fun _ => trivial)
  | @countVote i votes call req rest resp here answered current =>
    rw [track, observe_same h.elections current]
    have hworking : Working s P i (s.node i) (.awaitVote req votes rest call) :=
      here ▸ h.replicates.working i
    exact h.replicates.placePoint h.coherent (p := .collecting _ _ _) hworking
  | @win i votes req here enough =>
    have hterm : (s.node i).currentTerm = req.term := by
      simp only [StillStanding, here] at hstand
      exact hstand enough
    have hworking : Working s P i (s.node i) (.collecting req votes []) :=
      here ▸ h.replicates.working i
    simp only [track, here, ge_iff_le, enough, if_true]
    exact h.becomeLeader (h.elections.backed_count h.routed here enough hterm) hworking.1
  | @lose i votes req here short =>
    simp only [track, here, ge_iff_le, not_le.mpr short, if_false]
    exact h.replicates.placePoint h.coherent (p := .loop) trivial
  | @enterHeartbeat i configured here state =>
    exact h.replicates.placePoint h.coherent (p := .heartbeat) trivial
  | @beginHeartbeat i here =>
    exact h.flushBatch (p := .replicating _ _) hflush (fun _ _ _ => trivial)
  | @sendAppend i commit peer rest here =>
    have hpeer : peer ∈ (s.node i).peers.keys := by
      rw [(h.routed.node i).peers]
      exact (h.routed.located here).2.subset List.mem_cons_self
    have hsent : Replicates { s with
        appendCalls := s.appendCalls ++ [⟨i, peer, (s.node i).appendRequest peer commit⟩] } P := by
      refine ⟨hkeeper, fun j => (h.replicates.working j).mono (.refl P) (List.prefix_append _ _),
        h.replicates.voteCall, fun c hc => ?_⟩
      rcases List.mem_append.mp hc with hc | hc
      · exact h.replicates.appendCall c hc
      · exact List.mem_singleton.mp hc ▸ h.shipped hsend hpeer commit
    exact hsent.placePoint h.coherent (p := .awaitAppend _ _ _)
      ⟨⟨i, peer, (s.node i).appendRequest peer commit⟩, by simp, fun _ => rfl⟩
  | @recvAppend i commit k rest call resp here sent answered =>
    obtain ⟨call', hcall', hterm⟩ : Working s P i (s.node i) (.awaitAppend commit rest k) :=
      here ▸ h.replicates.working i
    obtain rfl : call = call' := Option.some.inj (sent.symm.trans hcall')
    rcases Nat.lt_or_ge (s.node i).currentTerm resp.term with hlater | hcurrent
    · rw [RaftNode.appendResponse, if_pos hlater, if_pos hlater]
      exact h.depose hlater (fun _ => trivial)
    · rw [track, observe_same h.elections hcurrent, if_neg (not_lt.mpr hcurrent)]
      exact h.replicates.place' h.coherent (p := .replicating _ _)
        (h.heard (List.mem_of_getElem? sent) hterm hcurrent) trivial
  | @finishHeartbeat i commit here =>
    exact h.replicates.placePoint h.coherent (p := .advance) trivial
  | @advance i here =>
    obtain ⟨_, heq⟩ := (s.node i).advanceCommitIndex_kept
    rw [heq]
    exact h.replicates.place' h.coherent (p := .apply) ((hkeeper i).congr rfl rfl rfl rfl rfl) trivial
  | @apply i here =>
    obtain ⟨_, _, _, heq⟩ := RaftNode.applyCommittedEntries_of_plain (h.routed.node i).log
    rw [heq]
    exact h.replicates.place' h.coherent (p := .loop) ((hkeeper i).congr rfl rfl rfl rfl rfl) trivial
  | handleVote sent =>
    have hr := h.handleVote (K := K) sent
    exact ⟨hr.steps, hr.replicates.keeper, hr.replicates.working, hr.replicates.voteCall,
      hr.replicates.appendCall⟩
  | @handleAppend k call sent =>
    have hr := h.handleAppend (K := K) sent (fun hk => by
      have := hkeep hk
      simpa [KeepsMatching, sent] using this)
    exact ⟨hr.steps, hr.replicates.keeper, hr.replicates.working, hr.replicates.voteCall,
      hr.replicates.appendCall⟩
  | propose plain => exact h.propose
  | @proposeBatch i entry plain =>
    have hrest : Keeper P i ((s.node i).proposeBatch entry).2 ∧
        ((s.node i).proposeBatch entry).2.state = (s.node i).state ∧
        ((s.node i).proposeBatch entry).2.currentTerm = (s.node i).currentTerm := by
      rcases (s.node i).proposeBatch_cases entry with ⟨_, heq⟩ | ⟨_, _, _, _, heq⟩
      · rw [heq]
        exact ⟨hkeeper i, rfl, rfl⟩
      · rw [heq]
        exact ⟨(hkeeper i).congr rfl rfl rfl rfl rfl, rfl, rfl⟩
    exact h.replicates.placeNode h.coherent .refl hrest.1
      (fun hl => ⟨hrest.2.1 ▸ hl, hrest.2.2⟩) (fun _ _ => rfl) (fun _ _ _ => id)
  | @flushBatch i =>
    have hr := h.flushBatch (K := K) (p := s.point i) hflush (fun n hstate hterm =>
      (h.replicates.working i).congr fun hl => ⟨hstate ▸ hl, hterm⟩)
    rwa [setNode_setPoint_self] at hr

end Linked

/-- Candidates stand by their term, and nodes send and flush as leaders of theirs. -/
def Orderly (s : Cluster) (a : Action) : Prop :=
  StillStanding s a ∧ SendsInOffice s a ∧ FlushesOwnTerm s a

instance (s : Cluster) (a : Action) : Decidable (Orderly s a) := by
  unfold Orderly
  infer_instance

/-- Every state of an orderly run is linked to a state of the protocol. -/
theorem linked_of_run (M : Membership)
    (h : Run (step M.addresses) Orderly (start M.addresses) s) : ∃ P, Linked M.addresses s P := by
  refine h.invariant (P := fun s => ∃ P, Linked M.addresses s P) ?_ ⟨_, .start M.addresses⟩
  rintro s a s' ⟨P, hP⟩ ⟨hstand, hsend, hflush⟩ hs
  exact ⟨_, (hP.step (K := False) M.numbered hstand hsend hflush False.elim hs).2⟩

/-- In orderly runs, two logs that hold an entry with the same index and term agree up to it. -/
theorem log_matching (M : Membership) (h : Run (step M.addresses) Orderly (start M.addresses) s)
    {p q : Nat} {x y : RaftEntry} (hx : x ∈ (s.node p).log.entries)
    (hy : y ∈ (s.node q).log.entries) (hindex : x.index = y.index) (hterm : x.term = y.term) :
    x = y ∧ ∀ i < x.index, (s.node p).log.entryAt i = (s.node q).log.entryAt i := by
  obtain ⟨P, hP⟩ := linked_of_run M h
  have hkp := hP.replicates.keeper p
  have hkq := hP.replicates.keeper q
  obtain ⟨hpos, hgetx⟩ := hkp.whole.mem hx
  obtain ⟨_, hgety⟩ := hkq.whole.mem hy
  rw [← hindex] at hgety
  have htake := (hP.coherent.log_traced p).matching (hP.coherent.log_traced q)
    (hkp.log ▸ hgetx) (hkq.log ▸ hgety) hterm
  rw [hkp.log, hkq.log] at htake
  refine ⟨?_, fun i hi => ?_⟩
  · have := getElem?_of_take_eq htake (Nat.lt_succ_self _)
    rw [hgetx, hgety] at this
    exact Option.some.inj this
  · rcases Nat.eq_zero_or_pos i with rfl | hipos
    · rw [RaftLog.entryAt, RaftLog.entryAt, if_pos (by rw [hkp.whole.first]; decide),
        if_pos (by rw [hkq.whole.first]; decide)]
    · rw [hkp.whole.entryAt hipos, hkq.whole.entryAt hipos]
      exact getElem?_of_take_eq htake (by omega)

/-- The two leaders of term 2 each take a proposal of their own. -/
theorem diverging_logs : ¬ ∀ (M : Membership) (s : Cluster),
    Run (step M.addresses) (fun _ _ => True) (start M.addresses) s →
    ∀ p q, ∀ x ∈ (s.node p).log.entries, ∀ y ∈ (s.node q).log.entries,
      x.index = y.index → x.term = y.term →
      x = y ∧ ∀ i < x.index, (s.node p).log.entryAt i = (s.node q).log.entryAt i := by
  intro h
  obtain ⟨s, hrun, x, hx, y, hy, hindex, hterm, hne⟩ :=
    reachable_of_execute (step trio.addresses) (fun _ _ => True)
      (start trio.addresses)
      (lateWin ++ [.propose 1 { key := [1] }, .propose 3 { key := [3] }])
      (P := fun s => ∃ x ∈ (s.node 1).log.entries, ∃ y ∈ (s.node 3).log.entries,
        x.index = y.index ∧ x.term = y.term ∧ x ≠ y) (by decide)
  exact hne (h trio s hrun 1 3 x hx y hy hindex hterm).1

def replicatePair : List Action :=
  canvass ++ [.finishElection 1, .propose 1 { key := [1] }, .propose 1 { key := [2] },
    .enterHeartbeat 1, .beginHeartbeat 1, .sendAppend 1, .handleAppend 0]

/-- After one round both logs hold the second entry, and so the first. -/
theorem log_matching_replicatePair : ∃ s x,
    Run (step trio.addresses) Orderly (start trio.addresses) s ∧
    x ∈ (s.node 1).log.entries ∧ x ∈ (s.node 2).log.entries ∧
    ((s.node 1).log.entryAt 1).isSome ∧ (s.node 1).log.entryAt 1 = (s.node 2).log.entryAt 1 := by
  obtain ⟨s, hrun, x, hx, y, hy, hindex, hterm, hsecond, hfirst⟩ :=
    reachable_of_execute (step trio.addresses) Orderly
      (start trio.addresses) replicatePair
      (P := fun s => ∃ x ∈ (s.node 1).log.entries, ∃ y ∈ (s.node 2).log.entries,
        x.index = y.index ∧ x.term = y.term ∧ 1 < x.index ∧
        ((s.node 1).log.entryAt 1).isSome) (by decide)
  obtain ⟨rfl, hsmaller⟩ := log_matching trio hrun hx hy hindex hterm
  exact ⟨s, x, hrun, hx, hy, hfirst, hsmaller 1 hsecond⟩

end Cluster
end MyEtcd
