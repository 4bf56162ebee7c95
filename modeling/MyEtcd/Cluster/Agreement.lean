import MyEtcd.Cluster.LogMatching
import MyEtcd.Library.Consensus.Completeness
import MyEtcd.Raft.CommitQuorum

/-! Agreement on what is delivered.
With careful truncation the protocol keeps committed entries for good. The commit indices of the
nodes, the ones in flight and what has been delivered are all traced to such entries. -/
namespace MyEtcd
open Library Library.Consensus

namespace Cluster
variable {addresses : OrderedMap Nat Bytes} {s s' : Cluster} {P P' : History} {i : Nat}

/-- An empty request teaches a leader nothing beyond the position it asked about. -/
def TrustsSent (s : Cluster) : Action → Prop
  | .recvAppend i resp =>
    match s.point i with
    | .awaitAppend _ _ id =>
      match s.appendCalls[id]? with
      | some call => resp.success = true → call.request.entries = [] →
        resp.lastLogIndex ≤ call.request.prevLogIndex
      | none => True
    | _ => True
  | _ => True

/-- The leader's second vote for itself does not decide a commit. -/
def CountsOnce (s : Cluster) : Action → Prop
  | .advance i => ¬ ∃ N, (s.node i).SelfCountedTwice N
  | _ => True

/-- All that the guarantee of the protocol rests on. -/
def Sound (s : Cluster) (a : Action) : Prop :=
  Orderly s a ∧ KeepsMatching s a ∧ TrustsSent s a ∧ CountsOnce s a

private def trustsSent (s : Cluster) : Action → Bool
  | .recvAppend i resp =>
    match s.point i with
    | .awaitAppend _ _ id => (s.appendCalls[id]?).all fun call =>
      !resp.success || call.request.entries ≠ [] || resp.lastLogIndex ≤ call.request.prevLogIndex
    | _ => true
  | _ => true

private theorem trustsSent_iff {a : Action} : trustsSent s a = true ↔ TrustsSent s a := by
  unfold trustsSent TrustsSent
  split
  · split
    · rename_i id _
      cases s.appendCalls[id]? with
      | none => simp
      | some call => simp [imp_iff_not_or, or_assoc]
    · simp
  · simp

instance (s : Cluster) (a : Action) : Decidable (TrustsSent s a) :=
  decidable_of_iff _ trustsSent_iff

instance (s : Cluster) (a : Action) : Decidable (CountsOnce s a) := by
  unfold CountsOnce
  split <;> infer_instance

instance (s : Cluster) (a : Action) : Decidable (Sound s a) := by
  unfold Sound
  infer_instance

/-- An entry at a committed position of some term's ledger. -/
def Chosen (addresses : OrderedMap Nat Bytes) (P : History) (e : RaftEntry) : Prop :=
  ∃ t j, Committed (members addresses) RaftEntry.term P t j ∧ 1 ≤ e.index ∧ e.index ≤ j ∧
    (P.ledger t)[e.index - 1]? = some e

/-- What node `i` takes for committed is. -/
structure Committer (addresses : OrderedMap Nat Bytes) (P : History) (n : RaftNode) : Prop where
  commit : Sealed (members addresses) RaftEntry.term P n.currentTerm n.log.entries n.commitIndex
  delivered : ∀ e ∈ n.delivered, Chosen addresses P e
  tracked : n.Tracked
  matched : n.state = .leader → ∀ q ∈ n.peers.keys,
    n.matchIndex.getD q 0 ≤ P.acked n.currentTerm q

/-- The commit index a leader sends along is at most its own. -/
def Carrying (n : RaftNode) : RunPoint → Prop
  | .replicating commit _ | .awaitAppend commit _ _ => n.state = .leader → commit ≤ n.commitIndex
  | _ => True

/-- The commit index on its way in a request is that of a committed prefix of the ledger, and an
empty request does not go beyond what it checks. -/
structure Announced (addresses : OrderedMap Nat Bytes) (P : History) (req : AppendEntriesRequest) :
    Prop where
  commit : Sealed (members addresses) RaftEntry.term P req.term (P.ledger req.term)
    req.leaderCommit
  checked : req.entries = [] → req.leaderCommit ≤ req.prevLogIndex

/-- A success means that the request's entries are acknowledged. -/
def Acknowledged (s : Cluster) (P : History) (r : Nat × AppendEntriesResponse) : Prop :=
  ∃ call, s.appendCalls[r.1]? = some call ∧ (r.2.success = true →
    call.request.prevLogIndex + call.request.entries.length ≤
      P.acked call.request.term call.dest)

structure Commits (addresses : OrderedMap Nat Bytes) (s : Cluster) (P : History) : Prop where
  durable : Durable (members addresses) RaftEntry.term P
  committer : ∀ i, Committer addresses P (s.node i)
  carrying : ∀ i, Carrying (s.node i) (s.point i)
  announced : ∀ c ∈ s.appendCalls, Announced addresses P c.request
  acknowledged : ∀ r ∈ s.appendReplies, Acknowledged s P r

theorem Chosen.grows (hc : Coherent (members addresses) RaftEntry.term P) (hg : Grows P P')
    {e : RaftEntry} (h : Chosen addresses P e) : Chosen addresses P' e := by
  obtain ⟨t, j, hcommit, hpos, hle, he⟩ := h
  obtain ⟨c, hl⟩ := hcommit.own.leader hc
  exact ⟨t, j, hcommit.grows hc hg, hpos, hle, getElem?_of_isPrefix (hg.leader hl).2.2 he⟩

theorem Announced.grows (hc : Coherent (members addresses) RaftEntry.term P) (hg : Grows P P')
    {c : Nat} {req : AppendEntriesRequest} (hship : Shipped P c req)
    (h : Announced addresses P req) : Announced addresses P' req where
  commit := (h.commit.grows hc hg).of_take
    (take_eq_of_isPrefix (hg.leader hship.led).2.2 h.commit.le_length)
  checked := h.checked

/-- What a thread carries stays good while the node leads. -/
theorem Carrying.congr {n n' : RaftNode} {p : RunPoint} (h : Carrying n p)
    (hstate : n'.state = .leader → n.state = .leader ∧ n.commitIndex ≤ n'.commitIndex) :
    Carrying n' p := by
  cases p with
  | replicating commit rest => exact fun hl => (h (hstate hl).1).trans (hstate hl).2
  | awaitAppend commit rest id => exact fun hl => (h (hstate hl).1).trans (hstate hl).2
  | _ => trivial

/-- Two chosen entries with one index are one entry. -/
theorem Chosen.unique (hc : Coherent (members addresses) RaftEntry.term P)
    (hd : Durable (members addresses) RaftEntry.term P) {x y : RaftEntry}
    (hx : Chosen addresses P x) (hy : Chosen addresses P y) (hindex : x.index = y.index) : x = y := by
  obtain ⟨t, j, hcommit, hpos, hle, hget⟩ := hx
  obtain ⟨t', j', hcommit', _, hle', hget'⟩ := hy
  have hsame := hd.agree hc hcommit hcommit' (m := x.index - 1) (by omega) (by omega)
  rw [hget, hindex, hget'] at hsame
  exact Option.some.inj hsame

namespace Committer
variable {n n' : RaftNode}

theorem grows (h : Committer addresses P n) (hc : Coherent (members addresses) RaftEntry.term P)
    (hg : Grows P P') : Committer addresses P' n where
  commit := h.commit.grows hc hg
  delivered e he := (h.delivered e he).grows hc hg
  tracked := h.tracked
  matched hl q hq := (h.matched hl q hq).trans (hg.acked _ _)

/-- A node that is no leader afterwards, with as much of its log as it took for committed. -/
theorem step_down (h : Committer addresses P n) (hterm : n.currentTerm ≤ n'.currentTerm)
    (hlog : n'.log.entries.take n.commitIndex = n.log.entries.take n.commitIndex)
    (hcommit : n'.commitIndex = n.commitIndex) (hcalls : n'.readyCalls = n.readyCalls)
    (hstate : n'.state ≠ .leader) : Committer addresses P n' where
  commit := by
    rw [hcommit]
    exact (h.commit.later hterm).of_take hlog
  delivered e he := h.delivered e (by rwa [RaftNode.delivered, hcalls] at he)
  tracked hl := absurd hl hstate
  matched hl := absurd hl hstate

theorem stay (h : Committer addresses P n) (hterm : n'.currentTerm = n.currentTerm)
    (hlog : n.log.entries <+: n'.log.entries) (hcommit : n'.commitIndex = n.commitIndex)
    (hcalls : n'.readyCalls = n.readyCalls) (htracked : n'.Tracked)
    (hmatched : n'.state = .leader → ∀ q ∈ n'.peers.keys,
      n'.matchIndex.getD q 0 ≤ P.acked n'.currentTerm q) : Committer addresses P n' where
  commit := by
    rw [hterm, hcommit]
    exact h.commit.of_take (take_eq_of_isPrefix hlog h.commit.le_length)
  delivered e he := h.delivered e (by rwa [RaftNode.delivered, hcalls] at he)
  tracked := htracked
  matched := hmatched

theorem applyCommittedEntries (h : Committer addresses P n) (hwhole : n.log.Whole)
    (hplain : ∀ e ∈ n.log.entries, e.type ≠ .confChange) :
    Committer addresses P n.applyCommittedEntries := by
  have hdelivered := n.applyCommittedEntries_delivered.1
  obtain ⟨_, _, _, heq⟩ := RaftNode.applyCommittedEntries_of_plain hplain
  refine ⟨?_, fun e he => ?_, ?_, ?_⟩
  · rw [heq]
    exact h.commit
  · rw [hdelivered] at he
    rcases List.mem_append.mp he with he | he
    · exact h.delivered e he
    split_ifs at he with hmore
    · have hpos : 0 < n.log.firstIndex := by rw [hwhole.first]; exact Nat.one_pos
      have hbound := hwhole.aligned.mem_slice hpos he
      have hget := (hwhole.mem (RaftLog.mem_slice he)).2
      rcases h.commit with hzero | ⟨t, j, _, hcommitted, hle, _, htake⟩
      · omega
      · refine ⟨t, j, hcommitted, by omega, by omega, ?_⟩
        rwa [← getElem?_of_take_eq htake (by omega)]
    · cases he
  · rw [heq]
    exact h.tracked
  · rw [heq]
    exact h.matched

/-- Recording its own proposals does not change what a leader knows about its peers. -/
theorem record (h : Committer addresses P n) (hconf : Configured addresses i n) {last : Nat}
    (hterm : n'.currentTerm = n.currentTerm) (hlog : n.log.entries <+: n'.log.entries)
    (hcommit : n'.commitIndex = n.commitIndex) (hcalls : n'.readyCalls = n.readyCalls)
    (hstate : n'.state = n.state) (hpeers : n'.peers = n.peers) (hid : n'.nodeId = n.nodeId)
    (hmatch : n'.matchIndex = n.matchIndex.insert n.nodeId last) : Committer addresses P n' := by
  refine h.stay hterm hlog hcommit hcalls (fun hl => ?_) (fun hl q hq => ?_)
  · rw [hpeers, hid, hmatch]
    exact RaftNode.tracked_insert h.tracked last (.inr rfl) (hstate ▸ hl)
  · rw [hpeers] at hq
    have hne : q ≠ n.nodeId := by
      rw [hconf.peers] at hq
      rw [hconf.nodeId]
      exact (mem_peersOf.mp hq).2
    rw [hmatch, OrderedMap.getD_insert_ne _ _ _ hne, hterm]
    exact h.matched (hstate ▸ hl) q hq

theorem propose (h : Committer addresses P n) (hconf : Configured addresses i n)
    (entry : RaftEntry) : Committer addresses P (n.propose entry).2 := by
  rcases n.propose_cases entry with ⟨_, heq⟩ | ⟨_, _, _, _, heq⟩
  · rwa [heq]
  · rw [heq]
    exact h.record hconf rfl (List.prefix_append _ _) rfl rfl rfl rfl rfl rfl

theorem flushBatch (h : Committer addresses P n) (hconf : Configured addresses i n)
    (hwhole : n.log.Whole) : Committer addresses P n.flushBatch := by
  rcases n.flushBatch_cases with ⟨_, heq⟩ | ⟨_, heq⟩
  · rwa [heq]
  · rw [heq, hwhole.appendAll n.renumberedBatch_contiguous]
    exact h.record hconf rfl (List.prefix_append _ _) rfl rfl rfl rfl rfl rfl

theorem becomeLeaderLocked (h : Committer addresses P n) :
    Committer addresses P n.becomeLeaderLocked := by
  refine h.stay rfl List.prefix_rfl rfl rfl n.tracked_becomeLeaderLocked (fun _ q hq => ?_)
  change q ∈ n.peers.keys at hq
  simp only [RaftNode.becomeLeaderLocked]
  rw [OrderedMap.getD_foldl_insert, if_pos hq]
  exact Nat.zero_le _

theorem becomeFollowerLocked (h : Committer addresses P n) {term : Nat}
    (hle : n.currentTerm ≤ term) : Committer addresses P (n.becomeFollowerLocked term) := by
  rcases hle.lt_or_eq with hlt | rfl
  · rw [RaftNode.becomeFollowerLocked_of_lt hlt]
    exact h.step_down hle rfl rfl rfl (by simp)
  · rw [RaftNode.becomeFollowerLocked_of_le le_rfl]
    exact h.step_down hle rfl rfl rfl (by simp)

theorem handleRequestVote (h : Committer addresses P n) (req : RequestVoteRequest) :
    Committer addresses P (n.handleRequestVote req).2 := by
  rcases n.handleRequestVote_cases req with ⟨_, heq⟩ | ⟨hle, m, hm, hcases⟩
  · rwa [heq]
  · have hm' : Committer addresses P m := by
      rw [hm]
      split_ifs
      · exact h.becomeFollowerLocked hle
      · exact h
    rcases hcases with heq | ⟨_, _, heq⟩
    · rwa [heq]
    · rw [heq]
      exact hm'.stay rfl List.prefix_rfl rfl rfl hm'.tracked hm'.matched

/-- A leader commits what a majority holds by its bookkeeping, so a majority has acknowledged it. -/
theorem advanceCommitIndex (h : Committer addresses P n) (hlinked : Linked addresses s P)
    (hn : n = s.node i) (hi : i ∈ addresses.keys) (honce : ¬ ∃ N, n.SelfCountedTwice N) :
    Committer addresses P n.advanceCommitIndex := by
  rcases n.advanceCommitIndex_cases with heq | ⟨N, heq, hstate, hfresh, hentry, hchosen⟩
  · rwa [heq]
  have hk : Keeper P i n := hn ▸ hlinked.replicates.keeper i
  have hv : Voter P i n := hn ▸ hlinked.elections.voter i
  have hconf : Configured addresses i n := hn ▸ hlinked.routed.node i
  have hleads := hv.leads hstate
  have hterm : 0 < n.currentTerm := (hlinked.coherent.leader_term hleads).2
  have hledger : P.ledger n.currentTerm = n.log.entries := by
    rw [← hv.term, ← hlinked.coherent.leader_log (hv.term ▸ hleads), hk.log]
  obtain ⟨hmajority, e, he, het⟩ := RaftNode.commitQuorum_of_chosen h.tracked hterm hstate hfresh
    hentry hchosen (fun hself => honce ⟨N, hself⟩)
  have hmembers : n.members = members addresses := by
    ext p
    simp only [RaftNode.members, members, Finset.mem_insert, List.mem_toFinset, hconf.nodeId,
      hconf.peers, mem_peersOf]
    by_cases hp : p = i
    · simp [hp, hi]
    · simp [hp]
  rw [hk.whole.entryAt (by omega)] at he
  have hcommitted : Committed (members addresses) RaftEntry.term P n.currentTerm N := by
    refine ⟨⟨by omega, e, by rw [hledger, he], het⟩, n.holders N, hmembers ▸ hmajority,
      fun q hq => ?_⟩
    obtain ⟨hq, hholds⟩ := Finset.mem_filter.mp hq
    unfold RaftNode.Holds at hholds
    split_ifs at hholds with hself
    · rw [hself, hconf.nodeId, hlinked.coherent.leader_acked hleads, hledger, ← hk.whole.lastIndex]
      exact hholds
    · refine hholds.trans (h.matched hstate q ?_)
      exact List.mem_toFinset.mp ((Finset.mem_insert.mp hq).resolve_left hself)
  have hreach := hcommitted.own.le_length
  rw [heq]
  refine ⟨.inr ⟨_, N, le_rfl, hcommitted, le_rfl, hledger ▸ hreach, by rw [hledger]⟩,
    h.delivered, h.tracked, h.matched⟩

end Committer

namespace Commits

theorem start (addresses : OrderedMap Nat Bytes) :
    Commits addresses (Cluster.start addresses) Protocol.initial where
  durable := durable_initial _ _
  committer i := ⟨.inl rfl, fun e he => (by cases he), fun hl => (by cases hl),
    fun hl => (by cases hl)⟩
  carrying _ := trivial
  announced c hc := by simp [Cluster.start] at hc
  acknowledged r hr := by simp [Cluster.start] at hr

section
variable (h : Commits addresses s P) (hP : Linked addresses s P)
include h hP

private theorem place {n : RaftNode} {p : RunPoint}
    (hsteps : Steps (members addresses) RaftEntry.term True P P')
    (hn : Committer addresses P' n) (hw : Carrying n p) :
    Commits addresses ((s.setNode i n).setPoint i p) P' := by
  have hg := (hP.coherent.steps hsteps).2
  refine ⟨h.durable.steps hP.coherent hsteps, fun j => ?_, fun j => ?_, fun c hc => ?_,
    fun r hr => ?_⟩
  · rcases eq_or_ne j i with rfl | hj
    · simpa [setNode, setPoint] using hn
    · simpa [setNode, setPoint, hj] using (h.committer j).grows hP.coherent hg
  · rcases eq_or_ne j i with rfl | hj
    · simpa [setNode, setPoint] using hw
    · simpa [setNode, setPoint, hj] using h.carrying j
  · exact (h.announced c hc).grows hP.coherent hg (hP.replicates.appendCall c hc)
  · obtain ⟨call, hcall, hacked⟩ := h.acknowledged r hr
    exact ⟨call, hcall, fun hsuccess => (hacked hsuccess).trans (hg.acked _ _)⟩

private theorem placeNode {n : RaftNode}
    (hsteps : Steps (members addresses) RaftEntry.term True P P')
    (hn : Committer addresses P' n) (hstate : n.state = .leader →
      (s.node i).state = .leader ∧ (s.node i).commitIndex ≤ n.commitIndex) :
    Commits addresses (s.setNode i n) P' := by
  simpa using h.place hP (i := i) hsteps hn ((h.carrying i).congr hstate)

private theorem placePoint {p : RunPoint} (hw : Carrying (s.node i) p) :
    Commits addresses (s.setPoint i p) P := by
  simpa using h.place hP (i := i) .refl (h.committer i) hw

end

private theorem announce (h : Commits addresses s P) (hP : Linked addresses s P)
    (hstate : (s.node i).state = .leader) {peer : Nat} (hpeer : peer ∈ (s.node i).peers.keys)
    {commit : Nat} (hcommit : commit ≤ (s.node i).commitIndex) :
    Announced addresses P ((s.node i).appendRequest peer commit) := by
  have hk := hP.replicates.keeper i
  have hterm := (hP.elections.voter i).term
  have hleads := (hP.elections.voter i).leads hstate
  have hledger : P.ledger (s.node i).currentTerm = (s.node i).log.entries := by
    rw [← hterm, ← hP.coherent.leader_log (hterm ▸ hleads), hk.log]
  have hsealed := (h.committer i).commit
  refine ⟨?_, fun hempty => ?_⟩
  · change Sealed _ _ P (s.node i).currentTerm (P.ledger (s.node i).currentTerm) commit
    rw [hledger]
    exact hsealed.smaller hcommit
  · obtain ⟨hpos, _⟩ := hk.next hstate peer hpeer
    obtain ⟨k, hnext⟩ : ∃ k, (s.node i).nextIndex.getD peer 0 = k + 1 :=
      ⟨_, (Nat.sub_add_cancel hpos).symm⟩
    simp only [RaftNode.appendRequest, hnext, predIndex_succ, hk.whole.entriesFrom] at hempty ⊢
    have hend := congrArg List.length hempty
    have hlength := hsealed.le_length
    simp only [List.length_take, List.length_drop, List.length_nil, RaftNode.maxEntriesPerMsg]
      at hend
    omega

private theorem hear (h : Commits addresses s P) (hP : Linked addresses s P)
    {call : Call AppendEntriesRequest} {k : Nat} {resp : AppendEntriesResponse}
    (sent : s.appendCalls[k]? = some call)
    (hpeer : call.dest ∈ (s.node i).peers.keys)
    (hterm : (s.node i).state = .leader → call.request.term = (s.node i).currentTerm)
    (answered : resp = .unreachable ∨ (k, resp) ∈ s.appendReplies)
    (htrust : resp.success = true → call.request.entries = [] →
      resp.lastLogIndex ≤ call.request.prevLogIndex)
    (hcurrent : resp.term ≤ (s.node i).currentTerm) :
    Committer addresses P ((s.node i).appendResponse call.dest call.request.entries resp) := by
  have hcommitter := h.committer i
  have htracked := RaftNode.tracked_appendResponse hcommitter.tracked hpeer call.request.entries resp
  have hack (hsuccess : resp.success = true) :
      call.request.prevLogIndex + call.request.entries.length ≤
        P.acked call.request.term call.dest := by
    rcases answered with rfl | hreply
    · cases hsuccess
    · obtain ⟨call', hcall', hacked⟩ := h.acknowledged _ hreply
      obtain rfl : call = call' := Option.some.inj (sent.symm.trans hcall')
      exact hacked hsuccess
  have hmatched {v : Nat} (hstate : (s.node i).state = .leader)
      (hv : v ≤ P.acked (s.node i).currentTerm call.dest) : ∀ q ∈ (s.node i).peers.keys,
      ((s.node i).matchIndex.insert call.dest v).getD q 0 ≤ P.acked (s.node i).currentTerm q := by
    intro q hq
    rw [OrderedMap.getD_insert]
    split_ifs with heq
    · exact heq ▸ hv
    · exact hcommitter.matched hstate q hq
  revert htracked
  unfold RaftNode.appendResponse
  rw [if_neg (not_lt.mpr hcurrent)]
  split_ifs with hsuccess
  · have hacked := hack hsuccess
    split
    · next back hback =>
      refine fun htracked => hcommitter.stay rfl List.prefix_rfl rfl rfl htracked fun hstate => ?_
      refine hmatched hstate ?_
      have hindex := (hP.replicates.appendCall call (List.mem_of_getElem? sent)).contiguous.index_mem
        (List.mem_of_getLast? hback)
      rw [← hterm hstate]
      omega
    · next hempty =>
      refine fun htracked => hcommitter.stay rfl List.prefix_rfl rfl rfl htracked fun hstate => ?_
      refine hmatched hstate (max_le (hcommitter.matched hstate _ hpeer) ?_)
      have hnone := List.getLast?_eq_none_iff.mp hempty
      have := htrust hsuccess hnone
      rw [← hterm hstate]
      omega
  · exact fun htracked =>
      hcommitter.stay rfl List.prefix_rfl rfl rfl htracked hcommitter.matched

/-- The log a node has stored starts with what it took for committed, and the commit index it
takes over from the request is one of the ledger's. -/
theorem store (h : Commits addresses s P) (hP : Linked addresses s P)
    {call : Call AppendEntriesRequest} (hmem : call ∈ s.appendCalls) {log : RaftLog}
    (hle : (s.node call.dest).currentTerm ≤ call.request.term)
    (hprev : RaftNode.prevMatches (s.node call.dest).log call.request = true)
    (hkeeps : ¬ DropsMatching (s.node call.dest) call.request)
    (hlog : log = RaftNode.storeEntries (s.node call.dest).log call.request.entries) :
    log.Whole ∧
    Sealed (members addresses) RaftEntry.term P call.request.term log.entries
      (s.node call.dest).commitIndex ∧
    Sealed (members addresses) RaftEntry.term P call.request.term log.entries
      (min call.request.leaderCommit log.lastIndex) := by
  have hk := hP.replicates.keeper call.dest
  have hship := hP.replicates.appendCall call hmem
  obtain ⟨hPlog, hPleader, _, hPledger⟩ := observe_log P call.dest call.request.term
  have hterm := observe_term hP.elections hle
  have hobserve : Steps (members addresses) RaftEntry.term False P
      (P.observe call.dest call.request.term) := steps_observe _ _
  obtain ⟨hcoh, hgrow⟩ := hP.coherent.steps hobserve
  have hown : (P.observe call.dest call.request.term).log call.dest =
      (s.node call.dest).log.entries := (congrFun hPlog _).trans hk.log
  obtain ⟨hagree, hwhole, hentries⟩ :=
    stored hcoh hk.whole hown (hship.mono hgrow) hterm hprev
  rw [← hlog] at hwhole hentries
  refine ⟨hwhole, ?_, ?_⟩
  · have hcommit := (h.committer call.dest).commit
    have htake := hcommit.take_ledger h.durable hle hship.led
    refine (hcommit.later hle).of_take ?_
    have hcareful := fun hne => careful hk.whole hown (hship.mono hgrow) hterm hle hprev hkeeps hne
    have hkept := Durable.received_take hcoh hagree (i := (s.node call.dest).commitIndex)
      (fun hne => hcareful (by
        rintro hempty
        simp [hempty] at hne))
      (by rw [hown]; exact hcommit.le_length) (by rw [hterm, hPledger, hown, htake])
    rw [hentries, hkept, hterm, hPledger, htake]
  · obtain ⟨hannounced, hchecked⟩ := h.announced call hmem
    refine (hannounced.smaller (Nat.min_le_left _ log.lastIndex)).of_take ?_
    have hbound : min call.request.leaderCommit log.lastIndex ≤
        call.request.prevLogIndex + call.request.entries.length := by
      rcases eq_or_ne call.request.entries [] with hempty | hne
      · have := hchecked hempty
        omega
      · have hlen := List.length_pos_iff.mpr hne
        have hlast := hwhole.lastIndex
        rw [hentries, hcoh.received_eq (by omega) hagree, List.length_take] at hlast
        omega
    have hreceived := Durable.received_ledger hcoh (Nat.le_add_right _ call.request.entries.length)
      hagree
    rw [hterm, hPledger, ← hentries] at hreceived
    exact take_eq_mono hreceived hbound

private theorem handleAppend (h : Commits addresses s P) (hP : Linked addresses s P)
    {call : Call AppendEntriesRequest} (hmem : call ∈ s.appendCalls)
    (hkeeps : ¬ DropsMatching (s.node call.dest) call.request) :
    Committer addresses P ((s.node call.dest).handleAppendEntries call.request).2 := by
  have hcommitter := h.committer call.dest
  obtain ⟨_, _, _, hplain⟩ := hP.routed.appendCall call hmem
  rcases (s.node call.dest).handleAppendEntries_cases call.request with
    ⟨_, heq⟩ | ⟨hle, ⟨_, heq⟩ | ⟨hprev, _, m, hm, hcases⟩⟩
  · rwa [heq]
  · rw [heq]
    exact (hcommitter.becomeFollowerLocked hle).step_down le_rfl rfl rfl rfl (by
      simp [RaftNode.becomeFollowerLocked])
  have hfollower := hcommitter.becomeFollowerLocked hle
  have hterm : m.currentTerm = call.request.term := by
    rw [hm]
    rcases hle.lt_or_eq with hlt | heq
    · rw [RaftNode.becomeFollowerLocked_of_lt hlt]
    · rw [RaftNode.becomeFollowerLocked_of_le heq.ge]
      exact heq
  have hkept : m.commitIndex = (s.node call.dest).commitIndex ∧ m.state ≠ .leader ∧
      m.delivered = ((s.node call.dest).becomeFollowerLocked call.request.term).delivered := by
    rw [hm]
    refine ⟨?_, by simp [RaftNode.becomeFollowerLocked], rfl⟩
    rcases hle.lt_or_eq with hlt | heq
    · rw [RaftNode.becomeFollowerLocked_of_lt hlt]
    · rw [RaftNode.becomeFollowerLocked_of_le heq.ge]
  obtain ⟨hcommit, hstate, hdelivered⟩ := hkept
  obtain ⟨hwhole, hsealed, hannounced⟩ := h.store hP hmem hle hprev hkeeps (by rw [hm] : m.log = _)
  rcases hcases with ⟨_, heq⟩ | ⟨_, heq⟩
  · rw [heq]
    exact ⟨by rw [hterm, hcommit]; exact hsealed,
      fun e he => hfollower.delivered e (hdelivered ▸ he), fun hl => absurd hl hstate,
      fun hl => absurd hl hstate⟩
  · rw [heq]
    refine Committer.applyCommittedEntries ⟨by rw [hterm]; exact hannounced,
      fun e he => hfollower.delivered e (hdelivered ▸ he), fun hl => absurd hl hstate,
      fun hl => absurd hl hstate⟩ hwhole fun e he => ?_
    rw [hm] at he
    exact (RaftNode.mem_storeEntries he).elim ((hP.routed.node call.dest).log e) (hplain e)

/-- One sound step keeps what is committed, announced and delivered in order. -/
theorem step (h : Commits addresses s P) (hP : Linked addresses s P)
    (numbered : 0 ∉ addresses.keys) {a : Action} (hok : Sound s a)
    (hs : Cluster.step addresses s a = some s') :
    Linked addresses s' (track s P a) ∧ Commits addresses s' (track s P a) := by
  obtain ⟨⟨hstand, hsend, hflush⟩, hkeeps, htrust, honce⟩ := hok
  obtain ⟨hsteps, hP'⟩ :=
    hP.step (K := True) numbered hstand hsend hflush (fun _ => hkeeps) hs
  refine ⟨hP', ?_⟩
  have hg := (hP.coherent.steps hsteps).2
  have hgrown {n : RaftNode} (hn : Committer addresses P n) :
      Committer addresses (track s P a) n := hn.grows hP.coherent hg
  have hcommitter (i : Nat) := h.committer i
  cases step_cases hs with
  | @timeout i configured here state =>
    exact h.placeNode hP hsteps (hgrown ((hcommitter i).step_down (Nat.le_succ _) rfl rfl rfl
      (by simp [RaftNode.becomeCandidateLocked]))) (fun hl => by cases hl)
  | @enterElection i configured here state => exact h.placePoint hP (p := .election) trivial
  | @winAlone i here alone =>
    exact h.place hP (p := .loop) hsteps (hgrown (hcommitter i).becomeLeaderLocked) trivial
  | @canvass i here others =>
    rw [track, if_neg others]
    exact h.placePoint hP (p := .collecting _ _ _) trivial
  | @sendVote i votes peer req rest here =>
    have hr := h.placePoint hP (i := i) (p := .awaitVote req votes rest s.voteCalls.length) trivial
    exact ⟨hr.durable, hr.committer, hr.carrying, hr.announced, hr.acknowledged⟩
  | @deposed i votes call req rest resp here later =>
    exact h.place hP (p := .loop) hsteps
      (hgrown ((hcommitter i).becomeFollowerLocked later.le)) trivial
  | @countVote i votes call req rest resp here answered current =>
    rw [track, observe_same hP.elections current]
    exact h.placePoint hP (p := .collecting _ _ _) trivial
  | @win i votes req here enough =>
    exact h.place hP (p := .loop) hsteps (hgrown (hcommitter i).becomeLeaderLocked) trivial
  | @lose i votes req here short =>
    simp only [track, here, ge_iff_le, not_le.mpr short, if_false]
    exact h.placePoint hP (p := .loop) trivial
  | @enterHeartbeat i configured here state => exact h.placePoint hP (p := .heartbeat) trivial
  | @beginHeartbeat i here =>
    refine h.place hP (p := .replicating _ _) hsteps
      (hgrown ((hcommitter i).flushBatch (hP.routed.node i) (hP.replicates.keeper i).whole))
      (fun _ => ?_)
    rcases (s.node i).flushBatch_cases with ⟨_, heq⟩ | ⟨_, heq⟩
    · rw [heq]
    · rw [heq]
  | @sendAppend i commit peer rest here =>
    have hcarry : Carrying (s.node i) (.replicating commit (peer :: rest)) := here ▸ h.carrying i
    have hpeer : peer ∈ (s.node i).peers.keys := by
      rw [(hP.routed.node i).peers]
      exact (hP.routed.located here).2.subset List.mem_cons_self
    have hr := h.placePoint hP (i := i) (p := .awaitAppend commit rest s.appendCalls.length) hcarry
    refine ⟨hr.durable, hr.committer, hr.carrying, fun c hc => ?_, fun r hmem => ?_⟩
    · rcases List.mem_append.mp hc with hc | hc
      · exact h.announced c hc
      · exact List.mem_singleton.mp hc ▸ h.announce hP hsend hpeer (hcarry hsend)
    · obtain ⟨call, hcall, hacked⟩ := h.acknowledged r hmem
      exact ⟨call, getElem?_of_isPrefix (List.prefix_append _ _) hcall, hacked⟩
  | @recvAppend i commit k rest call resp here sent answered =>
    have hcarry : Carrying (s.node i) (.awaitAppend commit rest k) := here ▸ h.carrying i
    rcases (s.node i).appendResponse_cases call.dest call.request.entries resp with
      ⟨hlater, heq⟩ | ⟨hcurrent, _, _, heq⟩
    · rw [heq, if_pos hlater]
      exact h.place hP (p := .advance) hsteps
        (hgrown ((hcommitter i).becomeFollowerLocked hlater.le)) trivial
    · obtain ⟨call', hcall', hterm⟩ : Working s P i (s.node i) (.awaitAppend commit rest k) :=
        here ▸ hP.replicates.working i
      obtain rfl : call = call' := Option.some.inj (sent.symm.trans hcall')
      have hpeer : call.dest ∈ (s.node i).peers.keys := by
        obtain ⟨_, _, call', hcall', _, hdest⟩ := hP.routed.located here
        obtain rfl : call = call' := Option.some.inj (sent.symm.trans hcall')
        rw [(hP.routed.node i).peers]
        exact hdest
      have htrust' : resp.success = true → call.request.entries = [] →
          resp.lastLogIndex ≤ call.request.prevLogIndex := by
        simpa [TrustsSent, here, sent] using htrust
      have hheard := h.hear hP sent hpeer hterm answered htrust' hcurrent
      rw [track, observe_same hP.elections hcurrent, if_neg (not_lt.mpr hcurrent)]
      rw [heq] at hheard ⊢
      exact h.place hP (p := .replicating _ _) .refl hheard hcarry
  | @finishHeartbeat i commit here => exact h.placePoint hP (p := .advance) trivial
  | @advance i here =>
    exact h.place hP (p := .apply) hsteps (hgrown ((hcommitter i).advanceCommitIndex hP rfl
      (hP.routed.located here) honce)) trivial
  | @apply i here =>
    exact h.place hP (p := .loop) hsteps (hgrown ((hcommitter i).applyCommittedEntries
      (hP.replicates.keeper i).whole (hP.routed.node i).log)) trivial
  | @handleVote k call sent =>
    have hr := h.placeNode hP hsteps (hgrown ((hcommitter call.dest).handleRequestVote call.request))
      (RaftNode.handleRequestVote_leader _ _)
    exact ⟨hr.durable, hr.committer, hr.carrying, hr.announced, hr.acknowledged⟩
  | @handleAppend k call sent =>
    have hmem := List.mem_of_getElem? sent
    have hkeep : ¬ DropsMatching (s.node call.dest) call.request := by
      simpa [KeepsMatching, sent] using hkeeps
    have hr := h.placeNode hP hsteps (hgrown (h.handleAppend hP hmem hkeep))
      (RaftNode.handleAppendEntries_leader _ _)
    refine ⟨hr.durable, hr.committer, hr.carrying, hr.announced, fun r hmem => ?_⟩
    rcases List.mem_append.mp hmem with hmem | hmem
    · exact hr.acknowledged r hmem
    · obtain rfl := List.mem_singleton.mp hmem
      refine ⟨call, sent, fun hsuccess => ?_⟩
      rcases Nat.lt_or_ge call.request.term (s.node call.dest).currentTerm with hold | hle
      · rw [RaftNode.handleAppendEntries, if_pos hold] at hsuccess
        cases hsuccess
      · have hterm := observe_term hP.elections hle
        dsimp only at hsuccess
        simp [track, sent, hsuccess, Protocol.store, hterm]
  | @propose i entry plain =>
    refine h.placeNode hP hsteps (hgrown ((hcommitter i).propose (hP.routed.node i) entry)) ?_
    rcases (s.node i).propose_cases entry with ⟨_, heq⟩ | ⟨hstate, _, _, _, heq⟩
    · rw [heq]
      exact fun hl => ⟨hl, le_rfl⟩
    · rw [heq]
      exact fun _ => ⟨hstate, le_rfl⟩
  | @proposeBatch i entry plain =>
    rcases (s.node i).proposeBatch_cases entry with ⟨_, heq⟩ | ⟨hstate, _, _, _, heq⟩
    · rw [heq, setNode_self]
      exact h
    · rw [heq]
      exact h.placeNode hP hsteps ((hcommitter i).stay rfl List.prefix_rfl rfl rfl
        (hcommitter i).tracked (hcommitter i).matched) (fun hl => ⟨hl, le_rfl⟩)
  | @flushBatch i =>
    refine h.placeNode hP hsteps (hgrown ((hcommitter i).flushBatch (hP.routed.node i)
      (hP.replicates.keeper i).whole)) ?_
    rcases (s.node i).flushBatch_cases with ⟨_, heq⟩ | ⟨_, heq⟩
    · rw [heq]
      exact fun hl => ⟨hl, le_rfl⟩
    · rw [heq]
      exact fun hl => ⟨hl, le_rfl⟩

end Commits

/-- In sound runs, whatever two nodes ever deliver for one index is the same entry. -/
theorem state_machine_safety (M : Membership)
    (h : Run (step M.addresses) Sound (start M.addresses) s) {p q : Nat} {x y : RaftEntry}
    (hx : x ∈ (s.node p).delivered) (hy : y ∈ (s.node q).delivered) (hindex : x.index = y.index) :
    x = y := by
  obtain ⟨P, hP, hcommits⟩ := h.invariant
    (P := fun s => ∃ P, Linked M.addresses s P ∧ Commits M.addresses s P)
    (fun ⟨P, hP, hc⟩ hok hs => ⟨_, hc.step hP M.numbered hok hs⟩)
    ⟨_, .start M.addresses, .start M.addresses⟩
  exact Chosen.unique hP.coherent hcommits.durable ((hcommits.committer p).delivered x hx)
    ((hcommits.committer q).delivered y hy) hindex

/-- Node 1 leads term 1 and commits its own proposal although no peer answers; node 2 then wins
term 2 with the vote of node 3 and does the same. -/
def twoCommits : List Action :=
  canvass ++ [.finishElection 1, .propose 1 { key := [1] }, .enterHeartbeat 1, .beginHeartbeat 1,
    .sendAppend 1, .recvAppend 1 .unreachable, .sendAppend 1, .recvAppend 1 .unreachable,
    .finishHeartbeat 1, .advance 1, .apply 1,
    .timeout 2, .enterElection 2, .beginElection 2, .sendVote 2, .recvVote 2 .unreachable,
    .sendVote 2, .handleVote 3, .recvVote 2 ⟨2, true⟩, .finishElection 2,
    .propose 2 { key := [2] }, .enterHeartbeat 2, .beginHeartbeat 2, .sendAppend 2,
    .recvAppend 2 .unreachable, .sendAppend 2, .recvAppend 2 .unreachable, .finishHeartbeat 2,
    .advance 2, .apply 2]

/-- Different entries are delivered for index 1. -/
theorem delivers_differently : ¬ ∀ (M : Membership) (s : Cluster),
    Run (step M.addresses) (fun _ _ => True) (start M.addresses) s →
    ∀ p q, ∀ x ∈ (s.node p).delivered, ∀ y ∈ (s.node q).delivered, x.index = y.index → x = y := by
  intro h
  obtain ⟨s, hrun, x, hx, y, hy, hindex, hne⟩ :=
    reachable_of_execute (step trio.addresses) (fun _ _ => True)
      (start trio.addresses) twoCommits
      (P := fun s => ∃ x ∈ (s.node 1).delivered, ∃ y ∈ (s.node 2).delivered,
        x.index = y.index ∧ x ≠ y) (by decide)
  exact hne (h trio s hrun 1 2 x hx y hy hindex)

def replicate : List Action :=
  canvass ++ [.finishElection 1, .propose 1 { key := [1] }, .enterHeartbeat 1, .beginHeartbeat 1,
    .sendAppend 1, .handleAppend 0]

/-- Node 2 learns in a second round that the entry is committed. -/
def commitOnBoth : List Action :=
  replicate ++ [.recvAppend 1 ⟨1, true, 1, 0, 0⟩, .sendAppend 1, .recvAppend 1 .unreachable,
    .finishHeartbeat 1, .advance 1, .apply 1, .enterHeartbeat 1, .beginHeartbeat 1, .sendAppend 1,
    .handleAppend 2]

/-- Both nodes deliver it. -/
theorem state_machine_safety_commitOnBoth : ∃ s x,
    Run (step trio.addresses) Sound (start trio.addresses) s ∧ x ∈ (s.node 1).delivered ∧
    x ∈ (s.node 2).delivered := by
  obtain ⟨s, hrun, x, hx, y, hy, hindex⟩ :=
    reachable_of_execute (step trio.addresses) Sound
      (start trio.addresses) commitOnBoth
      (P := fun s => ∃ x ∈ (s.node 1).delivered, ∃ y ∈ (s.node 2).delivered, x.index = y.index)
      (by decide)
  obtain rfl := state_machine_safety trio hrun hx hy hindex
  exact ⟨s, x, hrun, hx, hy⟩

end Cluster
end MyEtcd
