import MyEtcd.Cluster.Elections
import MyEtcd.Library.Consensus.LogMatching

/-! The cluster refines the replication protocol.
As long as nodes send and flush as leaders of the term they put on it, each step of the cluster is
matched by steps of the protocol, and the logs of the two agree. -/
namespace MyEtcd
open Library Library.Consensus

namespace Cluster
variable {addresses : OrderedMap Nat Bytes} {s s' : Cluster} {P P' : History} {i : Nat}

/-- The protocol's view of the log and the office of node `i`. -/
structure Keeper (P : History) (i : Nat) (n : RaftNode) : Prop where
  whole : n.log.Whole
  log : P.log i = n.log.entries
  office : P.leader n.currentTerm = some i → n.state = .leader
  next : n.state = .leader → ∀ peer ∈ n.peers.keys,
    1 ≤ n.nextIndex.getD peer 0 ∧ n.nextIndex.getD peer 0 ≤ n.log.entries.length + 1

/-- While nobody leads the term of a vote request, it tells the log its candidate stood with. -/
def Stood (P : History) (c : Nat) (req : RequestVoteRequest) : Prop :=
  P.leader req.term = none → ∃ L, P.ballot req.term c = some (c, L) ∧
    req.lastLogIndex = L.length ∧ req.lastLogTerm = lastTerm RaftEntry.term L

/-- What an append request carries is a piece of its term's ledger. -/
structure Shipped (P : History) (c : Nat) (req : AppendEntriesRequest) : Prop where
  led : P.leader req.term = some c
  fits : req.prevLogIndex + req.entries.length ≤ (P.ledger req.term).length
  piece : ((P.ledger req.term).take (req.prevLogIndex + req.entries.length)).drop
    req.prevLogIndex = req.entries
  contiguous : RaftLog.Contiguous (req.prevLogIndex + 1) req.entries
  prev : req.prevLogIndex = 0 ∨ ∃ e,
    (P.ledger req.term)[req.prevLogIndex - 1]? = some e ∧ e.term = req.prevLogTerm

/-- A node that asks for votes leads no term, and a leader awaits answers of its own term. -/
def Working (s : Cluster) (P : History) (i : Nat) (n : RaftNode) : RunPoint → Prop
  | .election => n.state ≠ .leader
  | .collecting req _ _ | .awaitVote req _ _ _ => n.state ≠ .leader ∧ Stood P i req
  | .awaitAppend _ _ id => ∃ call, s.appendCalls[id]? = some call ∧
    (n.state = .leader → call.request.term = n.currentTerm)
  | _ => True

structure Replicates (s : Cluster) (P : History) : Prop where
  keeper : ∀ i, Keeper P i (s.node i)
  working : ∀ i, Working s P i (s.node i) (s.point i)
  voteCall : ∀ c ∈ s.voteCalls, Stood P c.source c.request
  appendCall : ∀ c ∈ s.appendCalls, Shipped P c.source c.request

/-- An append request is sent by a node that leads. -/
def SendsInOffice (s : Cluster) : Action → Prop
  | .sendAppend i => (s.node i).state = .leader
  | _ => True

/-- What is flushed was buffered by the node as the leader it still is. -/
def FlushesOwnTerm (s : Cluster) : Action → Prop
  | .beginHeartbeat i | .flushBatch i => (s.node i).batchBuffer = [] ∨
    (s.node i).state = .leader ∧ ∀ e ∈ (s.node i).batchBuffer, e.term = (s.node i).currentTerm
  | _ => True

instance (s : Cluster) (a : Action) : Decidable (SendsInOffice s a) := by
  unfold SendsInOffice
  split <;> infer_instance

instance (s : Cluster) (a : Action) : Decidable (FlushesOwnTerm s a) := by
  unfold FlushesOwnTerm
  split <;> infer_instance

namespace Keeper
variable {n n' : RaftNode}

theorem congr (h : Keeper P i n) (hlog : n'.log = n.log) (hterm : n'.currentTerm = n.currentTerm)
    (hstate : n'.state = n.state) (hpeers : n'.peers = n.peers) (hnext : n'.nextIndex = n.nextIndex) :
    Keeper P i n' where
  whole := hlog ▸ h.whole
  log := hlog ▸ h.log
  office hl := hstate.trans (h.office (hterm ▸ hl))
  next hl := by
    rw [hlog, hpeers, hnext]
    exact h.next (hstate ▸ hl)

theorem aside (h : Keeper P i n) (hlog : P'.log i = P.log i)
    (hleader : ∀ t, P'.leader t = some i → P.leader t = some i) : Keeper P' i n where
  whole := h.whole
  log := hlog.trans h.log
  office hl := h.office (hleader _ hl)
  next := h.next

/-- A node never gives up an office it holds by following the term of somebody else. -/
theorem becomeFollowerLocked (h : Keeper P i n) {term : Nat} (hle : n.currentTerm ≤ term)
    (hnot : P.leader term ≠ some i) :
    Keeper (P.observe i term) i (n.becomeFollowerLocked term) := by
  have hP : (P.observe i term).log = P.log ∧ (P.observe i term).leader = P.leader := by
    unfold Protocol.observe
    split_ifs
    · exact ⟨rfl, rfl⟩
    · exact ⟨rfl, rfl⟩
  rcases hle.lt_or_eq with hlt | rfl
  · rw [RaftNode.becomeFollowerLocked_of_lt hlt]
    exact ⟨h.whole, hP.1 ▸ h.log, fun hl => absurd (hP.2 ▸ hl) hnot, by simp⟩
  · rw [RaftNode.becomeFollowerLocked_of_le le_rfl]
    exact ⟨h.whole, hP.1 ▸ h.log, fun hl => absurd (hP.2 ▸ hl) hnot, by simp⟩

theorem becomeLeaderLocked (h : Keeper P i n) : Keeper (P.install i) i n.becomeLeaderLocked where
  whole := h.whole
  log := h.log
  office _ := rfl
  next _ peer hpeer := by
    have hnext : n.becomeLeaderLocked.nextIndex.getD peer 0 = n.log.lastIndex + 1 := by
      change peer ∈ n.peers.keys at hpeer
      simp only [RaftNode.becomeLeaderLocked]
      rw [OrderedMap.getD_foldl_insert, if_pos hpeer]
    rw [hnext, h.whole.lastIndex]
    exact ⟨Nat.succ_pos _, le_rfl⟩

/-- Entries of the leader's own term go into its log and its ledger alike. -/
theorem append (h : Keeper P i n) {b : List RaftEntry} (hlog : P'.log i = P.log i ++ b)
    (hleader : P'.leader = P.leader) (hentries : n'.log = { n.log with
      entries := n.log.entries ++ b }) (hbatch : RaftLog.Contiguous (n.log.lastIndex + 1) b)
    (hterm : n'.currentTerm = n.currentTerm) (hstate : n'.state = n.state)
    (hpeers : n'.peers = n.peers) (hnext : n'.nextIndex = n.nextIndex) : Keeper P' i n' where
  whole := by
    rw [hentries]
    refine ⟨h.whole.first, RaftLog.Contiguous.append h.whole.aligned ?_⟩
    rwa [h.whole.first, Nat.add_comm, ← h.whole.lastIndex]
  log := by rw [hlog, hentries, h.log]
  office hl := hstate.trans (h.office (by rwa [hterm, hleader] at hl))
  next hl peer hpeer := by
    rw [hnext, hentries, List.length_append]
    have := h.next (hstate ▸ hl) peer (hpeers ▸ hpeer)
    omega

end Keeper

theorem Stood.mono {c : Nat} {req : RequestVoteRequest} (h : Stood P c req)
    (hg : Grows P P') : Stood P' c req := by
  intro hvacant
  have hnone : P.leader req.term = none := by
    cases hl : P.leader req.term with
    | none => rfl
    | some d => simp [(hg.leader hl).1] at hvacant
  exact (h hnone).imp fun L hL => ⟨hg.ballot hL.1, hL.2⟩

theorem Shipped.mono {c : Nat} {req : AppendEntriesRequest} (h : Shipped P c req)
    (hg : Grows P P') : Shipped P' c req := by
  obtain ⟨hled, _, hpre⟩ := hg.leader h.led
  have hlen := hpre.length_le
  refine ⟨hled, h.fits.trans hlen, ?_, h.contiguous, h.prev.imp id fun ⟨e, he, ht⟩ =>
    ⟨e, getElem?_of_isPrefix hpre he, ht⟩⟩
  rw [take_eq_of_isPrefix hpre h.fits]
  exact h.piece

theorem Working.mono {n : RaftNode} {p : RunPoint} {t : Cluster} (h : Working s P i n p)
    (hg : Grows P P') (hcalls : s.appendCalls <+: t.appendCalls) : Working t P' i n p := by
  cases p with
  | collecting req votes rest => exact ⟨h.1, h.2.mono hg⟩
  | awaitVote req votes rest call => exact ⟨h.1, h.2.mono hg⟩
  | awaitAppend commit rest id =>
    exact h.imp fun call hcall => ⟨getElem?_of_isPrefix hcalls hcall.1, hcall.2⟩
  | _ => exact h

/-- What the worker thread has going survives a change of the node that makes it no leader. -/
theorem Working.congr {n n' : RaftNode} {p : RunPoint} (h : Working s P i n p)
    (hstate : n'.state = .leader → n.state = .leader ∧ n'.currentTerm = n.currentTerm) :
    Working s P i n' p := by
  cases p with
  | election => exact fun hl => h (hstate hl).1
  | collecting req votes rest => exact ⟨fun hl => h.1 (hstate hl).1, h.2⟩
  | awaitVote req votes rest call => exact ⟨fun hl => h.1 (hstate hl).1, h.2⟩
  | awaitAppend commit rest id =>
    exact h.imp fun call hcall =>
      ⟨hcall.1, fun hl => (hcall.2 (hstate hl).1).trans (hstate hl).2.symm⟩
  | _ => trivial

/-- The state and the history after some steps, matched by steps of the protocol. -/
structure Refines (addresses : OrderedMap Nat Bytes) (K : Prop) (P : History) (s' : Cluster)
    (P' : History) : Prop where
  steps : Steps (members addresses) RaftEntry.term K P P'
  replicates : Replicates s' P'

@[simp] theorem setNode_setPoint_self (s : Cluster) (i : Nat) (n : RaftNode) :
    (s.setNode i n).setPoint i (s.point i) = s.setNode i n := by
  simp [setNode, setPoint]

@[simp] theorem setNode_self (s : Cluster) (i : Nat) : s.setNode i (s.node i) = s := by
  simp [setNode]

namespace Replicates

theorem start (addresses : OrderedMap Nat Bytes) :
    Replicates (Cluster.start addresses) Protocol.initial where
  keeper i := ⟨⟨rfl, RaftLog.aligned_empty 1⟩, rfl, fun hl => (by cases hl), fun hl => (by cases hl)⟩
  working _ := trivial
  voteCall c hc := by simp [Cluster.start] at hc
  appendCall c hc := by simp [Cluster.start] at hc

section
variable {K : Prop} (h : Replicates s P)
  (hc : Coherent (members addresses) RaftEntry.term P)
include h hc

theorem place {n : RaftNode} {p : RunPoint}
    (hsteps : Steps (members addresses) RaftEntry.term K P P') (hn : Keeper P' i n)
    (hw : Working s P' i n p) (hlog : ∀ j ≠ i, P'.log j = P.log j)
    (hleader : ∀ t, ∀ j ≠ i, P'.leader t = some j → P.leader t = some j) :
    Refines addresses K P ((s.setNode i n).setPoint i p) P' := by
  have hg := (hc.steps hsteps).2
  refine ⟨hsteps, fun j => ?_, fun j => ?_, fun c hcall => (h.voteCall c hcall).mono hg,
    fun c hcall => (h.appendCall c hcall).mono hg⟩
  · rcases eq_or_ne j i with rfl | hj
    · simpa [setNode, setPoint] using hn
    · simpa [setNode, setPoint, hj] using
        (h.keeper j).aside (hlog j hj) (fun t => hleader t j hj)
  · rcases eq_or_ne j i with rfl | hj
    · simpa [setNode, setPoint] using hw.mono (t := (s.setNode j n).setPoint j p) (Grows.refl P')
        List.prefix_rfl
    · simpa [setNode, setPoint, hj] using
        (h.working j).mono (t := (s.setNode i n).setPoint i p) hg List.prefix_rfl

/-- A step that the protocol does not see. -/
theorem place' {n : RaftNode} {p : RunPoint} (hn : Keeper P i n) (hw : Working s P i n p) :
    Refines addresses K P ((s.setNode i n).setPoint i p) P :=
  h.place hc .refl hn hw (fun _ _ => rfl) (fun _ _ _ => id)

theorem placeNode {n : RaftNode}
    (hsteps : Steps (members addresses) RaftEntry.term K P P') (hn : Keeper P' i n)
    (hstate : n.state = .leader →
      (s.node i).state = .leader ∧ n.currentTerm = (s.node i).currentTerm)
    (hlog : ∀ j ≠ i, P'.log j = P.log j)
    (hleader : ∀ t, ∀ j ≠ i, P'.leader t = some j → P.leader t = some j) :
    Refines addresses K P (s.setNode i n) P' := by
  have hg := (hc.steps hsteps).2
  have hw := (((h.working i).mono (t := s) hg List.prefix_rfl).congr hstate)
  simpa using h.place hc hsteps hn hw hlog hleader

theorem placePoint {p : RunPoint} (hw : Working s P i (s.node i) p) :
    Refines addresses K P (s.setPoint i p) P := by
  simpa using h.place' hc (K := K) (h.keeper i) hw

end

/-- A candidate with a majority finds its term without a leader. -/
theorem vacant (h : Replicates s P) (hv : Voting (members addresses) P)
    (hvoter : ∀ i, Voter P i (s.node i)) {quorum : Finset Nat}
    (large : Majority (members addresses) quorum)
    (votes : ∀ v ∈ quorum, ∃ L, P.ballot (P.term i) v = some (i, L))
    (hstate : (s.node i).state ≠ .leader) : P.leader (P.term i) = none := by
  cases hl : P.leader (P.term i) with
  | none => rfl
  | some d =>
    obtain rfl := hv.leader_unique hl large votes
    rw [(hvoter i).term] at hl
    exact absurd ((h.keeper i).office hl) hstate

end Replicates

/-- Some entry of the request contradicts the log, or the request reaches the log's end. -/
def DropsMatching (n : RaftNode) (req : AppendEntriesRequest) : Prop :=
  n.currentTerm ≤ req.term ∧ RaftNode.prevMatches n.log req = true ∧ req.entries ≠ [] ∧
    (∀ e ∈ req.entries, n.log.termAt e.index = e.term) ∧
    req.prevLogIndex + req.entries.length < n.log.lastIndex

/-- No follower drops entries behind a request that its log has nothing against. -/
def KeepsMatching (s : Cluster) : Action → Prop
  | .handleAppend k =>
    match s.appendCalls[k]? with
    | some call => ¬ DropsMatching (s.node call.dest) call.request
    | none => True
  | _ => True

instance (n : RaftNode) (req : AppendEntriesRequest) : Decidable (DropsMatching n req) := by
  unfold DropsMatching
  infer_instance

instance (s : Cluster) (a : Action) : Decidable (KeepsMatching s a) := by
  unfold KeepsMatching
  split
  · split <;> infer_instance
  · infer_instance

/-- An accepted request: the log goes on as the protocol has it. -/
theorem stored {m : Finset Nat} (hc : Coherent m RaftEntry.term P) {log : RaftLog} {c : Nat}
    {req : AppendEntriesRequest} (hwhole : log.Whole) (hlog : P.log i = log.entries)
    (hship : Shipped P c req) (hterm : P.term i = req.term)
    (hprev : RaftNode.prevMatches log req = true) :
    AgreeAt RaftEntry.term req.prevLogIndex (P.log i) (P.ledger (P.term i)) ∧
    (RaftNode.storeEntries log req.entries).Whole ∧
    (RaftNode.storeEntries log req.entries).entries =
      P.received i req.prevLogIndex (req.prevLogIndex + req.entries.length) := by
  have hagree : AgreeAt RaftEntry.term req.prevLogIndex (P.log i) (P.ledger (P.term i)) := by
    rcases hship.prev with hzero | ⟨e, he, het⟩
    · exact .inl hzero
    rcases Nat.eq_zero_or_pos req.prevLogIndex with hzero | hpos
    · exact .inl hzero
    have hmatch : log.termAt req.prevLogIndex = e.term := by
      have := of_decide_eq_true hprev
      rw [het]
      exact this.resolve_left hpos.ne'
    have hpositive := hc.entry_term_pos (hc.ledger_traced _) (List.mem_of_getElem? he)
    have hfound : log.termAt req.prevLogIndex ≠ 0 := by
      rw [hmatch]
      exact hpositive.ne'
    obtain ⟨x, hx, hxt⟩ := RaftLog.entryAt_of_termAt hfound
    rw [hwhole.entryAt hpos, ← hlog] at hx
    exact .inr ⟨x, e, hx, hterm ▸ he, hxt.trans hmatch⟩
  have hreach : req.prevLogIndex ≤ log.entries.length := by
    rcases hagree with hzero | ⟨x, _, hx, _⟩
    · omega
    · rw [hlog] at hx
      have := (List.getElem?_eq_some_iff.mp hx).1
      omega
  refine ⟨hagree, ?_⟩
  have hfirst := hwhole.first
  rcases eq_or_ne req.entries [] with hempty | hne
  · rw [hempty]
    exact ⟨hwhole, by simp [RaftNode.storeEntries, Protocol.received, hlog]⟩
  have hreceived : P.received i req.prevLogIndex (req.prevLogIndex + req.entries.length) =
      log.entries.take req.prevLogIndex ++ req.entries := by
    have hlen := List.length_pos_iff.mpr hne
    rw [Protocol.received, if_pos (by omega), hlog, hterm, hship.piece]
  rw [hreceived]
  rcases RaftNode.storeEntries_cases hwhole.aligned hship.contiguous hne with
    ⟨hlt, heq⟩ | ⟨hle, hin, heq⟩ | ⟨_, hout, _⟩
  · obtain hzero : req.prevLogIndex = 0 := by omega
    have hcontiguous := hship.contiguous
    rw [hzero] at heq hcontiguous ⊢
    rw [heq]
    exact ⟨⟨rfl, hcontiguous⟩, by simp⟩
  · rw [hfirst, Nat.add_sub_cancel] at heq
    rw [heq]
    refine ⟨⟨rfl, RaftLog.Contiguous.append (hwhole.contiguous.take _) ?_⟩, rfl⟩
    have hlen : 1 + (log.entries.take req.prevLogIndex).length = req.prevLogIndex + 1 := by
      rw [List.length_take]
      omega
    rw [hlen]
    exact hship.contiguous
  · omega

/-- A request that would drop entries although nothing contradicts it is the only careless one. -/
theorem careful {n : RaftNode} {c : Nat} {req : AppendEntriesRequest}
    (hwhole : n.log.Whole) (hlog : P.log i = n.log.entries) (hship : Shipped P c req)
    (hterm : P.term i = req.term) (hle : n.currentTerm ≤ req.term)
    (hprev : RaftNode.prevMatches n.log req = true) (hkeeps : ¬ DropsMatching n req)
    (hne : req.entries ≠ []) :
    (P.log i).length ≤ req.prevLogIndex + req.entries.length ∨
      Conflict RaftEntry.term req.prevLogIndex (req.prevLogIndex + req.entries.length) (P.log i)
        (P.ledger (P.term i)) := by
  by_contra hneither
  rw [not_or, hlog] at hneither
  obtain ⟨hlong, hnone⟩ := hneither
  refine hkeeps ⟨hle, hprev, hne, fun e he => ?_, by rw [hwhole.lastIndex]; omega⟩
  by_contra hdiffers
  obtain ⟨m, hm⟩ := List.mem_iff_getElem?.mp he
  have hindex := hship.contiguous m e hm
  have hlt := (List.getElem?_eq_some_iff.mp hm).1
  have hpiece : (P.ledger (P.term i))[req.prevLogIndex + m]? = some e := by
    rwa [← hship.piece, List.getElem?_drop, List.getElem?_take, if_pos (by omega), ← hterm] at hm
  have hget := List.getElem?_eq_getElem (l := n.log.entries) (i := req.prevLogIndex + m) (by omega)
  refine hnone ⟨req.prevLogIndex + m, by omega, by omega, _, e, hget, hpiece, fun heq => ?_⟩
  refine hdiffers ((hwhole.termAt (by omega) ?_).trans heq)
  rw [← hget]
  congr 1
  omega

end Cluster
end MyEtcd
