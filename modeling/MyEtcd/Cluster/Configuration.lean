import MyEtcd.Cluster.Model
import MyEtcd.Library.Consensus.Protocol
import MyEtcd.Raft.Transitions

/-! What no step of the cluster changes: the membership, and who calls whom.
Proposals carry no membership change, so none ever reaches a log and the peers stay as constructed. -/
namespace MyEtcd
open Library Library.Consensus

namespace Cluster

def members (addresses : OrderedMap Nat Bytes) : Finset Nat := addresses.keys.toFinset

def peersOf (addresses : OrderedMap Nat Bytes) (i : Nat) : OrderedMap Nat Unit :=
  (RaftNode.ofConfig ⟨i, addresses⟩).peers

variable {addresses : OrderedMap Nat Bytes} {s s' : Cluster} {i : Nat}

private theorem peersOf_eq (addresses : OrderedMap Nat Bytes) (i : Nat) :
    peersOf addresses i =
      (addresses.keys.filter (· ≠ i)).foldl (fun m id => m.insert id ()) ∅ := by
  rw [List.foldl_filter]
  simp [peersOf, RaftNode.ofConfig]

theorem mem_peersOf {p : Nat} : p ∈ (peersOf addresses i).keys ↔ p ∈ addresses.keys ∧ p ≠ i := by
  rw [peersOf_eq, OrderedMap.mem_keys_foldl_insert]
  simp

theorem card_members (hi : i ∈ addresses.keys) :
    (members addresses).card = (peersOf addresses i).size + 1 := by
  have hpeers : (peersOf addresses i).keys.toFinset = (members addresses).erase i := by
    ext p
    simp [mem_peersOf, members, and_comm]
  have hcard := Finset.card_erase_add_one (s := members addresses) (List.mem_toFinset.mpr hi)
  rwa [← hpeers, List.toFinset_card_of_nodup (OrderedMap.keys_nodup _), OrderedMap.length_keys,
    eq_comm] at hcard

/-- What the constructor sets up and no step changes. -/
structure Configured (addresses : OrderedMap Nat Bytes) (i : Nat) (n : RaftNode) : Prop where
  nodeId : n.nodeId = i
  peers : n.peers = peersOf addresses i
  log : ∀ e ∈ n.log.entries, e.type ≠ .confChange
  buffer : ∀ e ∈ n.batchBuffer, e.type ≠ .confChange

namespace Configured
variable {n : RaftNode}

theorem congr (h : Configured addresses i n) {n' : RaftNode} (hid : n'.nodeId = n.nodeId)
    (hpeers : n'.peers = n.peers) (hlog : n'.log = n.log) (hbuffer : n'.batchBuffer = n.batchBuffer) :
    Configured addresses i n' :=
  ⟨hid.trans h.nodeId, hpeers.trans h.peers, hlog ▸ h.log, hbuffer ▸ h.buffer⟩

theorem becomeFollowerLocked (h : Configured addresses i n) (term : Nat) :
    Configured addresses i (n.becomeFollowerLocked term) := by
  unfold RaftNode.becomeFollowerLocked
  dsimp only
  split_ifs
  · exact h.congr rfl rfl rfl rfl
  · exact h.congr rfl rfl rfl rfl

theorem becomeLeaderLocked (h : Configured addresses i n) :
    Configured addresses i n.becomeLeaderLocked := h.congr rfl rfl rfl rfl

/-- The membership stays because no membership change is ever applied. -/
theorem applyCommittedEntries (h : Configured addresses i n) :
    Configured addresses i n.applyCommittedEntries := by
  obtain ⟨_, _, _, heq⟩ := RaftNode.applyCommittedEntries_of_plain h.log
  rw [heq]
  exact h.congr rfl rfl rfl rfl

theorem propose (h : Configured addresses i n) {entry : RaftEntry}
    (plain : entry.type ≠ .confChange) : Configured addresses i (n.propose entry).2 := by
  rcases n.propose_cases entry with ⟨_, heq⟩ | ⟨_, e, rfl, _, heq⟩
  · rwa [heq]
  · rw [heq]
    refine ⟨h.nodeId, h.peers, fun e he => ?_, h.buffer⟩
    rcases List.mem_append.mp he with he | he
    · exact h.log e he
    · exact List.mem_singleton.mp he ▸ plain

theorem proposeBatch (h : Configured addresses i n) {entry : RaftEntry}
    (plain : entry.type ≠ .confChange) : Configured addresses i (n.proposeBatch entry).2 := by
  rcases n.proposeBatch_cases entry with ⟨_, heq⟩ | ⟨_, e, rfl, _, heq⟩
  · rwa [heq]
  · rw [heq]
    refine ⟨h.nodeId, h.peers, h.log, fun e he => ?_⟩
    rcases List.mem_append.mp he with he | he
    · exact h.buffer e he
    · exact List.mem_singleton.mp he ▸ plain

theorem renumberedBatch (h : Configured addresses i n) :
    ∀ e ∈ n.renumberedBatch, e.type ≠ .confChange := by
  intro e he
  obtain ⟨k, hk, rfl⟩ := List.mem_mapIdx.mp he
  exact h.buffer (n.batchBuffer[k]) (List.getElem_mem hk)

theorem flushBatch (h : Configured addresses i n) : Configured addresses i n.flushBatch := by
  rcases n.flushBatch_cases with ⟨_, heq⟩ | ⟨_, heq⟩
  · rwa [heq]
  · rw [heq]
    refine ⟨h.nodeId, h.peers, fun e he => ?_, by simp⟩
    exact (RaftLog.mem_appendAll he).elim (h.log e) (h.renumberedBatch e)

theorem appendResponse (h : Configured addresses i n) (peer : Nat) (entries : List RaftEntry)
    (resp : AppendEntriesResponse) : Configured addresses i (n.appendResponse peer entries resp) := by
  rcases n.appendResponse_cases peer entries resp with ⟨_, heq⟩ | ⟨_, _, _, heq⟩
  · rw [heq]
    exact h.becomeFollowerLocked _
  · rw [heq]
    exact h.congr rfl rfl rfl rfl

theorem advanceCommitIndex (h : Configured addresses i n) :
    Configured addresses i n.advanceCommitIndex := by
  obtain ⟨_, heq⟩ := n.advanceCommitIndex_kept
  rw [heq]
  exact h.congr rfl rfl rfl rfl

theorem handleRequestVote (h : Configured addresses i n) (req : RequestVoteRequest) :
    Configured addresses i (n.handleRequestVote req).2 := by
  rcases n.handleRequestVote_cases req with ⟨_, heq⟩ | ⟨_, m, hm, heq⟩
  · rwa [heq]
  · have hm' : Configured addresses i m := by
      rw [hm]
      split_ifs
      · exact h.becomeFollowerLocked _
      · exact h
    rcases heq with heq | ⟨_, _, heq⟩
    · rwa [heq]
    · rw [heq]
      exact hm'.congr rfl rfl rfl rfl

theorem handleAppendEntries (h : Configured addresses i n) {req : AppendEntriesRequest}
    (plain : ∀ e ∈ req.entries, e.type ≠ .confChange) :
    Configured addresses i (n.handleAppendEntries req).2 := by
  have hf := h.becomeFollowerLocked req.term
  rcases n.handleAppendEntries_cases req with ⟨_, heq⟩ | ⟨_, ⟨_, heq⟩ | ⟨_, _, m, hm, heq⟩⟩
  · rwa [heq]
  · rw [heq]
    exact hf.congr rfl rfl rfl rfl
  · have hm' : Configured addresses i m := by
      rw [hm]
      refine ⟨hf.nodeId, hf.peers, fun e he => ?_, hf.buffer⟩
      exact (RaftNode.mem_storeEntries he).elim (h.log e) (plain e)
    rcases heq with ⟨_, heq⟩ | ⟨_, heq⟩
    · rwa [heq]
    · rw [heq]
      exact Configured.applyCommittedEntries (hm'.congr rfl rfl rfl rfl)

end Configured

/-- What the worker thread of node `i` has in its local variables at point `p`. -/
def Located (addresses : OrderedMap Nat Bytes) (s : Cluster) (i : Nat) : RunPoint → Prop
  | .loop => True
  | .collecting req _ rest =>
    i ∈ addresses.keys ∧ req.candidateId = i ∧ rest <:+ (peersOf addresses i).keys
  | .awaitVote req _ rest id =>
    i ∈ addresses.keys ∧ req.candidateId = i ∧ ∃ peer,
      s.voteCalls[id]? = some ⟨i, peer, req⟩ ∧ peer :: rest <:+ (peersOf addresses i).keys
  | .replicating _ rest => i ∈ addresses.keys ∧ rest <:+ (peersOf addresses i).keys
  | .awaitAppend _ rest id =>
    i ∈ addresses.keys ∧ rest <:+ (peersOf addresses i).keys ∧ ∃ call,
      s.appendCalls[id]? = some call ∧ call.source = i ∧ call.dest ∈ (peersOf addresses i).keys
  | .election | .heartbeat | .advance | .apply => i ∈ addresses.keys

theorem Located.mono {p : RunPoint} {t : Cluster} (h : Located addresses s i p)
    (hvote : s.voteCalls <+: t.voteCalls) (happend : s.appendCalls <+: t.appendCalls) :
    Located addresses t i p := by
  cases p with
  | awaitVote req votes rest call =>
    obtain ⟨hi, hreq, peer, hcall, hrest⟩ := h
    exact ⟨hi, hreq, peer, getElem?_of_isPrefix hvote hcall, hrest⟩
  | awaitAppend commit rest id =>
    obtain ⟨hi, hrest, call, hcall, hsource⟩ := h
    exact ⟨hi, hrest, call, getElem?_of_isPrefix happend hcall, hsource⟩
  | _ => exact h

structure Routed (addresses : OrderedMap Nat Bytes) (s : Cluster) : Prop where
  node : ∀ i, Configured addresses i (s.node i)
  point : ∀ i, Located addresses s i (s.point i)
  voteCall : ∀ c ∈ s.voteCalls, c.source ∈ addresses.keys ∧
    c.dest ∈ (peersOf addresses c.source).keys ∧ c.request.candidateId = c.source
  appendCall : ∀ c ∈ s.appendCalls, c.source ∈ addresses.keys ∧
    c.dest ∈ (peersOf addresses c.source).keys ∧ c.request.leaderId = c.source ∧
    ∀ e ∈ c.request.entries, e.type ≠ .confChange

namespace Routed

theorem start (addresses : OrderedMap Nat Bytes) : Routed addresses (Cluster.start addresses) where
  node i := ⟨rfl, rfl, by simp [Cluster.start, RaftNode.ofConfig],
    by simp [Cluster.start, RaftNode.ofConfig]⟩
  point _ := trivial
  voteCall c hc := by simp [Cluster.start] at hc
  appendCall c hc := by simp [Cluster.start] at hc

private theorem setNode (h : Routed addresses s) {n : RaftNode} (hn : Configured addresses i n) :
    Routed addresses (s.setNode i n) := by
  refine ⟨fun j => ?_, h.point, h.voteCall, h.appendCall⟩
  rcases eq_or_ne j i with rfl | hj
  · simpa [Cluster.setNode] using hn
  · simpa [Cluster.setNode, hj] using h.node j

private theorem setPoint (h : Routed addresses s) {p : RunPoint} (hp : Located addresses s i p) :
    Routed addresses (s.setPoint i p) := by
  refine ⟨h.node, fun j => ?_, h.voteCall, h.appendCall⟩
  rcases eq_or_ne j i with rfl | hj
  · simpa [Cluster.setPoint] using hp.mono (t := s.setPoint j p) List.prefix_rfl List.prefix_rfl
  · simpa [Cluster.setPoint, hj] using
      (h.point j).mono (t := s.setPoint i p) List.prefix_rfl List.prefix_rfl

private theorem callVote (h : Routed addresses s) {peer : Nat} {req : RequestVoteRequest}
    (hi : i ∈ addresses.keys) (hreq : req.candidateId = i)
    (hpeer : peer ∈ (peersOf addresses i).keys) :
    Routed addresses { s with voteCalls := s.voteCalls ++ [⟨i, peer, req⟩] } := by
  refine ⟨h.node, fun j => (h.point j).mono (List.prefix_append _ _) List.prefix_rfl,
    fun c hc => ?_, h.appendCall⟩
  rcases List.mem_append.mp hc with hc | hc
  · exact h.voteCall c hc
  · exact List.mem_singleton.mp hc ▸ ⟨hi, hpeer, hreq⟩

private theorem callAppend (h : Routed addresses s) {peer commit : Nat} (hi : i ∈ addresses.keys)
    (hpeer : peer ∈ (peersOf addresses i).keys) :
    Routed addresses { s with
      appendCalls := s.appendCalls ++ [⟨i, peer, (s.node i).appendRequest peer commit⟩] } := by
  refine ⟨h.node, fun j => (h.point j).mono List.prefix_rfl (List.prefix_append _ _),
    h.voteCall, fun c hc => ?_⟩
  rcases List.mem_append.mp hc with hc | hc
  · exact h.appendCall c hc
  · refine List.mem_singleton.mp hc ▸ ⟨hi, hpeer, (h.node i).nodeId, fun e he => ?_⟩
    exact (h.node i).log e (RaftLog.mem_entriesFrom (List.mem_of_mem_take he))

theorem located (h : Routed addresses s) {p : RunPoint} (here : s.point i = p) :
    Located addresses s i p := here ▸ h.point i

theorem step (h : Routed addresses s) {a : Action} (hs : step addresses s a = some s') :
    Routed addresses s' := by
  cases step_cases hs with
  | timeout configured here state => exact h.setNode ((h.node _).congr rfl rfl rfl rfl)
  | enterElection configured here state => exact h.setPoint (p := .election) configured
  | @winAlone i here alone =>
    exact (h.setNode (h.node i).becomeLeaderLocked).setPoint (p := .loop) trivial
  | @canvass i here others =>
    have hi := h.located here
    refine h.setPoint (p := .collecting _ _ _) ⟨hi, (h.node i).nodeId, ?_⟩
    rw [(h.node i).peers]
  | @sendVote i votes peer req rest here =>
    obtain ⟨hi, hreq, hrest⟩ := h.located here
    have hpeer := hrest.subset List.mem_cons_self
    exact (h.callVote hi hreq hpeer).setPoint (p := .awaitVote _ _ _ _)
      ⟨hi, hreq, peer, by simp, hrest⟩
  | deposed here later =>
    exact (h.setNode ((h.node _).becomeFollowerLocked _)).setPoint (p := .loop) trivial
  | @countVote i votes call req rest resp here answered current =>
    obtain ⟨hi, hreq, peer, _, hrest⟩ := h.located here
    exact h.setPoint (p := .collecting _ _ _) ⟨hi, hreq, (List.suffix_cons _ _).trans hrest⟩
  | @win i votes req here enough =>
    exact (h.setNode (h.node i).becomeLeaderLocked).setPoint (p := .loop) trivial
  | lose here short => exact h.setPoint (p := .loop) trivial
  | enterHeartbeat configured here state => exact h.setPoint (p := .heartbeat) configured
  | @beginHeartbeat i here =>
    have hi := h.located here
    refine (h.setNode (h.node i).flushBatch).setPoint (p := .replicating _ _) ⟨hi, ?_⟩
    rw [(h.node i).peers]
  | @sendAppend i commit peer rest here =>
    obtain ⟨hi, hrest⟩ := h.located here
    have hpeer := hrest.subset List.mem_cons_self
    exact (h.callAppend hi hpeer).setPoint (p := .awaitAppend _ _ _)
      ⟨hi, (List.suffix_cons _ _).trans hrest, ⟨i, peer, (s.node i).appendRequest peer commit⟩,
        by simp, rfl, hpeer⟩
  | @recvAppend i commit id rest call resp here sent answered =>
    obtain ⟨hi, hrest, _⟩ := h.located here
    refine (h.setNode ((h.node i).appendResponse _ _ _)).setPoint ?_
    split_ifs
    · exact hi
    · exact ⟨hi, hrest⟩
  | @finishHeartbeat i commit here =>
    exact h.setPoint (p := .advance) (h.located here).1
  | @advance i here =>
    have hi := h.located here
    exact (h.setNode (h.node i).advanceCommitIndex).setPoint (p := .apply) hi
  | apply here => exact (h.setNode (h.node _).applyCommittedEntries).setPoint (p := .loop) trivial
  | @handleVote id call sent =>
    have hnew := h.setNode ((h.node call.dest).handleRequestVote call.request)
    exact ⟨hnew.node, hnew.point, hnew.voteCall, hnew.appendCall⟩
  | @handleAppend id call sent =>
    obtain ⟨_, _, _, hplain⟩ := h.appendCall call (List.mem_of_getElem? sent)
    have hnew := h.setNode ((h.node call.dest).handleAppendEntries hplain)
    exact ⟨hnew.node, hnew.point, hnew.voteCall, hnew.appendCall⟩
  | propose plain => exact h.setNode ((h.node _).propose plain)
  | proposeBatch plain => exact h.setNode ((h.node _).proposeBatch plain)
  | flushBatch => exact h.setNode (h.node _).flushBatch

end Routed
end Cluster
end MyEtcd
