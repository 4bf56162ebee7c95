import MyEtcd.Cluster.Configuration
import MyEtcd.Raft.Service

/-! Membership changes. A node switches to a new configuration when it applies the entry, and a
leader takes proposals at any time, so nodes may be any number of changes apart. -/
namespace MyEtcd
open Library

/-- What a membership change makes of a set of members. -/
def ConfChange.reconfigure (cc : ConfChange) (members : Finset Nat) : Finset Nat :=
  if cc.nodeId = 0 then members
  else
    match cc.type with
    | .addNode => insert cc.nodeId members
    | .removeNode => members.erase cc.nodeId
    | .other _ _ => members

/-- The members after a list of changes, oldest first. -/
def reconfigured (members : Finset Nat) (changes : List ConfChange) : Finset Nat :=
  changes.foldl (fun members cc => cc.reconfigure members) members

@[simp] theorem reconfigured_cons (members : Finset Nat) (cc : ConfChange)
    (changes : List ConfChange) :
    reconfigured members (cc :: changes) = reconfigured (cc.reconfigure members) changes := rfl

theorem reconfigured_append (members : Finset Nat) (done later : List ConfChange) :
    reconfigured members (done ++ later) = reconfigured (reconfigured members done) later :=
  List.foldl_append

namespace ConfChange

private theorem insert_erase_self (k : Nat) (members : Finset Nat) :
    insert k (members.erase k) = insert k members := by
  ext p
  by_cases hp : p = k <;> simp [hp]

/-- One change touches one member. -/
theorem adjacent_reconfigure (cc : ConfChange) (members : Finset Nat) :
    Adjacent members (cc.reconfigure members) := by
  refine ⟨cc.nodeId, ?_⟩
  unfold reconfigure
  by_cases hzero : cc.nodeId = 0
  · rw [if_pos hzero]
  rw [if_neg hzero]
  cases cc.type with
  | addNode => exact (Finset.insert_idem cc.nodeId members).symm
  | removeNode => exact (insert_erase_self cc.nodeId members).symm
  | other code unnamed => rfl

/-- Whether a node counts itself in before or after a change makes no difference to it. -/
theorem insert_reconfigure_insert (cc : ConfChange) (i : Nat) (members : Finset Nat) :
    insert i (cc.reconfigure (insert i members)) = insert i (cc.reconfigure members) := by
  unfold reconfigure
  by_cases hzero : cc.nodeId = 0
  · simp only [if_pos hzero, Finset.insert_idem]
  simp only [if_neg hzero]
  cases cc.type with
  | addNode => rw [Finset.insert_comm cc.nodeId i, Finset.insert_idem]
  | removeNode =>
    ext p
    simp only [Finset.mem_insert, Finset.mem_erase]
    tauto
  | other code unnamed => exact Finset.insert_idem i members

end ConfChange

theorem insert_reconfigured_insert (i : Nat) (members : Finset Nat) (changes : List ConfChange) :
    insert i (reconfigured (insert i members) changes) =
      insert i (reconfigured members changes) := by
  induction changes generalizing members with
  | nil => exact Finset.insert_idem i members
  | cons cc rest ih =>
    rw [reconfigured_cons, reconfigured_cons, ← ih, cc.insert_reconfigure_insert, ih]

namespace RaftNode

/-- `peers_` and the node itself. -/
def configuration (n : RaftNode) : Finset Nat := insert n.nodeId n.peers.keys.toFinset

def confChanges (entries : List RaftEntry) : List ConfChange :=
  (entries.filter (fun e => e.type = .confChange)).map RaftEntry.confChange

/-- The membership changes applied since the node was constructed, oldest first. -/
def changes (n : RaftNode) : List ConfChange := confChanges n.delivered

private theorem keys_insert (m : OrderedMap Nat Unit) (k : Nat) :
    (m.insert k ()).keys.toFinset = insert k m.keys.toFinset := by
  ext p
  simp [OrderedMap.mem_keys_insert]

private theorem keys_erase (m : OrderedMap Nat Unit) (k : Nat) :
    (m.erase k).keys.toFinset = m.keys.toFinset.erase k := by
  ext p
  simp [OrderedMap.mem_keys_erase]

/-- Applying a change does to the configuration what the change says, except that the node stays
in. The check for a lost quorum never refuses. -/
theorem configuration_applyConfChange (n : RaftNode) (cc : ConfChange) :
    (n.applyConfChange cc).configuration = insert n.nodeId (cc.reconfigure n.configuration) := by
  rw [configuration, ← (n.applyConfChange_kept cc).nodeId, configuration,
    cc.insert_reconfigure_insert]
  unfold applyConfChange ConfChange.reconfigure
  by_cases hzero : cc.nodeId = 0
  · simp only [if_pos hzero]
  simp only [if_neg hzero]
  cases cc.type with
  | addNode =>
    by_cases hpeer : n.peers.contains cc.nodeId
    · have hmem : cc.nodeId ∈ n.peers.keys.toFinset :=
        List.mem_toFinset.mpr ((OrderedMap.contains_iff _ _).mp hpeer)
      simp only [if_pos hpeer, Finset.insert_eq_of_mem hmem]
    · simp only [if_neg hpeer]
      split_ifs
      · rw [keys_insert]
      · rw [keys_insert]
  | removeNode =>
    by_cases hown : cc.nodeId = n.nodeId
    · simp only [if_pos hown]
      rw [hown, ConfChange.insert_erase_self]
    · have hquorum : ¬ (n.peers.contains cc.nodeId = true ∧
          n.peers.size - 1 + 1 < (n.peers.size - 1 + 1) / 2 + 1) := by omega
      simp only [if_neg hown, if_neg hquorum, keys_erase]
  | other code unnamed => rfl

private theorem configuration_foldl_applyConfChange (changes : List ConfChange) (n : RaftNode) :
    (changes.foldl applyConfChange n).configuration =
      insert n.nodeId (reconfigured n.configuration changes) := by
  induction changes generalizing n with
  | nil => exact (Finset.insert_idem _ _).symm
  | cons cc rest ih =>
    rw [List.foldl_cons, ih, ← (n.applyConfChange_kept cc).nodeId, configuration_applyConfChange,
      insert_reconfigured_insert, reconfigured_cons]

structure SameMembers (n n' : RaftNode) : Prop where
  nodeId : n'.nodeId = n.nodeId
  peers : n'.peers = n.peers
  calls : n'.confChangeCalls = n.confChangeCalls

theorem applyCommittedEntries_members (n : RaftNode) :
    SameMembers
      ((confChanges (if n.commitIndex > n.lastApplied then
        n.log.slice (n.lastApplied + 1) (n.commitIndex + 1) else [])).foldl applyConfChange n)
      n.applyCommittedEntries := by
  unfold applyCommittedEntries confChanges
  dsimp only
  rw [List.foldl_map]
  split_ifs
  · exact ⟨rfl, rfl, rfl⟩
  · exact ⟨rfl, rfl, rfl⟩
  · exact ⟨rfl, rfl, rfl⟩

/-- Applying committed entries makes the changes among those it delivers. -/
theorem configuration_applyCommittedEntries (n : RaftNode) :
    ∃ entries, n.applyCommittedEntries.delivered = n.delivered ++ entries ∧
      n.applyCommittedEntries.configuration =
        insert n.nodeId (reconfigured n.configuration (confChanges entries)) := by
  refine ⟨_, n.applyCommittedEntries_delivered.1, ?_⟩
  have hmembers := n.applyCommittedEntries_members
  rw [← configuration_foldl_applyConfChange, configuration, configuration, hmembers.nodeId,
    hmembers.peers]

/-- Node `i` has the members that its applied changes make of the initial ones, and itself. -/
structure Tracks (initial : Finset Nat) (i : Nat) (n : RaftNode) : Prop where
  nodeId : n.nodeId = i
  configuration : n.configuration = insert i (reconfigured initial n.changes)

namespace Tracks
variable {initial : Finset Nat} {i : Nat} {n : RaftNode}

private theorem congr (h : Tracks initial i n) {m : RaftNode} (hid : m.nodeId = n.nodeId)
    (hpeers : m.peers = n.peers) (hcalls : m.readyCalls = n.readyCalls) : Tracks initial i m := by
  refine ⟨hid.trans h.nodeId, ?_⟩
  have hconfiguration : m.configuration = n.configuration := by
    rw [RaftNode.configuration, RaftNode.configuration, hid, hpeers]
  have hchanges : m.changes = n.changes := by
    rw [changes, changes, delivered, delivered, hcalls]
  rw [hconfiguration, hchanges]
  exact h.configuration

private theorem applyCommittedEntries (h : Tracks initial i n) :
    Tracks initial i n.applyCommittedEntries := by
  obtain ⟨entries, hdelivered, hconfiguration⟩ := n.configuration_applyCommittedEntries
  have hchanges : n.applyCommittedEntries.changes = n.changes ++ confChanges entries := by
    simp only [changes, hdelivered, confChanges, List.filter_append, List.map_append]
  refine ⟨n.applyCommittedEntries_kept.nodeId.symm.trans h.nodeId, ?_⟩
  rw [hconfiguration, hchanges, h.nodeId, h.configuration, reconfigured_append,
    insert_reconfigured_insert]

/-- Every call keeps a node's members in step with its changes. -/
theorem after (h : Tracks initial i n) (c : Call) : Tracks initial i (n.after c) := by
  obtain ⟨m, heq | ⟨heq, _⟩, hid, hpeers, hcalls, _⟩ := n.after_cases c
  · rw [heq]
    exact h.congr hid hpeers hcalls
  · rw [heq]
    exact (h.congr hid hpeers hcalls).applyCommittedEntries

end Tracks

theorem tracks_ofSnapshot (addresses : OrderedMap Nat Bytes) (i : Nat)
    (snapshot : Option Snapshot) :
    Tracks (Cluster.members addresses) i (.ofSnapshot ⟨i, addresses⟩ snapshot) := by
  have hfresh : Tracks (Cluster.members addresses) i (.ofConfig ⟨i, addresses⟩) := by
    refine ⟨rfl, ?_⟩
    ext p
    change p ∈ insert i (Cluster.peersOf addresses i).keys.toFinset ↔
      p ∈ insert i (Cluster.members addresses)
    simp only [Cluster.members, Finset.mem_insert, List.mem_toFinset, Cluster.mem_peersOf]
    tauto
  cases snapshot with
  | none => exact hfresh
  | some snapshot =>
    rw [ofSnapshot_some]
    exact hfresh.congr rfl rfl rfl

def Adds (i : Nat) (cc : ConfChange) : Prop := cc.type = .addNode ∧ cc.nodeId = i ∧ i ≠ 0

instance (i : Nat) (cc : ConfChange) : Decidable (Adds i cc) := inferInstanceAs (Decidable (_ ∧ _))

/-- A node takes itself for a peer when it is added, and then for good: it does not remove itself. -/
theorem self_mem_peers_applyConfChange (n : RaftNode) (cc : ConfChange) :
    n.nodeId ∈ (n.applyConfChange cc).peers.keys ↔ n.nodeId ∈ n.peers.keys ∨ Adds n.nodeId cc := by
  unfold applyConfChange Adds
  by_cases hzero : cc.nodeId = 0
  · rw [if_pos hzero]
    exact (or_iff_left fun h => h.2.2 (h.2.1.symm.trans hzero)).symm
  rw [if_neg hzero]
  cases cc.type with
  | addNode =>
    by_cases hpeer : n.peers.contains cc.nodeId
    · have hmem := (OrderedMap.contains_iff _ _).mp hpeer
      simp only [if_pos hpeer]
      exact (or_iff_left_of_imp fun h => h.2.1 ▸ hmem).symm
    · have hinsert : n.nodeId ∈ (n.peers.insert cc.nodeId ()).keys ↔
          n.nodeId ∈ n.peers.keys ∨ True ∧ cc.nodeId = n.nodeId ∧ n.nodeId ≠ 0 := by
        rw [OrderedMap.mem_keys_insert, or_comm, true_and]
        refine or_congr_right ⟨fun h => ⟨h.symm, h ▸ hzero⟩, fun h => h.1.symm⟩
      simp only [if_neg hpeer]
      split_ifs
      · simpa using hinsert
      · simpa using hinsert
  | removeNode =>
    by_cases hown : cc.nodeId = n.nodeId
    · simp [hown]
    · have hquorum : ¬ (n.peers.contains cc.nodeId = true ∧
          n.peers.size - 1 + 1 < (n.peers.size - 1 + 1) / 2 + 1) := by omega
      simp only [if_neg hown, if_neg hquorum, OrderedMap.mem_keys_erase]
      simp [Ne.symm hown]
  | other code unnamed => simp

private theorem self_mem_peers_foldl (changes : List ConfChange) (n : RaftNode) :
    n.nodeId ∈ (changes.foldl applyConfChange n).peers.keys ↔
      n.nodeId ∈ n.peers.keys ∨ ∃ cc ∈ changes, Adds n.nodeId cc := by
  induction changes generalizing n with
  | nil => simp
  | cons cc rest ih =>
    have hid := (n.applyConfChange_kept cc).nodeId
    have hrest := ih (n.applyConfChange cc)
    rw [← hid, n.self_mem_peers_applyConfChange] at hrest
    rw [List.foldl_cons, hrest, List.exists_mem_cons_iff, or_assoc]

theorem self_mem_peers_applyCommittedEntries (n : RaftNode) :
    ∃ entries, n.applyCommittedEntries.delivered = n.delivered ++ entries ∧
      (n.nodeId ∈ n.applyCommittedEntries.peers.keys ↔
        n.nodeId ∈ n.peers.keys ∨ ∃ cc ∈ confChanges entries, Adds n.nodeId cc) := by
  refine ⟨_, n.applyCommittedEntries_delivered.1, ?_⟩
  rw [n.applyCommittedEntries_members.peers]
  exact self_mem_peers_foldl _ n

/-- Node `i` is its own peer just when it has applied its own addition. -/
structure OwnPeer (i : Nat) (n : RaftNode) : Prop where
  nodeId : n.nodeId = i
  peer : i ∈ n.peers.keys ↔ ∃ cc ∈ n.changes, Adds i cc

namespace OwnPeer
variable {i : Nat} {n : RaftNode}

private theorem congr (h : OwnPeer i n) {m : RaftNode} (hid : m.nodeId = n.nodeId)
    (hpeers : m.peers = n.peers) (hcalls : m.readyCalls = n.readyCalls) : OwnPeer i m := by
  refine ⟨hid.trans h.nodeId, ?_⟩
  rw [changes, delivered, hcalls, hpeers]
  exact h.peer

theorem after (h : OwnPeer i n) (c : Call) : OwnPeer i (n.after c) := by
  obtain ⟨m, heq | ⟨heq, _⟩, hid, hpeers, hcalls, _⟩ := n.after_cases c
  · rw [heq]
    exact h.congr hid hpeers hcalls
  · have hm := h.congr hid hpeers hcalls
    obtain ⟨entries, hdelivered, hpeer⟩ := m.self_mem_peers_applyCommittedEntries
    rw [hm.nodeId, hm.peer] at hpeer
    rw [heq]
    refine ⟨m.applyCommittedEntries_kept.nodeId.symm.trans hm.nodeId, hpeer.trans ?_⟩
    simp only [changes, hdelivered, confChanges, List.filter_append, List.map_append,
      List.mem_append, or_and_right, exists_or]

theorem ofSnapshot (addresses : OrderedMap Nat Bytes) (i : Nat) (snapshot : Option Snapshot) :
    OwnPeer i (.ofSnapshot ⟨i, addresses⟩ snapshot) := by
  have hfresh : OwnPeer i (.ofConfig ⟨i, addresses⟩) := by
    refine ⟨rfl, ?_⟩
    change i ∈ (Cluster.peersOf addresses i).keys ↔ _
    simp [Cluster.mem_peersOf, changes, delivered, RaftNode.ofConfig, confChanges]
  cases snapshot with
  | none => exact hfresh
  | some snapshot =>
    rw [ofSnapshot_some]
    exact hfresh.congr rfl rfl rfl

end OwnPeer

/-- The majorities are counted over the distinct members just where the node is not its own peer. -/
theorem size_succ_eq_card_iff (n : RaftNode) :
    n.peers.size + 1 = n.configuration.card ↔ n.nodeId ∉ n.peers.keys := by
  have hcard : n.peers.keys.toFinset.card = n.peers.size := by
    rw [List.toFinset_card_of_nodup n.peers.keys_nodup, OrderedMap.length_keys]
  unfold configuration
  by_cases hself : n.nodeId ∈ n.peers.keys
  · rw [Finset.insert_eq_of_mem (List.mem_toFinset.mpr hself), hcard]
    simp [hself]
  · rw [Finset.card_insert_of_notMem (mt List.mem_toFinset.mp hself), hcard]
    simp [hself]

end RaftNode

/-- The nodes of a cluster. There is no network between them: a node may be sent any message. -/
abbrev Nodes := Nat → RaftNode

namespace Nodes

inductive Event where
  | call (i : Nat) (c : RaftNode.Call)
  | restart (i : Nat) (snapshot : Option Snapshot)

def start (addresses : OrderedMap Nat Bytes) : Nodes := fun i => .ofConfig ⟨i, addresses⟩

def after (addresses : OrderedMap Nat Bytes) (s : Nodes) : Event → Nodes
  | .call i c => Function.update s i ((s i).after c)
  | .restart i snapshot => Function.update s i (.ofSnapshot ⟨i, addresses⟩ snapshot)

def run (addresses : OrderedMap Nat Bytes) (events : List Event) : Nodes :=
  events.foldl (after addresses) (start addresses)

variable {addresses : OrderedMap Nat Bytes}

/-- What every node has after its start and keeps over every call, it has after every run. -/
theorem run_induction {P : Nat → RaftNode → Prop}
    (hstart : ∀ i snapshot, P i (.ofSnapshot ⟨i, addresses⟩ snapshot))
    (hafter : ∀ i n c, P i n → P i (n.after c)) (events : List Event) (i : Nat) :
    P i (run addresses events i) := by
  suffices hfold : ∀ s : Nodes, (∀ i, P i (s i)) →
      ∀ i, P i (events.foldl (after addresses) s i) from
    hfold (start addresses) (fun i => hstart i none) i
  induction events with
  | nil => exact fun _ h => h
  | cons event rest ih =>
    refine fun s h => ih (s.after addresses event) fun i => ?_
    cases event with
    | call j c =>
      rcases eq_or_ne i j with rfl | hij
      · simpa only [after, Function.update_self] using hafter i _ c (h i)
      · simpa only [after, Function.update_of_ne hij] using h i
    | restart j snapshot =>
      rcases eq_or_ne i j with rfl | hij
      · simpa only [after, Function.update_self] using hstart i snapshot
      · simpa only [after, Function.update_of_ne hij] using h i

theorem tracks_run (addresses : OrderedMap Nat Bytes) (events : List Event) (i : Nat) :
    (run addresses events i).Tracks (Cluster.members addresses) i :=
  run_induction (P := RaftNode.Tracks (Cluster.members addresses))
    (RaftNode.tracks_ofSnapshot addresses) (fun _ _ c h => h.after c) events i

/-- Node `i` is a member before or after `change`, and has applied nothing but what is `done`
and, it may be, `change`. -/
structure Abreast (s : Nodes) (addresses : OrderedMap Nat Bytes) (done : List ConfChange)
    (change : ConfChange) (i : Nat) : Prop where
  member : i ∈ reconfigured (Cluster.members addresses) done ∨
    i ∈ reconfigured (Cluster.members addresses) (done ++ [change])
  applied : (s i).changes = done ∨ (s i).changes = done ++ [change]

/-- Such a node uses the configuration before or the one after. -/
theorem Abreast.configuration {events : List Event} {done : List ConfChange} {change : ConfChange}
    {i : Nat} (h : Abreast (run addresses events) addresses done change i) :
    (run addresses events i).configuration = reconfigured (Cluster.members addresses) done ∨
    (run addresses events i).configuration =
      reconfigured (Cluster.members addresses) (done ++ [change]) := by
  have hadjacent := change.adjacent_reconfigure (reconfigured (Cluster.members addresses) done)
  have hstep : change.reconfigure (reconfigured (Cluster.members addresses) done) =
      reconfigured (Cluster.members addresses) (done ++ [change]) :=
    (reconfigured_append _ done [change]).symm
  rw [hstep] at hadjacent
  rw [(tracks_run addresses events i).configuration]
  rcases h.applied with hdone | hchanged
  · rw [hdone]
    exact hadjacent.insert_eq h.member
  · rw [hchanged]
    exact (hadjacent.symm.insert_eq h.member.symm).symm

/-- Majorities of two members that are at most one change apart share a node, whatever was
proposed and in whatever order it was applied. -/
theorem majorities_meet (addresses : OrderedMap Nat Bytes) (events : List Event)
    {done : List ConfChange} {change : ConfChange} {i j : Nat}
    (hi : Abreast (run addresses events) addresses done change i)
    (hj : Abreast (run addresses events) addresses done change j) {q r : Finset Nat}
    (hq : Majority (run addresses events i).configuration q)
    (hr : Majority (run addresses events j).configuration r) : ∃ p, p ∈ q ∧ p ∈ r := by
  have hadjacent : Adjacent (reconfigured (Cluster.members addresses) done)
      (reconfigured (Cluster.members addresses) (done ++ [change])) := by
    rw [reconfigured_append]
    exact change.adjacent_reconfigure _
  rcases hi.configuration with hi | hi
  · rw [hi] at hq
    rcases hj.configuration with hj | hj
    · rw [hj] at hr
      exact hq.meet hr
    · rw [hj] at hr
      exact hq.meet_adjacent hr hadjacent
  · rw [hi] at hq
    rcases hj.configuration with hj | hj
    · rw [hj] at hr
      exact hq.meet_adjacent hr hadjacent.symm
    · rw [hj] at hr
      exact hq.meet hr

theorem ownPeer_run (addresses : OrderedMap Nat Bytes) (events : List Event) (i : Nat) :
    (run addresses events i).OwnPeer i :=
  run_induction (P := RaftNode.OwnPeer) (.ofSnapshot addresses) (fun _ _ c h => h.after c) events i

/-- Whatever the nodes are called with, a node is not its own peer, and counts majorities over its
distinct members, exactly when it has not applied its own addition since its process started. -/
theorem own_peer_iff (addresses : OrderedMap Nat Bytes) (events : List Event) (i : Nat) :
    (i ∉ (run addresses events i).peers.keys ∧ (run addresses events i).peers.size + 1 =
      (run addresses events i).configuration.card) ↔
    ∀ cc ∈ (run addresses events i).changes, ¬ RaftNode.Adds i cc := by
  have hown := ownPeer_run addresses events i
  rw [RaftNode.size_succ_eq_card_iff, hown.nodeId, and_self, hown.peer]
  simp

def fiveNodes : OrderedMap Nat Bytes := [1, 2, 3, 4, 5].foldl (fun m id => m.insert id []) ∅

/-- Node 6 joins: a leader sends it the committed entry that adds it. -/
def joining : List Event :=
  let entry : RaftEntry :=
    { term := 1, index := 1, type := .confChange, confChange := { type := .addNode, nodeId := 6 } }
  [.call 6 (.handleAppendEntries ⟨1, 1, 0, 0, [entry], 1⟩)]

/-- It becomes its own peer, and counts its majorities over one member too many. -/
theorem joining_node_is_own_peer : 6 ∈ (run fiveNodes joining 6).peers.keys ∧
    (run fiveNodes joining 6).peers.size + 1 ≠ (run fiveNodes joining 6).configuration.card := by
  decide

def removal (id : Nat) : ConfChange := { type := .removeNode, nodeId := id }

def removalEntry (index id : Nat) : RaftEntry :=
  { term := 1, index := index, type := .confChange, confChange := removal id }

def electNode1 : List Event :=
  [.call 1 .becomeCandidate, .call 2 (.handleRequestVote ⟨1, 1, 0, 0⟩),
    .call 4 (.handleRequestVote ⟨1, 1, 0, 0⟩), .call 1 .becomeLeader]

/-- Nodes 2 and 4 take the entries, node 1 commits and applies them. -/
def replicate (entries : List RaftEntry) : List Event :=
  [.call 2 (.handleAppendEntries ⟨1, 1, 0, 0, entries, 0⟩),
    .call 4 (.handleAppendEntries ⟨1, 1, 0, 0, entries, 0⟩),
    .call 1 (.appendResponse 2 entries ⟨1, true, entries.length, 0, 0⟩),
    .call 1 (.appendResponse 4 entries ⟨1, true, entries.length, 0, 0⟩),
    .call 1 .advanceCommitIndex, .call 1 .applyCommittedEntries]

def oneRemoval : List Event :=
  electNode1 ++ [.call 1 (.proposeConfChange (removal 5))] ++ replicate [removalEntry 1 5]

/-- Node 1 has applied a removal and node 3 has not. -/
theorem majorities_meet_oneRemoval :
    Majority (run fiveNodes oneRemoval 1).configuration {1, 2, 4} ∧
    Majority (run fiveNodes oneRemoval 3).configuration {3, 4, 5} ∧
    ∃ p, p ∈ ({1, 2, 4} : Finset Nat) ∧ p ∈ ({3, 4, 5} : Finset Nat) := by
  have hone : (run fiveNodes oneRemoval 1).configuration = {1, 2, 3, 4} := by decide
  have hthree : (run fiveNodes oneRemoval 3).configuration = {1, 2, 3, 4, 5} := by decide
  have hq : Majority (run fiveNodes oneRemoval 1).configuration {1, 2, 4} :=
    hone ▸ ⟨by decide, by decide⟩
  have hr : Majority (run fiveNodes oneRemoval 3).configuration {3, 4, 5} :=
    hthree ▸ ⟨by decide, by decide⟩
  have hi : Abreast (run fiveNodes oneRemoval) fiveNodes [] (removal 5) 1 :=
    ⟨by decide, by decide⟩
  have hj : Abreast (run fiveNodes oneRemoval) fiveNodes [] (removal 5) 3 :=
    ⟨by decide, by decide⟩
  exact ⟨hq, hr, majorities_meet fiveNodes oneRemoval hi hj hq hr⟩

/-- Nodes 4 and 5 are removed, the second before the first removal is committed. -/
def twoRemovals : List Event :=
  electNode1 ++ [.call 1 (.proposeConfChange (removal 4)), .call 1 (.proposeConfChange (removal 5))]
    ++ replicate [removalEntry 1 4, removalEntry 2 5]

/-- Nodes 1 and 3 are members throughout; node 1 has applied both removals and node 3 neither. -/
theorem majorities_apart :
    (3 ∈ (run fiveNodes twoRemovals 1).configuration ∧
      1 ∈ (run fiveNodes twoRemovals 3).configuration) ∧
    Majority (run fiveNodes twoRemovals 1).configuration {1, 2} ∧
    Majority (run fiveNodes twoRemovals 3).configuration {3, 4, 5} ∧
    ¬ ∃ p, p ∈ ({1, 2} : Finset Nat) ∧ p ∈ ({3, 4, 5} : Finset Nat) := by
  have hone : (run fiveNodes twoRemovals 1).configuration = {1, 2, 3} := by decide
  have hthree : (run fiveNodes twoRemovals 3).configuration = {1, 2, 3, 4, 5} := by decide
  rw [hone, hthree]
  exact ⟨by decide, ⟨by decide, by decide⟩, ⟨by decide, by decide⟩, by simp⟩

end Nodes
end MyEtcd
