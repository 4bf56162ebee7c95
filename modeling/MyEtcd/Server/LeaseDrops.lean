import Mathlib.Logic.Function.Basic
import MyEtcd.Server.LeaseExpiry

/-! What becomes of the keys of the leases that the nodes of a cluster drop.
A lease is gone from the table before the deletions of its keys are proposed one by one, and a node
that does not lead by then proposes none. -/
namespace MyEtcd
open Library

/-- A process, with the keys of the leases it has dropped and the entries that the callbacks have
got into its log. -/
structure LeaseNode where
  leased : LeasedServer
  dropped : List (Bytes × Int) := []
  accepted : List (RaftEntry × Int) := []

namespace LeaseNode

def drops (s : LeasedServer) : LeasedServer.Event → List (Bytes × Int)
  | .revoke id => LeasedServer.owned (s.leaseMgr.revoked id)
  | .checkExpiry now => LeasedServer.owned (s.leaseMgr.expired now)
  | _ => []

def callback (s : LeasedServer) : LeasedServer.Event → Option Int
  | .onLeaseExpired i => s.collected[i]?.map Prod.snd
  | _ => none

/-- What the log has got at its end. -/
def logged (before after : LeasedServer) : List RaftEntry :=
  after.server.node.log.entries.drop before.server.node.log.entries.length

/-- A new process starts without leases, and makes none of the callbacks of the one before. -/
def step (s : LeaseNode) : LeasedServer.Event → Option LeaseNode
  | .server (.restart closed) =>
    (s.leased.server.step (.restart closed)).map fun server => { leased := { server } }
  | event => (s.leased.step event).map fun leased =>
    { leased
      dropped := s.dropped ++ drops s.leased event
      accepted := s.accepted ++ (callback s.leased event).toList.flatMap fun id =>
        (logged s.leased leased).map fun entry => (entry, id) }

/-- Every key of a lease that is gone has its deletion in the log, or its callback is yet to come. -/
def TakesKeys (s : LeaseNode) : Prop :=
  ∀ p ∈ s.dropped, p ∈ s.leased.collected ∨
    ∃ entry, (entry, p.2) ∈ s.accepted ∧ entry.type = .delete ∧ entry.key = p.1

def Leads (s : LeaseNode) : LeasedServer.Event → Prop
  | .onLeaseExpired _ => s.leased.server.node.state = .leader
  | _ => True

instance instDecidableLeads (s : LeaseNode) (event : LeasedServer.Event) :
    Decidable (Leads s event) := by
  unfold Leads
  split <;> infer_instance

/-- An event of one of the nodes. What a node gets from the others is part of the event. -/
def clusterStep (c : Nat → LeaseNode) (e : Nat × LeasedServer.Event) : Option (Nat → LeaseNode) :=
  ((c e.1).step e.2).map (Function.update c e.1)

def start (configs : Nat → ClusterConfig) (i : Nat) : LeaseNode where
  leased := { server := .fresh (configs i) }

variable {s s' : LeaseNode}

theorem step_running {event : LeasedServer.Event}
    (hrunning : ∀ closed, event ≠ .server (.restart closed)) (h : s.step event = some s') :
    ∃ leased, s.leased.step event = some leased ∧ s' = {
      leased
      dropped := s.dropped ++ drops s.leased event
      accepted := s.accepted ++ (callback s.leased event).toList.flatMap fun id =>
        (logged s.leased leased).map fun entry => (entry, id) } := by
  have h : (s.leased.step event).map (fun leased => ({
      leased
      dropped := s.dropped ++ drops s.leased event
      accepted := s.accepted ++ (callback s.leased event).toList.flatMap fun id =>
        (logged s.leased leased).map fun entry => (entry, id) } : LeaseNode)) = some s' := by
    rw [← h]
    cases event with
    | server event =>
      cases event with
      | restart closed => exact absurd rfl (hrunning closed)
      | _ => rfl
    | _ => rfl
  obtain ⟨leased, hleased, rfl⟩ := Option.map_eq_some_iff.mp h
  exact ⟨leased, hleased, rfl⟩

/-- Only a callback makes the list of callbacks shorter, and dropped leases make it longer. -/
theorem collected_step {s s' : LeasedServer} {event : LeasedServer.Event}
    (hcallback : ∀ i, event ≠ .onLeaseExpired i) (h : s.step event = some s') :
    s'.collected = s.collected ++ drops s event := by
  cases event with
  | server event =>
    have hsame : s'.collected = s.collected := by
      cases event with
      | restart closed => cases h
      | _ =>
        obtain ⟨server, -, rfl⟩ := Option.map_eq_some_iff.mp h
        split <;> rfl
    rw [hsame]
    exact (List.append_nil _).symm
  | onLeaseExpired i => exact absurd rfl (hcallback i)
  | grant now ttlMs =>
    obtain rfl := Option.some.inj h
    exact (List.append_nil _).symm
  | renew now id =>
    obtain rfl := Option.some.inj h
    exact (List.append_nil _).symm
  | revoke id =>
    obtain rfl := Option.some.inj h
    rfl
  | checkExpiry now =>
    obtain rfl := Option.some.inj h
    rfl

/-- A callback of a node that leads gets the deletion of its key into the log. -/
theorem onLeaseExpired_leader {s s' : LeasedServer} {i : Nat}
    (hleads : s.server.node.state = .leader) (h : s.step (.onLeaseExpired i) = some s') :
    ∃ key id entry, s.collected[i]? = some (key, id) ∧ s'.collected = s.collected.eraseIdx i ∧
      logged s s' = [entry] ∧ entry.type = .delete ∧ entry.key = key := by
  dsimp only [LeasedServer.step] at h
  split at h
  · cases h
  · next key id hcollected =>
    obtain ⟨⟨accepted, server⟩, hpropose, rfl⟩ := Option.map_eq_some_iff.mp h
    rcases KVServer.propose_cases hpropose with ⟨hnot, -⟩ | ⟨-, -, entry, hentry, -, rfl⟩
    · exact absurd hleads hnot
    · refine ⟨key, id, entry, hcollected, rfl, List.drop_left, ?_, ?_⟩
      · rw [hentry]
      · rw [hentry]

namespace TakesKeys

theorem step (h : TakesKeys s) {event : LeasedServer.Event} (hok : Leads s event)
    (hs : s.step event = some s') : TakesKeys s' := by
  by_cases hrestart : ∃ closed, event = .server (.restart closed)
  · obtain ⟨closed, rfl⟩ := hrestart
    obtain ⟨server, -, rfl⟩ := Option.map_eq_some_iff.mp hs
    exact fun p hp => absurd hp List.not_mem_nil
  · obtain ⟨leased, hleased, rfl⟩ := step_running (fun closed heq => hrestart ⟨closed, heq⟩) hs
    intro p hp
    by_cases hcallback : ∃ i, event = .onLeaseExpired i
    · obtain ⟨i, rfl⟩ := hcallback
      obtain ⟨key, id, entry, hget, hcollected, hlogged, htype, hkey⟩ :=
        onLeaseExpired_leader hok hleased
      have hp : p ∈ s.dropped := by simpa only [drops, List.append_nil] using hp
      rcases h p hp with hwaiting | ⟨entry', haccepted, hentry'⟩
      · obtain ⟨j, hj⟩ := List.mem_iff_getElem?.mp hwaiting
        by_cases hsame : j = i
        · have hpair : (key, id) = p := Option.some.inj (hget.symm.trans (hsame ▸ hj))
          refine .inr ⟨entry, List.mem_append_right _ ?_, htype, ?_⟩
          · rw [callback, hget, hlogged, ← hpair]
            exact List.mem_singleton_self _
          · rw [hkey, ← hpair]
        · refine .inl ?_
          dsimp only
          rw [hcollected]
          exact List.mem_eraseIdx_iff_getElem?.mpr ⟨j, hsame, hj⟩
      · exact .inr ⟨entry', List.mem_append_left _ haccepted, hentry'⟩
    · dsimp only
      rw [collected_step (fun i heq => hcallback ⟨i, heq⟩) hleased]
      rcases List.mem_append.mp hp with hp | hp
      · rcases h p hp with hwaiting | ⟨entry, haccepted, hentry⟩
        · exact .inl (List.mem_append_left _ hwaiting)
        · exact .inr ⟨entry, List.mem_append_left _ haccepted, hentry⟩
      · exact .inl (List.mem_append_right _ hp)

end TakesKeys

/-- In a cluster in which every callback of a dropped lease finds its node leading, the keys of the
leases that a node has dropped have their deletions in its log as soon as the callbacks are over. -/
theorem dropped_leases_take_keys {configs : Nat → ClusterConfig} {c : Nat → LeaseNode}
    (h : Run clusterStep (fun c e => Leads (c e.1) e.2) (start configs) c) (i : Nat) :
    TakesKeys (c i) := by
  have hstart : ∀ i, TakesKeys (start configs i) := fun i p hp => absurd hp List.not_mem_nil
  have hall : ∀ i, TakesKeys (c i) := by
    refine Run.invariant (P := fun c => ∀ i, TakesKeys (c i))
      (fun {c e c'} hkeys hok hstep i => ?_) h hstart
    obtain ⟨next, hnext, rfl⟩ := Option.map_eq_some_iff.mp hstep
    by_cases hnode : i = e.1
    · subst hnode
      rw [Function.update_self]
      exact (hkeys e.1).step hok hnext
    · rw [Function.update_of_ne hnode]
      exact hkeys i
  exact hall i

def three (i : Nat) : ClusterConfig where
  nodeId := i
  peerAddresses := (((∅ : OrderedMap Nat Bytes).insert 1 [49]).insert 2 [50]).insert 3 [51]

/-- Node 1 leads, and puts a key under a lease with the help of node 2. -/
def leasedPut : List (Nat × LeasedServer.Event) :=
  [.server (.call .becomeCandidate), .server (.call .becomeLeader), .grant 0 1000,
    .server (.request (.put [107] [97] 1)),
    .server (.call (.appendResponse 2
      [{ term := 1, index := 1, type := .put, key := [107], value := [97], leaseId := 1 }]
      { term := 1, success := true, lastLogIndex := 1 }))].map (Prod.mk 1) ++
    LeasedServer.applyNext.map (Prod.mk 1)

/-- Node 1 votes for node 2, which has started an election. -/
def stepsDown : List (Nat × LeasedServer.Event) :=
  [(2, .server (.call .becomeCandidate)), (1, .server (.call (.handleRequestVote
    { term := 2, candidateId := 2, lastLogIndex := 1, lastLogTerm := 1 })))]

/-- The lease runs out after its node has stepped down. -/
theorem dropped_lease_leaves_key : ∃ c : Nat → LeaseNode,
    Run clusterStep (fun _ _ => True) (start three) c ∧ (c 1).leased.collected = [] ∧
      (∀ entry ∈ (c 1).leased.server.node.log.entries, entry.type ≠ .delete) ∧
      ¬ TakesKeys (c 1) := by
  obtain ⟨c, hrun, hdropped, hcollected, haccepted, hlog⟩ := reachable_of_execute clusterStep
    (fun _ _ => True) (start three)
    (leasedPut ++ stepsDown ++ [(1, .checkExpiry 2000000000), (1, .onLeaseExpired 0)])
    (P := fun c => ([107], 1) ∈ (c 1).dropped ∧ (c 1).leased.collected = [] ∧
      (c 1).accepted = [] ∧ ∀ entry ∈ (c 1).leased.server.node.log.entries, entry.type ≠ .delete)
    (by decide)
  refine ⟨c, hrun, hcollected, hlog, fun htakes => ?_⟩
  rcases htakes ([107], 1) hdropped with hwaiting | ⟨entry, hentry, -⟩
  · rw [hcollected] at hwaiting
    cases hwaiting
  · rw [haccepted] at hentry
    cases hentry

/-- The lease runs out while its node leads. -/
theorem dropped_leases_take_keys_leader : ∃ c : Nat → LeaseNode,
    ([107], 1) ∈ (c 1).dropped ∧ (c 1).leased.collected = [] ∧ TakesKeys (c 1) := by
  obtain ⟨c, hrun, hdropped, hcollected⟩ := reachable_of_execute clusterStep
    (fun c e => Leads (c e.1) e.2) (start three)
    (leasedPut ++ [(1, .checkExpiry 2000000000), (1, .onLeaseExpired 0)])
    (P := fun c => ([107], 1) ∈ (c 1).dropped ∧ (c 1).leased.collected = []) (by decide)
  exact ⟨c, hdropped, hcollected, dropped_leases_take_keys hrun 1⟩

end LeaseNode
end MyEtcd
