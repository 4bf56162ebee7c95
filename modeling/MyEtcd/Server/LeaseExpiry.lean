import MyEtcd.Server.Attachments

/-! A running server whose leases expire and are revoked.
The keys of a dropped lease are collected first, a deletion is proposed for each of them later, and
it is applied later still, without a look at what the key has become. -/
namespace MyEtcd
open Library

structure LeasedServer where
  server : KVServer
  leaseMgr : LeaseManager := {}
  /-- The callbacks that have not been made yet: the key, and the lease it was attached to. -/
  collected : List (Bytes × Int) := []
  /-- The entries that callbacks have got into the log and the store has not been given yet. -/
  expiring : List (RaftEntry × Int) := []

namespace LeasedServer

def applied (s : LeasedServer) : AppliedState :=
  { kvstore := s.server.kvstore, leaseMgr := s.leaseMgr }

/-- The keys that the callback gets, with their leases. -/
def owned (dropped : List (Int × Lease)) : List (Bytes × Int) :=
  dropped.flatMap fun e => e.2.attachedKeys.keys.map fun key => (key, e.1)

inductive Event where
  | server (event : KVServer.Event)
  | grant (now ttlMs : Int)
  | renew (now id : Int)
  | revoke (id : Int)
  | checkExpiry (now : Int)
  | onLeaseExpired (i : Nat)

def processing (s : LeasedServer) (event : KVServer.Event) : Option RaftEntry :=
  match event, s.server.critical with
  | .act, .processEntry entry :: _ => some entry
  | _, _ => none

/-- A run is that of one process, so it has no restart in it. Callbacks of different threads are
made in any order, each by proposing a deletion, which a node that does not lead refuses. -/
def step (s : LeasedServer) : Event → Option LeasedServer
  | .server (.restart _) => none
  | .server event => (s.server.step event).map fun server =>
    match s.processing event with
    | some entry => { s with
        server
        leaseMgr := (s.applied.processEntry entry).leaseMgr
        expiring := s.expiring.filter fun p => p.1 ≠ entry }
    | none => { s with server }
  | .grant now ttlMs => some { s with leaseMgr := (s.leaseMgr.grant now ttlMs).2 }
  | .renew now id => some { s with leaseMgr := (s.leaseMgr.renew now id).2 }
  | .revoke id => some { s with
      leaseMgr := (s.leaseMgr.revoke id).2.2
      collected := s.collected ++ owned (s.leaseMgr.revoked id) }
  | .checkExpiry now => some { s with
      leaseMgr := (s.leaseMgr.checkExpiry now).2
      collected := s.collected ++ owned (s.leaseMgr.expired now) }
  | .onLeaseExpired i =>
    match s.collected[i]? with
    | none => none
    | some (key, id) => (s.server.propose { type := .delete, key }).map fun (accepted, server) =>
      { s with
        server
        collected := s.collected.eraseIdx i
        expiring := s.expiring ++ (accepted.map fun entry => (entry, id)).toList }

/-- Nothing is written to a key that waits for its deletion, but by that deletion and by puts under
the same lease, and no put takes a key from a live lease. -/
def LetsExpire (s : LeasedServer) : Event → Prop
  | .server event =>
    match s.processing event with
    | none => True
    | some entry => EtcdServer.Writes entry →
      (entry.type = .put → ∀ id ∈ s.server.kvstore.leaseOf entry.key,
        s.leaseMgr.Live id → id = entry.leaseId) ∧
      (∀ p ∈ s.collected, p.1 = entry.key → entry.lease = some p.2) ∧
      ∀ p ∈ s.expiring, p.1 ≠ entry → p.1.key = entry.key → entry.lease = some p.2
  | _ => True

instance instDecidableLetsExpire (s : LeasedServer) (event : Event) :
    Decidable (LetsExpire s event) := by
  unfold LetsExpire
  split
  · split <;> infer_instance
  · infer_instance

/-- The keys of live leases and those that wait for their deletion carry the ids of their leases. -/
structure Owning (s : LeasedServer) : Prop where
  issued : s.leaseMgr.Issued
  attached : ∀ id key, s.leaseMgr.Attached id key → s.server.kvstore.leaseOf key = some id
  collected : ∀ p ∈ s.collected, s.server.kvstore.leaseOf p.1 = some p.2
  expiring : ∀ p ∈ s.expiring, s.server.kvstore.leaseOf p.1.key = some p.2

/-- The callback gets these keys, in this order. -/
theorem map_fst_owned (dropped : List (Int × Lease)) :
    (owned dropped).map Prod.fst = LeaseManager.callbackKeys dropped := by
  rw [owned, LeaseManager.callbackKeys, List.map_flatMap]
  congr 1
  funext e
  rw [List.map_map]
  exact List.map_id _

variable {s s' : LeasedServer}

theorem attached_of_owned {dropped : List (Int × Lease)}
    (h : ∀ e ∈ dropped, s.leaseMgr.leases.get? e.1 = some e.2) {p : Bytes × Int}
    (hp : p ∈ owned dropped) : s.leaseMgr.Attached p.2 p.1 := by
  obtain ⟨e, he, hp⟩ := List.mem_flatMap.mp hp
  obtain ⟨key, hkey, rfl⟩ := List.mem_map.mp hp
  exact LeaseManager.attached_iff.mpr ⟨e.2, h e he, hkey⟩

theorem attached_of_revoked {id : Int} {p : Bytes × Int}
    (hp : p ∈ owned (s.leaseMgr.revoked id)) : s.leaseMgr.Attached p.2 p.1 := by
  refine attached_of_owned (fun e he => ?_) hp
  obtain ⟨lease, hlease, rfl⟩ := Option.map_eq_some_iff.mp (Option.mem_toList.mp he)
  exact hlease

theorem attached_of_expired {now : Int} {p : Bytes × Int}
    (hp : p ∈ owned (s.leaseMgr.expired now)) : s.leaseMgr.Attached p.2 p.1 :=
  attached_of_owned
    (fun e he => (OrderedMap.mem_entries_iff _ e.1 e.2).mp (List.mem_filter.mp he).1) hp

theorem processing_eq (s : LeasedServer) (event : KVServer.Event) :
    s.processing event = s.server.processing event := by
  cases event with
  | act =>
    unfold processing KVServer.processing
    cases s.server.critical with
    | nil => rfl
    | cons action rest => cases action <;> rfl
  | _ => rfl

namespace Owning

/-- The store stays as it is, and leases at most lose keys. -/
theorem congr (h : Owning s) (hissued : s'.leaseMgr.Issued)
    (hkvstore : s'.server.kvstore = s.server.kvstore)
    (hattached : ∀ id key, s'.leaseMgr.Attached id key → s.leaseMgr.Attached id key)
    (hcollected : ∀ p ∈ s'.collected, p ∈ s.collected ∨ s.leaseMgr.Attached p.2 p.1)
    (hexpiring : ∀ p ∈ s'.expiring, p ∈ s.expiring ∨ (p.1.key, p.2) ∈ s.collected) : Owning s' := by
  refine ⟨hissued, fun id key hkey => ?_, fun p hp => ?_, fun p hp => ?_⟩
  · rw [hkvstore]
    exact h.attached id key (hattached id key hkey)
  · rw [hkvstore]
    exact (hcollected p hp).elim (h.collected p) (h.attached p.2 p.1)
  · rw [hkvstore]
    exact (hexpiring p hp).elim (h.expiring p) (h.collected (p.1.key, p.2))

private theorem processEntry (h : Owning s) {entry : RaftEntry} {server : KVServer}
    {event : KVServer.Event} (hprocessing : s.processing event = some entry)
    (hok : LetsExpire s (.server event))
    (hkvstore : server.kvstore = EtcdServer.processEntry s.server.kvstore entry) :
    Owning { s with
      server
      leaseMgr := (s.applied.processEntry entry).leaseMgr
      expiring := s.expiring.filter fun p => p.1 ≠ entry } := by
  have hissued : (s.applied.processEntry entry).leaseMgr.Issued :=
    AppliedState.issued_after (s := s.applied) h.issued (.processEntry entry)
  by_cases hwrites : EtcdServer.Writes entry
  · simp only [LetsExpire, hprocessing] at hok
    obtain ⟨hput, hcollected, hexpiring⟩ := hok hwrites
    have hlease (key : Bytes) : server.kvstore.leaseOf key =
        if key = entry.key then entry.lease else s.server.kvstore.leaseOf key := by
      rw [hkvstore, KVStore.leaseOf_processEntry _ hwrites]
    refine ⟨hissued, fun id key hkey => ?_, fun p hp => ?_, fun p hp => ?_⟩
    · have hlive : s.leaseMgr.Live id :=
        (AppliedState.live_processEntry (s := s.applied) entry id).mp hkey.live
      dsimp only at hkey ⊢
      rw [hlease]
      rcases hwrites with htype | htype
      · rw [RaftEntry.lease, if_pos htype]
        rcases (AppliedState.attached_put h.issued hlive htype).mp hkey with hkey | ⟨rfl, rfl⟩
        · split_ifs with heq
          · subst heq
            rw [hput htype id (h.attached id entry.key hkey) hlive]
          · exact h.attached id key hkey
        · rw [if_pos rfl]
      · obtain ⟨hkey, hnot⟩ := (AppliedState.attached_delete h.issued hlive htype).mp hkey
        have hcarries := h.attached id key hkey
        rw [if_neg fun heq => hnot ⟨heq, hcarries⟩, hcarries]
    · dsimp only at hp ⊢
      rw [hlease]
      split_ifs with heq
      · exact hcollected p hp heq
      · exact h.collected p hp
    · obtain ⟨hp, hne⟩ := List.mem_filter.mp hp
      dsimp only
      rw [hlease]
      split_ifs with heq
      · exact hexpiring p hp (of_decide_eq_true hne) heq
      · exact h.expiring p hp
  · refine h.congr hissued ?_ (fun id key hkey => ?_) (fun p hp => .inl hp)
      fun p hp => .inl (List.mem_filter.mp hp).1
    · rw [hkvstore, EtcdServer.processEntry_of_not_writes hwrites]
    · dsimp only at hkey
      rwa [AppliedState.processEntry_of_not_writes hwrites] at hkey

theorem step (h : Owning s) {event : Event} (hok : LetsExpire s event)
    (hs : s.step event = some s') : Owning s' := by
  have hsame : ∀ p ∈ s.collected, p ∈ s.collected ∨ s.leaseMgr.Attached p.2 p.1 :=
    fun p hp => .inl hp
  have hsame' : ∀ p ∈ s.expiring, p ∈ s.expiring ∨ (p.1.key, p.2) ∈ s.collected :=
    fun p hp => .inl hp
  have hdropped {m : LeaseManager} (hdrops : s.leaseMgr.Drops m) {dropped : List (Int × Lease)}
      (howned : ∀ p ∈ owned dropped, s.leaseMgr.Attached p.2 p.1) :
      Owning { s with leaseMgr := m, collected := s.collected ++ owned dropped } := by
    refine h.congr (h.issued.drops hdrops) rfl (fun id key hkey => ?_) (fun p hp => ?_) hsame'
    · exact (hdrops.attached hkey.live).mp hkey
    · exact (List.mem_append.mp hp).imp id (howned p)
  cases event with
  | server event =>
    have hrunning : ∀ closed, event ≠ .restart closed := by
      rintro closed rfl
      cases hs
    have hs : (s.server.step event).map (fun server =>
        match s.processing event with
        | some entry => { s with
            server
            leaseMgr := (s.applied.processEntry entry).leaseMgr
            expiring := s.expiring.filter fun p => p.1 ≠ entry }
        | none => { s with server }) = some s' := by
      rw [← hs]
      cases event with
      | restart closed => exact absurd rfl (hrunning closed)
      | _ => rfl
    obtain ⟨server, hserver, rfl⟩ := Option.map_eq_some_iff.mp hs
    have hkvstore := KVServer.kvstore_step hrunning hserver
    rw [← processing_eq] at hkvstore
    cases hprocessing : s.processing event with
    | none =>
      rw [hprocessing] at hkvstore
      exact h.congr h.issued hkvstore (fun _ _ hkey => hkey) hsame hsame'
    | some entry =>
      rw [hprocessing] at hkvstore
      exact h.processEntry hprocessing hok hkvstore
  | grant now ttlMs =>
    obtain rfl := Option.some.inj hs
    exact h.congr (h.issued.grant now ttlMs) rfl
      (fun _ _ => (LeaseManager.attached_grant h.issued).mp) hsame hsame'
  | renew now id =>
    obtain rfl := Option.some.inj hs
    exact h.congr (h.issued.update id _) rfl
      (fun _ _ => LeaseManager.attached_renew.mp) hsame hsame'
  | revoke id =>
    obtain rfl := Option.some.inj hs
    exact hdropped (s.leaseMgr.drops_revoke id) fun p => attached_of_revoked
  | checkExpiry now =>
    obtain rfl := Option.some.inj hs
    exact hdropped (s.leaseMgr.drops_checkExpiry now) fun p => attached_of_expired
  | onLeaseExpired i =>
    dsimp only [LeasedServer.step] at hs
    split at hs
    · cases hs
    · next key id hcallback =>
      obtain ⟨⟨accepted, server⟩, hpropose, rfl⟩ := Option.map_eq_some_iff.mp hs
      have hmem : (key, id) ∈ s.collected := List.mem_of_getElem? hcallback
      have hkvstore : server.kvstore = s.server.kvstore := by
        rcases KVServer.propose_cases hpropose with ⟨_, _, rfl⟩ | ⟨_, _, _, _, _, rfl⟩
        · rfl
        · rfl
      refine h.congr h.issued hkvstore (fun _ _ hkey => hkey)
        (fun p hp => .inl (List.mem_of_mem_eraseIdx hp)) fun p hp => ?_
      refine (List.mem_append.mp hp).imp_right fun hnew => ?_
      obtain ⟨entry, hentry, rfl⟩ := Option.map_eq_some_iff.mp (Option.mem_toList.mp hnew)
      rcases KVServer.propose_cases hpropose with ⟨_, hnone, _⟩ | ⟨_, _, e, he, hsome, _⟩
      · rw [hnone] at hentry
        cases hentry
      · obtain rfl := Option.some.inj (hsome.symm.trans hentry)
        rw [he]
        exact hmem

end Owning

/-- As long as keys are left alone until their deletions come, the key of a deletion that an expired
or revoked lease has brought about carries the id of the lease until the deletion is applied. -/
theorem expiry_deletes_owned {server : KVServer} {s : LeasedServer}
    (h : Run step LetsExpire { server } s) {entry : RaftEntry} {id : Int}
    (hexpiring : (entry, id) ∈ s.expiring) :
    (s.server.kvstore.get entry.key 0).map KeyValue.leaseId = some id := by
  have hstart : Owning { server } := by
    refine ⟨.start, fun id key hkey => ?_, ?_, ?_⟩
    · cases hkey
    · exact fun p hp => absurd hp List.not_mem_nil
    · exact fun p hp => absurd hp List.not_mem_nil
  have howning : Owning s := h.invariant (fun hs hok hstep => hs.step hok hstep) hstart
  exact howning.expiring (entry, id) hexpiring

/-- The next entry of the log is committed and given to the handler, which gives it to the store. -/
def applyNext : List Event :=
  [.server (.call .advanceCommitIndex), .server (.call .applyCommittedEntries), .server .enterReady,
    .server .act, .server .act, .server .act, .server .act]

/-- A server alone on which a key is put under the only lease. -/
def leasedPut : List Event :=
  [.server (.call .becomeCandidate), .server (.call .becomeLeader), .grant 0 1000,
    .server (.request (.put [107] [97] 1))] ++ applyNext

/-- A client puts the key without a lease after the lease has been revoked. -/
theorem expiry_deletes_foreign : ∃ s : LeasedServer,
    Run step (fun _ _ => True) { server := .fresh {} } s ∧
      s.server.critical.head? =
        some (.processEntry { term := 1, index := 3, type := .delete, key := [107] }) ∧
      ({ term := 1, index := 3, type := .delete, key := [107] }, 1) ∈ s.expiring ∧
      (s.server.kvstore.get [107] 0).map KeyValue.leaseId = some 0 :=
  reachable_of_execute _ _ _ (leasedPut ++ [.revoke 1, .server (.request (.put [107] [98] 0)),
    .onLeaseExpired 0, .server (.call .advanceCommitIndex), .server (.call .applyCommittedEntries),
    .server .enterReady, .server .act]) (by decide)

/-- A lease is revoked, and nobody writes its key before the deletion is applied. -/
theorem expiry_deletes_owned_revoked : ∃ s : LeasedServer,
    s.server.critical.head? =
        some (.processEntry { term := 1, index := 2, type := .delete, key := [107] }) ∧
      (s.server.kvstore.get [107] 0).map KeyValue.leaseId = some 1 := by
  obtain ⟨s, hrun, hhead, hexpiring⟩ := reachable_of_execute step LetsExpire { server := .fresh {} }
    (leasedPut ++ [.revoke 1, .onLeaseExpired 0, .server (.call .advanceCommitIndex),
      .server (.call .applyCommittedEntries), .server .enterReady])
    (P := fun s => s.server.critical.head? =
        some (.processEntry { term := 1, index := 2, type := .delete, key := [107] }) ∧
      ({ term := 1, index := 2, type := .delete, key := [107] }, 1) ∈ s.expiring) (by decide)
  exact ⟨s, hhead, expiry_deletes_owned hrun hexpiring⟩

end LeasedServer
end MyEtcd
