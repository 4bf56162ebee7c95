import MyEtcd.Server.AppliedState

/-! Leases and the keys whose values carry their ids.
A deletion takes its key from the lease of the old value. A put attaches its key to its own lease
and leaves the old one as it is, and it attaches nothing to a lease that does not exist yet. -/
namespace MyEtcd
open Library

def KVStore.leaseOf (s : KVStore) (key : Bytes) : Option Int :=
  (s.get key 0).map KeyValue.leaseId

/-- What an entry makes of the lease of its key. -/
def RaftEntry.lease (entry : RaftEntry) : Option Int :=
  if entry.type = .put then some entry.leaseId else none

namespace AppliedState

/-- The keys of every live lease are those whose values carry its id. -/
def Consistent (s : AppliedState) : Prop :=
  ∀ id, s.leaseMgr.Live id → ∀ key, s.leaseMgr.Attached id key ↔ s.kvstore.leaseOf key = some id

/-- A put does not take a key from another live lease, and no value carries the id of a new one. -/
def KeepsOwners (s : AppliedState) : Step → Prop
  | .processEntry entry => entry.type = .put →
    ∀ id, s.leaseMgr.Live id → s.kvstore.leaseOf entry.key = some id → id = entry.leaseId
  | .grant _ _ => ∀ key, s.kvstore.leaseOf key ≠ some s.leaseMgr.nextId
  | _ => True

end AppliedState

namespace KVStore

theorem leaseOf_eq (s : KVStore) (key : Bytes) :
    s.leaseOf key = ((s.mvcc.get key 0).map KeyValue.content).map Content.leaseId := by
  rw [leaseOf, get, Option.map_map, Option.map_map]
  rfl

private theorem leaseOf_write {s s' : KVStore} {w : Write}
    (hmvcc : s'.mvcc = s.mvcc.allocateRevision.2.write w) (key : Bytes) :
    s'.leaseOf key = if key = w.key then w.content.map Content.leaseId else s.leaseOf key := by
  rw [leaseOf_eq, leaseOf_eq, hmvcc, MVCC.content_get_write]
  by_cases hkey : key = w.key
  · rw [if_pos hkey, if_pos hkey.symm]
  · rw [if_neg hkey, if_neg (Ne.symm hkey)]
    rfl

theorem leaseOf_processEntry (s : KVStore) {entry : RaftEntry} (h : EtcdServer.Writes entry)
    (key : Bytes) : (EtcdServer.processEntry s entry).leaseOf key =
      if key = entry.key then entry.lease else s.leaseOf key := by
  rw [EtcdServer.processEntry, RaftEntry.lease]
  rcases h with htype | htype
  · rw [htype, if_pos rfl]
    exact leaseOf_write (w := .put entry.key s.mvcc.currentRev entry.value entry.leaseId) rfl key
  · have hnot : ¬ EventType.delete = .put := by decide
    rw [htype, if_neg hnot]
    exact leaseOf_write (w := .delete entry.key s.mvcc.currentRev) rfl key

end KVStore

namespace AppliedState
variable {s : AppliedState}

theorem processEntry_of_not_writes {entry : RaftEntry} (h : ¬ EtcdServer.Writes entry) :
    s.processEntry entry = s := by
  unfold processEntry
  split
  · exact absurd (.inl ‹_›) h
  · exact absurd (.inr ‹_›) h
  · rfl

theorem leaseMgr_put {entry : RaftEntry} (h : entry.type = .put) : (s.processEntry entry).leaseMgr =
    if entry.leaseId > 0 then (s.leaseMgr.attach entry.leaseId entry.key).2 else s.leaseMgr := by
  rw [processEntry, h]

theorem leaseMgr_delete {entry : RaftEntry} (h : entry.type = .delete) :
    (s.processEntry entry).leaseMgr =
      match s.kvstore.leaseOf entry.key with
      | none => s.leaseMgr
      | some id => if id > 0 then (s.leaseMgr.detach id entry.key).2 else s.leaseMgr := by
  rw [processEntry, h, KVStore.leaseOf]
  cases s.kvstore.get entry.key 0 with
  | none => rfl
  | some kv => rfl

theorem leaseMgr_processEntry (s : AppliedState) (entry : RaftEntry) :
    (s.processEntry entry).leaseMgr = s.leaseMgr ∨
      ∃ id f, (s.processEntry entry).leaseMgr = (s.leaseMgr.update id f).2 := by
  unfold processEntry
  cases entry.type with
  | put =>
    dsimp only
    split_ifs
    · exact .inr ⟨_, _, rfl⟩
    · exact .inl rfl
  | delete =>
    dsimp only
    split_ifs
    · exact .inr ⟨_, _, rfl⟩
    · exact .inl rfl
  | _ => exact .inl rfl

theorem live_processEntry (entry : RaftEntry) (id : Int) :
    (s.processEntry entry).leaseMgr.Live id ↔ s.leaseMgr.Live id := by
  rcases s.leaseMgr_processEntry entry with heq | ⟨_, _, heq⟩
  · rw [heq]
  · rw [heq]
    exact LeaseManager.live_update

theorem issued_after (h : s.leaseMgr.Issued) (step : Step) : (s.after step).leaseMgr.Issued := by
  cases step with
  | processEntry entry =>
    rw [after]
    rcases s.leaseMgr_processEntry entry with heq | ⟨_, _, heq⟩
    · rwa [heq]
    · rw [heq]
      exact h.update _ _
  | grant now ttlMs => exact h.grant now ttlMs
  | revoke id => exact h.drops (s.leaseMgr.drops_revoke id)
  | renew now id => exact h.update id _
  | checkExpiry now => exact h.drops (s.leaseMgr.drops_checkExpiry now)
  | _ => exact h

section
variable (hissued : s.leaseMgr.Issued) {entry : RaftEntry} {id : Int} (hlive : s.leaseMgr.Live id)
  {key : Bytes}
include hissued hlive

theorem attached_put (htype : entry.type = .put) :
    (s.processEntry entry).leaseMgr.Attached id key ↔
      s.leaseMgr.Attached id key ∨ id = entry.leaseId ∧ key = entry.key := by
  have hpos := (hissued.live id hlive).1
  rw [leaseMgr_put htype]
  split_ifs with hlease
  · rw [LeaseManager.attached_attach]
    exact or_congr_right (and_iff_right hlive)
  · refine (or_iff_left ?_).symm
    rintro ⟨rfl, _⟩
    exact hlease hpos

theorem attached_delete (htype : entry.type = .delete) :
    (s.processEntry entry).leaseMgr.Attached id key ↔
      s.leaseMgr.Attached id key ∧ ¬ (key = entry.key ∧ s.kvstore.leaseOf key = some id) := by
  have hpos := (hissued.live id hlive).1
  rw [leaseMgr_delete htype]
  by_cases hkey : key = entry.key
  · subst hkey
    cases hlease : s.kvstore.leaseOf entry.key with
    | none => simp
    | some id' =>
      dsimp only
      split_ifs with hid
      · rw [LeaseManager.attached_detach]
        simp [eq_comm]
      · have hne : id' ≠ id := by omega
        simp [hne]
  · cases s.kvstore.leaseOf entry.key with
    | none => simp [hkey]
    | some id' =>
      dsimp only
      split_ifs
      · rw [LeaseManager.attached_detach]
        simp [hkey]
      · simp [hkey]

end

private theorem consistent_drops {m : LeaseManager} (h : Consistent s)
    (hdrops : LeaseManager.Drops s.leaseMgr m) : Consistent { s with leaseMgr := m } :=
  fun id hlive key => (hdrops.attached hlive).trans (h id (hdrops.live hlive) key)

private theorem consistent_put_iff (hissued : s.leaseMgr.Issued) (h : Consistent s)
    {entry : RaftEntry} (htype : entry.type = .put) :
    Consistent (s.processEntry entry) ↔ KeepsOwners s (.processEntry entry) := by
  have hlease (key : Bytes) : (s.processEntry entry).kvstore.leaseOf key =
      if key = entry.key then some entry.leaseId else s.kvstore.leaseOf key := by
    rw [kvstore_processEntry, KVStore.leaseOf_processEntry _ (.inl htype), RaftEntry.lease,
      if_pos htype]
  constructor
  · intro hafter _ id hlive hcarries
    have hattached := (attached_put hissued hlive htype).mpr
      (.inl ((h id hlive entry.key).mpr hcarries))
    have hnow := (hafter id ((live_processEntry entry id).mpr hlive) entry.key).mp hattached
    rw [hlease, if_pos rfl] at hnow
    exact (Option.some.inj hnow).symm
  · intro hok id hlive key
    rw [live_processEntry] at hlive
    rw [attached_put hissued hlive htype, hlease, h id hlive key]
    by_cases hkey : key = entry.key
    · subst hkey
      rw [if_pos rfl]
      have hother := hok htype id hlive
      grind
    · rw [if_neg hkey]
      exact or_iff_left fun hboth => hkey hboth.2

private theorem consistent_delete (hissued : s.leaseMgr.Issued) (h : Consistent s)
    {entry : RaftEntry} (htype : entry.type = .delete) : Consistent (s.processEntry entry) := by
  intro id hlive key
  rw [live_processEntry] at hlive
  have hnot : ¬ entry.type = .put := by
    rw [htype]
    decide
  rw [attached_delete hissued hlive htype, kvstore_processEntry,
    KVStore.leaseOf_processEntry _ (.inr htype), RaftEntry.lease, if_neg hnot, h id hlive key]
  by_cases hkey : key = entry.key
  · simp [hkey]
  · simp [hkey]

/-- From a consistent state a step leads to one exactly when it keeps the owners. -/
theorem consistent_after_iff (hissued : s.leaseMgr.Issued) (h : Consistent s) (step : Step) :
    Consistent (s.after step) ↔ KeepsOwners s step := by
  cases step with
  | processEntry entry =>
    by_cases hput : entry.type = .put
    · exact consistent_put_iff hissued h hput
    · refine iff_of_true ?_ fun htype => absurd htype hput
      by_cases hdelete : entry.type = .delete
      · exact consistent_delete hissued h hdelete
      · have hnone : ¬ EtcdServer.Writes entry := fun hwrites => hwrites.elim hput hdelete
        rwa [after, processEntry_of_not_writes hnone]
  | grant now ttlMs =>
    have hnone (key : Bytes) : ¬ s.leaseMgr.Attached s.leaseMgr.nextId key := fun hattached =>
      lt_irrefl _ (hissued.live _ hattached.live).2
    constructor
    · intro hafter key hcarries
      have hnew := (hafter _ (LeaseManager.live_grant.mpr (.inl rfl)) key).mpr hcarries
      exact hnone key ((LeaseManager.attached_grant hissued).mp hnew)
    · intro hok id hlive key
      refine (LeaseManager.attached_grant hissued).trans ?_
      rcases LeaseManager.live_grant.mp hlive with rfl | hlive
      · exact iff_of_false (hnone key) (hok key)
      · exact h id hlive key
  | revoke id => exact iff_of_true (consistent_drops h (s.leaseMgr.drops_revoke id)) trivial
  | checkExpiry now =>
    exact iff_of_true (consistent_drops h (s.leaseMgr.drops_checkExpiry now)) trivial
  | renew now id =>
    refine iff_of_true (fun id' hlive key => ?_) trivial
    exact LeaseManager.attached_renew.trans (h id' (LeaseManager.live_update.mp hlive) key)
  | _ => exact iff_of_true h trivial

/-- As long as no put takes a key from a live lease and no lease gets an id that is in use, the keys
attached to a live lease are those whose values carry its id. -/
theorem attachments_consistent {server : KVServer} {s : AppliedState}
    (h : Run (fun s step => some (s.after step)) KeepsOwners (ofServer server) s) {id : Int}
    (hlive : s.leaseMgr.Live id) (key : Bytes) :
    key ∈ (s.leaseMgr.getAttachedKeys id).keys ↔
      (s.kvstore.get key 0).map KeyValue.leaseId = some id := by
  have hinv : s.leaseMgr.Issued ∧ Consistent s := by
    refine h.invariant (P := fun s => s.leaseMgr.Issued ∧ Consistent s) ?_ ?_
    · rintro s step s' ⟨hissued, hconsistent⟩ hok hstep
      obtain rfl := Option.some.inj hstep
      exact ⟨issued_after hissued step, (consistent_after_iff hissued hconsistent step).mpr hok⟩
    · exact ⟨.start, fun id hlive => by cases hlive⟩
  exact hinv.2 id hlive key

/-- A key that is put under one lease and then under another stays attached to the first. -/
theorem reput_stays_attached : ∃ s : AppliedState,
    Run (fun s step => some (s.after step)) (fun _ _ => True) (ofServer (.fresh {})) s ∧
      s.leaseMgr.Live 1 ∧ [107] ∈ (s.leaseMgr.getAttachedKeys 1).keys ∧
      (s.kvstore.get [107] 0).map KeyValue.leaseId = some 2 :=
  reachable_of_execute _ _ _ [.grant 0 1000, .grant 0 1000,
    .processEntry { index := 1, key := [107], value := [97], leaseId := 1 },
    .processEntry { index := 2, key := [107], value := [98], leaseId := 2 }] (by decide)

/-- One key that is put under a lease. -/
theorem attachments_consistent_onePut : ∃ s : AppliedState,
    (s.kvstore.get [107] 0).map KeyValue.leaseId = some 1 ∧
      [107] ∈ (s.leaseMgr.getAttachedKeys 1).keys := by
  have hgrant : KeepsOwners (ofServer (.fresh {})) (.grant 0 1000) := fun key h => by cases h
  have hput : KeepsOwners ((ofServer (.fresh {})).after (.grant 0 1000))
      (.processEntry { index := 1, key := [107], value := [97], leaseId := 1 }) :=
    fun _ id _ h => by cases h
  exact ⟨_, rfl, (attachments_consistent ((Run.start.next hgrant rfl).next hput rfl)
    (by decide) [107]).mpr rfl⟩

end AppliedState
end MyEtcd
