import MyEtcd.Lease.LeaseManager
import MyEtcd.Server.KVServer
import MyEtcd.Watch.WatchManager

/-! What the server applies committed entries to: the store, the leases and the watchers.
Entries arrive from the log while clients watch and take out leases, one call at a time. -/
namespace MyEtcd
open Library

structure AppliedState where
  kvstore : KVStore := {}
  leaseMgr : LeaseManager := {}
  watchMgr : WatchManager := {}

namespace AppliedState

/-- One round of `ProcessRaftEntries`. -/
def processEntry (s : AppliedState) (entry : RaftEntry) : AppliedState :=
  match entry.type with
  | .put =>
    let (result, kvstore) := s.kvstore.putWithPrev entry.key entry.value entry.leaseId
    let leaseMgr :=
      if entry.leaseId > 0 then (s.leaseMgr.attach entry.leaseId entry.key).2 else s.leaseMgr
    let watchMgr :=
      match result.newKv with
      | some newKv => s.watchMgr.notify
          { type := .put
            kv := newKv
            prevKv := result.prevKv.getD { key := entry.key, value := [] } }
      | none => s.watchMgr
    { kvstore, leaseMgr, watchMgr }
  | .delete =>
    let prevKv := (s.kvstore.get entry.key 0).getD { key := entry.key, value := [] }
    let leaseMgr :=
      if prevKv.leaseId > 0 then (s.leaseMgr.detach prevKv.leaseId entry.key).2 else s.leaseMgr
    let watchMgr := s.watchMgr.notify
      { type := .delete, kv := { key := entry.key, value := [] }, prevKv }
    { kvstore := (s.kvstore.delete entry.key).2, leaseMgr, watchMgr }
  | _ => s

inductive Step where
  | processEntry (entry : RaftEntry)
  | watch (key : Bytes) (startRev : Int) (byPrefix : Bool)
  | cancel (id : Int)
  | cleanup
  | waitForEvent (id : Int)
  | grant (now ttlMs : Int)
  | revoke (id : Int)
  | renew (now id : Int)
  | checkExpiry (now : Int)
  deriving DecidableEq

def after (s : AppliedState) : Step → AppliedState
  | .processEntry entry => s.processEntry entry
  | .watch key startRev byPrefix =>
    { s with watchMgr := (s.watchMgr.watch key startRev byPrefix).2 }
  | .cancel id => { s with watchMgr := (s.watchMgr.cancel id).2 }
  | .cleanup => { s with watchMgr := s.watchMgr.cleanup }
  | .waitForEvent id => { s with watchMgr := (s.watchMgr.waitForEvent id).2 }
  | .grant now ttlMs => { s with leaseMgr := (s.leaseMgr.grant now ttlMs).2 }
  | .revoke id => { s with leaseMgr := (s.leaseMgr.revoke id).2.2 }
  | .renew now id => { s with leaseMgr := (s.leaseMgr.renew now id).2 }
  | .checkExpiry now => { s with leaseMgr := (s.leaseMgr.checkExpiry now).2 }

def run (s : AppliedState) (steps : List Step) : AppliedState := steps.foldl after s

def ofServer (server : KVServer) : AppliedState := { kvstore := server.kvstore }

variable (s : AppliedState)

theorem kvstore_processEntry (entry : RaftEntry) :
    (s.processEntry entry).kvstore = EtcdServer.processEntry s.kvstore entry := by
  unfold processEntry EtcdServer.processEntry
  cases entry.type with
  | put => rfl
  | delete => rfl
  | _ => rfl

def Step.entry : Step → Option RaftEntry
  | .processEntry entry => some entry
  | _ => none

theorem kvstore_after (step : Step) :
    (s.after step).kvstore = EtcdServer.processRaftEntries s.kvstore step.entry.toList := by
  cases step with
  | processEntry entry => exact s.kvstore_processEntry entry
  | _ => rfl

theorem currentRevision_after_le (step : Step) :
    s.kvstore.currentRevision ≤ (s.after step).kvstore.currentRevision := by
  rw [kvstore_after, EtcdServer.currentRevision_processRaftEntries]
  exact Int.le_add_of_nonneg_right (Int.natCast_nonneg _)

theorem currentRevision_run_le (steps : List Step) :
    s.kvstore.currentRevision ≤ (s.run steps).kvstore.currentRevision := by
  induction steps generalizing s with
  | nil => exact le_rfl
  | cons step rest ih => exact (s.currentRevision_after_le step).trans (ih (s.after step))

end AppliedState

namespace KVStore

theorem currentRev_rebuild (m : MVCC) (kvs : List (Bytes × Bytes)) :
    m.currentRev ≤ (kvs.foldl rebuildKey m).currentRev := by
  induction kvs generalizing m with
  | nil => exact le_rfl
  | cons e rest ih =>
    have hkey : (rebuildKey m e).currentRev = m.currentRev + 1 :=
      MVCC.currentRev_write m.allocateRevision.2 (.put e.1 m.currentRev e.2 0)
    exact (Int.le_add_one le_rfl).trans (hkey ▸ ih (rebuildKey m e))

theorem currentRevision_deserialize {s : KVStore} {data : Bytes} {r : Bool × KVStore}
    (h : s.deserialize data = some r) : s.currentRevision ≤ r.2.currentRevision := by
  unfold deserialize at h
  cases hcount : readU32 data 0 with
  | none =>
    rw [hcount] at h
    obtain rfl := Option.some.inj h
    exact le_rfl
  | some c =>
    rw [hcount] at h
    obtain ⟨kvs, _, rfl⟩ := Option.map_eq_some_iff.mp h
    exact currentRev_rebuild s.mvcc kvs.entries

end KVStore

/-- A server starts with a positive revision, whatever it finds on disk. -/
theorem KVServer.currentRevision_pos {config : ClusterConfig} {disk : Disk}
    {backendFile : Option Bytes} {server : KVServer}
    (h : start config disk backendFile = some server) : 1 ≤ server.kvstore.currentRevision := by
  obtain ⟨snapshot, data, kvstore, entries, wal, _, _, hkvstore, _, rfl⟩ := start_cases h
  have hrestored : 1 ≤ (kvstore.restoreFromEntries entries).currentRevision := by
    rw [EtcdServer.currentRevision_restoreFromEntries]
    split_ifs at hkvstore
    · obtain rfl := Option.some.inj hkvstore
      exact le_rfl
    · obtain ⟨r, hr, rfl⟩ := Option.map_eq_some_iff.mp hkvstore
      exact KVStore.currentRevision_deserialize hr
  exact hrestored

namespace AppliedState

def Reachable (s : AppliedState) : Prop :=
  ∃ config disk backendFile server steps,
    KVServer.start config disk backendFile = some server ∧ (ofServer server).run steps = s

theorem Reachable.currentRevision_pos {s : AppliedState} (h : Reachable s) :
    1 ≤ s.kvstore.currentRevision := by
  obtain ⟨_, _, _, server, steps, hserver, rfl⟩ := h
  exact (KVServer.currentRevision_pos hserver).trans (currentRevision_run_le _ steps)

end AppliedState
end MyEtcd
