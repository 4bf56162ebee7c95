import MyEtcd.Server.DiskCoverage
import MyEtcd.Storage.BackendFile
import MyEtcd.Storage.Restoring

/-! What a start makes of the snapshot, the log and the file of the backend.
The versions follow snapshot and log. The file is read last, over the values, and a newest read
takes its value from there. -/
namespace MyEtcd
open Library

namespace Shows
variable {contents : OrderedMap Bytes Bytes}

theorem restoreFromEntries {kvstore : KVStore} (h : Shows kvstore.mvcc contents)
    (entries : List RaftEntry) :
    Shows (kvstore.restoreFromEntries entries).mvcc (applyAll contents entries) := by
  induction entries generalizing kvstore contents with
  | nil => exact h
  | cons e rest ih =>
    have hentry : Shows (kvstore.restoreEntry e).mvcc (e.applyTo contents) := by
      unfold KVStore.restoreEntry RaftEntry.applyTo
      cases e.type with
      | put => exact h.put _ _ _ _
      | delete => exact h.delete _ _
      | _ => exact h
    exact ih hentry

end Shows

namespace KVServer
variable {config : ClusterConfig} {disk : Disk} {backendFile : Option Bytes} {s : KVServer}

/-- Before the backend's file is read, the versions show what the backend holds. -/
theorem shows_start (h : start config disk none = some s) :
    Shows s.kvstore.mvcc s.kvstore.backend.store := by
  obtain ⟨snapshot, data, kvstore, entries, wal, _, _, hkvstore, _, rfl⟩ := start_cases h
  have hloaded : Shows kvstore.mvcc kvstore.backend.store := by
    split_ifs at hkvstore
    · obtain rfl := Option.some.inj hkvstore
      exact fun key => rfl
    · obtain ⟨r, hr, rfl⟩ := Option.map_eq_some_iff.mp hkvstore
      exact shows_deserialize hr
  have hrestored := hloaded.restoreFromEntries entries
  rwa [← store_restoreFromEntries] at hrestored

/-- After a start the keys are those of snapshot and log, and a newest read finds the value of the
backend's file wherever the file has one. -/
theorem start_shows (h : start config disk backendFile = some s) :
    s.kvstore.keys = (applyAll disk.stored s.applied).keys ∧
    ∀ key, (s.kvstore.get key 0).map KeyValue.value =
      ((applyAll disk.stored s.applied).get? key).map fun v =>
        ((Backend.loadFromDisk {} backendFile).get key).getD v := by
  rw [start_backendFile] at h
  obtain ⟨s₀, hs₀, rfl⟩ := Option.map_eq_some_iff.mp h
  have hshows := shows_start hs₀
  have hstore := store_start hs₀
  rw [hstore] at hshows
  obtain ⟨hkeys, hget⟩ := KVStore.reads_of_shows
    (s := { s₀.kvstore with backend := s₀.kvstore.backend.loadFromDisk backendFile }) hshows
  refine ⟨hkeys, fun key => (hget key).trans (Option.map_congr fun v hv => ?_)⟩
  have hvalue : s₀.kvstore.backend.get key = some v := by
    rw [Backend.get, hstore]
    exact hv
  rw [Backend.get_loadFromDisk, hvalue]
  cases (Backend.loadFromDisk {} backendFile).get key <;> rfl

/-- Snapshot and log are served exactly when the backend's file has no other value for a key that
they have. -/
theorem recovered_iff (h : start config disk backendFile = some s) :
    (s.kvstore.keys = (applyAll disk.stored s.applied).keys ∧
      ∀ key, (s.kvstore.get key 0).map KeyValue.value =
        (applyAll disk.stored s.applied).get? key) ↔
    ∀ key value, (applyAll disk.stored s.applied).get? key = some value →
      ∀ old, (Backend.loadFromDisk {} backendFile).get key = some old → old = value := by
  obtain ⟨hkeys, hget⟩ := start_shows h
  rw [and_iff_right hkeys]
  refine forall_congr' fun key => ?_
  rw [hget]
  cases (applyAll disk.stored s.applied).get? key with
  | none => simp
  | some value =>
    cases (Backend.loadFromDisk {} backendFile).get key with
    | none => simp
    | some old => simp

/-- A directory whose newest snapshot holds one pair. -/
def snapshotOf (key value : Bytes) : Disk where
  snapshots := SnapshotManager.createSnapshot ∅
    { lastIndex := 2
      lastTerm := 1
      data := ({ backend := Backend.put {} key value } : KVStore).serialize }

def flushed (key value : Bytes) : Bytes := (Backend.put {} key value).flushToDisk

private theorem get_flushed :
    (Backend.loadFromDisk {} (some (flushed [107] [97]))).get [107] = some [97] := by
  rw [flushed, Backend.loadFromDisk_flushToDisk (fun e he => ?_)]
  · rfl
  · obtain rfl : e = ([107], [97]) := List.mem_singleton.mp he
    exact ⟨by decide, by decide⟩

private theorem start_snapshotOf (file : Option Bytes) :
    ∃ s, start {} (snapshotOf [107] [98]) file = some s ∧ s.applied = [] := by
  have hloaded : ((KVStore.deserialize {} (({ backend := Backend.put {} [107] [98] } :
      KVStore).serialize)).map Prod.snd).isSome := by decide
  obtain ⟨kvstore, hkvstore⟩ := Option.isSome_iff_exists.mp hloaded
  have hdata : ((SnapshotManager.loadLatestSnapshot (snapshotOf [107] [98]).snapshots).map
      Snapshot.data).getD [] = ({ backend := Backend.put {} [107] [98] } : KVStore).serialize := by
    decide
  have hne : ({ backend := Backend.put {} [107] [98] } : KVStore).serialize ≠ [] := by decide
  have hread : (WAL.openDir (snapshotOf [107] [98])).readAllEntries =
      some ([], WAL.openDir (snapshotOf [107] [98])) := WAL.readAllEntries_openDir_empty rfl
  simp only [start, hdata, if_neg hne, hkvstore, hread]
  exact ⟨_, rfl, rfl⟩

private theorem stored_snapshotOf : (snapshotOf [107] [98]).stored.get? [107] = some [98] := by
  decide

/-- The key has had a second value when the snapshot was taken; the file still has the first. -/
theorem recovered_overridden : ∃ s,
    start {} (snapshotOf [107] [98]) (some (flushed [107] [97])) = some s ∧
    (applyAll (snapshotOf [107] [98]).stored s.applied).get? [107] = some [98] ∧
    (s.kvstore.get [107] 0).map KeyValue.value = some [97] := by
  obtain ⟨s, hs, hnone⟩ := start_snapshotOf (some (flushed [107] [97]))
  have hcontents : (applyAll (snapshotOf [107] [98]).stored s.applied).get? [107] = some [98] := by
    rw [hnone]
    exact stored_snapshotOf
  refine ⟨s, hs, hcontents, ?_⟩
  rw [(start_shows hs).2, hcontents, get_flushed]
  rfl

/-- A file that agrees with the snapshot and has another key besides. -/
def agreeing : Backend := Backend.put (Backend.put {} [106] [97]) [107] [98]

/-- The snapshot is served, and the other key is not there. -/
theorem recovered_iff_agreeing : ∃ s,
    start {} (snapshotOf [107] [98]) (some agreeing.flushToDisk) = some s ∧
    s.kvstore.keys = [[107]] ∧ (s.kvstore.get [107] 0).map KeyValue.value = some [98] := by
  obtain ⟨s, hs, hnone⟩ := start_snapshotOf (some agreeing.flushToDisk)
  have hstored : (applyAll (snapshotOf [107] [98]).stored s.applied).entries = [([107], [98])] := by
    rw [hnone]
    decide
  have hloaded : Backend.loadFromDisk {} (some agreeing.flushToDisk) = agreeing := by
    refine Backend.loadFromDisk_flushToDisk fun e he => ?_
    rcases List.mem_cons.mp he with rfl | he
    · exact ⟨by decide, by decide⟩
    · obtain rfl := List.mem_singleton.mp he
      exact ⟨by decide, by decide⟩
  have hserved := (recovered_iff hs).mpr fun key value hvalue old hold => by
    rw [hloaded] at hold
    have hmem := (OrderedMap.mem_entries_iff _ key value).mpr hvalue
    rw [hstored, List.mem_singleton] at hmem
    obtain ⟨rfl, rfl⟩ := Prod.mk.inj hmem
    exact (Option.some.inj hold).symm
  refine ⟨s, hs, hserved.1.trans ?_, (hserved.2 [107]).trans ?_⟩
  · rw [OrderedMap.keys, hstored]
    rfl
  · rw [hnone]
    exact stored_snapshotOf

end KVServer
end MyEtcd
