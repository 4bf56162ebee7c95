import MyEtcd.Wal.Wal

/-! The snapshot directory: one file a snapshot, under the index in its name.
Files with other names are passed over, so a file that is still being written is not seen. -/
namespace MyEtcd
open Library

namespace SnapshotManager

/-- `max_snapshots` of the configuration, which nothing sets. -/
def maxSnapshots : Nat := 5

/-- The default of `ShouldSnapshot`, which every caller takes. -/
def threshold : Nat := 10000

/-- The test of `CreateSnapshot` against `UINT32_MAX`. -/
def fitsFile (data : Bytes) : Bool := data.length < 2 ^ 32

def snapshotFile (snapshot : Snapshot) : Bytes :=
  WAL.writeU64 snapshot.lastIndex ++ (WAL.writeU64 snapshot.lastTerm ++
    (WAL.writeU32 snapshot.data.length ++ snapshot.data))

/-- `CreateSnapshot` of data that fits, up to the renaming; the old files are dropped after it. -/
def createSnapshot (files : OrderedMap Nat Bytes) (snapshot : Snapshot) : OrderedMap Nat Bytes :=
  files.insert snapshot.lastIndex (snapshotFile snapshot)

/-- The files without the `n` smallest indices. -/
def removeOldest (files : OrderedMap Nat Bytes) (n : Nat) : OrderedMap Nat Bytes :=
  (files.keys.take n).foldl OrderedMap.erase files

def cleanupOldSnapshots (files : OrderedMap Nat Bytes) : OrderedMap Nat Bytes :=
  if files.size ≤ maxSnapshots then files else removeOldest files (files.size - maxSnapshots)

/-- The files when only `n` of the old ones have been removed. -/
def cleanupPartly (files : OrderedMap Nat Bytes) (n : Nat) : OrderedMap Nat Bytes :=
  removeOldest files (min n (files.size - maxSnapshots))

def readSnapshot (data : Bytes) : Option Snapshot := do
  let (lastIndex, offset) ← WAL.readU64 data 0
  let (lastTerm, offset) ← WAL.readU64 data offset
  let (size, offset) ← WAL.readU32 data offset
  let content ← bytesAt data offset size
  some { lastIndex, lastTerm, data := content }

/-- The snapshot with the largest positive index. -/
def loadLatestSnapshot (files : OrderedMap Nat Bytes) : Option Snapshot :=
  let latest := files.keys.foldl max 0
  if latest = 0 then none else (files.get? latest).bind readSnapshot

def shouldSnapshot (lastApplied snapshotIndex : Nat) : Bool :=
  if lastApplied ≤ snapshotIndex then false else lastApplied - snapshotIndex ≥ threshold

/-- The values of the file's fixed-width fields. -/
structure Fits (snapshot : Snapshot) : Prop where
  lastIndex : snapshot.lastIndex < 2 ^ 64
  lastTerm : snapshot.lastTerm < 2 ^ 64
  data : snapshot.data.length < 2 ^ 32

theorem readSnapshot_snapshotFile {snapshot : Snapshot} (h : Fits snapshot) :
    readSnapshot (snapshotFile snapshot) = some snapshot := by
  have hstands : StandsAt (snapshotFile snapshot) 0 (snapshotFile snapshot) :=
    ⟨[], [], by simp, rfl⟩
  nth_rewrite 2 [snapshotFile] at hstands
  simp only [StandsAt.append, WAL.length_writeU64, WAL.length_writeU32] at hstands
  obtain ⟨hindex, hterm, hsize, hdata⟩ := hstands
  simp [readSnapshot, WAL.readU64_of hindex h.lastIndex, WAL.readU64_of hterm h.lastTerm,
    WAL.readU32_of hsize h.data, hdata.bytesAt]

/-- `newest` is the snapshot with the largest index among the files, the empty one if there is
none. -/
structure Newest (files : OrderedMap Nat Bytes) (newest : Snapshot) : Prop where
  fits : Fits newest
  bound : ∀ k ∈ files.keys, k ≤ newest.lastIndex
  file : 0 < newest.lastIndex → files.get? newest.lastIndex = some (snapshotFile newest)
  empty : newest.lastIndex = 0 → newest = {}

namespace Newest
variable {files : OrderedMap Nat Bytes} {newest : Snapshot}

theorem nothing : Newest ∅ {} where
  fits := ⟨by decide, by decide, by decide⟩
  bound k hk := by cases hk
  file hpos := absurd hpos (Nat.lt_irrefl 0)
  empty _ := rfl

/-- The newest snapshot is the one that is loaded. -/
theorem load (h : Newest files newest) :
    loadLatestSnapshot files = if newest.lastIndex = 0 then none else some newest := by
  have hlatest : files.keys.foldl max 0 = newest.lastIndex := by
    refine le_antisymm (OrderedMap.foldl_max_le_iff.mpr ⟨Nat.zero_le _, h.bound⟩) ?_
    rcases Nat.eq_zero_or_pos newest.lastIndex with hzero | hpos
    · omega
    · have hmem : newest.lastIndex ∈ files.keys := by
        rw [OrderedMap.mem_keys_iff, h.file hpos]
        rfl
      exact (OrderedMap.foldl_max_le_iff.mp le_rfl).2 _ hmem
  unfold loadLatestSnapshot
  dsimp only
  rw [hlatest]
  split_ifs with hzero
  · rfl
  · rw [h.file (Nat.pos_of_ne_zero hzero), Option.bind_some, readSnapshot_snapshotFile h.fits]

/-- A snapshot is the newest one unless another one has a larger index. -/
theorem createSnapshot (h : Newest files newest) {snapshot : Snapshot} (hfits : Fits snapshot)
    (hpos : 0 < snapshot.lastIndex) :
    Newest (SnapshotManager.createSnapshot files snapshot)
      (if newest.lastIndex ≤ snapshot.lastIndex then snapshot else newest) := by
  split_ifs with hle
  · refine ⟨hfits, fun k hk => ?_, fun _ => OrderedMap.get?_insert_self _ _ _,
      fun hzero => absurd hzero hpos.ne'⟩
    rcases (OrderedMap.mem_keys_insert _ _ _ _).mp hk with rfl | hk
    · exact le_rfl
    · exact (h.bound k hk).trans hle
  · have hlt := not_le.mp hle
    refine ⟨h.fits, fun k hk => ?_, fun hn => ?_, h.empty⟩
    · rcases (OrderedMap.mem_keys_insert _ _ _ _).mp hk with rfl | hk
      · exact hlt.le
      · exact h.bound k hk
    · exact (OrderedMap.get?_insert_ne _ _ hlt.ne').trans (h.file hn)

/-- Removing all but some of the files does not touch the newest one. -/
theorem removeOldest (h : Newest files newest) {n : Nat} (hn : n < files.size ∨ n = 0) :
    Newest (SnapshotManager.removeOldest files n) newest := by
  have hget (k : Nat) : (SnapshotManager.removeOldest files n).get? k =
      if k ∈ files.keys.take n then none else files.get? k :=
    OrderedMap.get?_foldl_erase _ _ _
  refine ⟨h.fits, fun k hk => h.bound k ?_, fun hpos => ?_, h.empty⟩
  · rw [OrderedMap.mem_keys_iff, hget] at hk
    split_ifs at hk
    · cases hk
    · exact (OrderedMap.mem_keys_iff _ _).mpr hk
  · rw [hget, if_neg, h.file hpos]
    intro hold
    -- a key that is removed has a larger one behind it
    obtain ⟨i, hi, hkey⟩ := List.mem_take_iff_getElem.mp hold
    have hlast : n < files.keys.length := by
      rw [OrderedMap.length_keys]
      omega
    have hsorted : files.keys.Pairwise (· < ·) := List.pairwise_map.mpr files.sorted
    have hlt := List.pairwise_iff_getElem.mp hsorted i n (by omega) hlast (by omega)
    have := h.bound _ (List.getElem_mem hlast)
    omega

theorem cleanupPartly (h : Newest files newest) (n : Nat) :
    Newest (SnapshotManager.cleanupPartly files n) newest :=
  h.removeOldest (by unfold maxSnapshots; omega)

theorem cleanupOldSnapshots (h : Newest files newest) :
    Newest (SnapshotManager.cleanupOldSnapshots files) newest := by
  unfold SnapshotManager.cleanupOldSnapshots
  split_ifs with hfew
  · exact h
  · exact h.removeOldest (by unfold maxSnapshots at *; omega)

end Newest
end SnapshotManager
end MyEtcd
