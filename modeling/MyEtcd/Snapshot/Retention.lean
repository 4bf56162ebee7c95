import MyEtcd.Library.Lexicographic
import MyEtcd.Library.Text
import MyEtcd.Snapshot.SnapshotManager

/-! The snapshot directory with the names of its files, for any number of snapshots to keep.
It stands for a map from indices to files, on which the methods act as on the names. -/
namespace MyEtcd
open Library

namespace SnapshotManager

/-- The files of the snapshot directory under their names. -/
abbrev Directory := OrderedMap Bytes Bytes

def nameFront : Bytes := ascii "snapshot_"

def tmpName : Bytes := ascii "snapshot_tmp"

def finalName (index : Nat) : Bytes := nameFront ++ decimal index

/-- `std::stoull`, without a result where it throws. -/
def stoull (text : Bytes) : Option Nat :=
  (parseInt text).bind fun v => if v.natAbs < 2 ^ 64 then some (v % 2 ^ 64).toNat else none

/-- The index in the name of a file; names without one are passed over. -/
def indexOf (name : Bytes) : Option Nat :=
  if nameFront.isPrefixOf name then stoull (name.drop 9) else none

def rename (dir : Directory) (source target : Bytes) : Directory :=
  match dir.get? source with
  | none => dir
  | some content => (dir.erase source).insert target content

/-- `CreateSnapshot` up to the cleanup: the temporary file is written and renamed. -/
def writeSnapshot (dir : Directory) (snapshot : Snapshot) : Directory :=
  rename (dir.insert tmpName (snapshotFile snapshot)) tmpName (finalName snapshot.lastIndex)

/-- The order of the pairs of index and path. -/
def earlier (a b : Nat × Bytes) : Bool := a.1 < b.1 || a.1 = b.1 && a.2 ≤ b.2

/-- The pairs of index and name that the iteration over the directory collects. -/
def indexed (listing : List Bytes) : List (Nat × Bytes) :=
  listing.filterMap fun name => (indexOf name).map fun index => (index, name)

/-- `CleanupOldSnapshots`, when the iteration over the directory yields `listing`. -/
def cleanup (max : Nat) (listing : List Bytes) (dir : Directory) : Directory :=
  let snapshots := indexed listing
  if snapshots.length ≤ max then dir
  else
    ((snapshots.mergeSort earlier).take (snapshots.length - max)).foldl (fun dir s => dir.erase s.2) dir

/-- The loop over the directory that looks for the largest index. -/
def latestOf (listing : List Bytes) : Nat × Bytes :=
  listing.foldl (fun latest name =>
    match indexOf name with
    | none => latest
    | some index => if index > latest.1 then (index, name) else latest) (0, [])

/-- `LoadLatestSnapshot`, when the iteration over the directory yields `listing`. -/
def loadLatest (listing : List Bytes) (dir : Directory) : Option Snapshot :=
  let latest := latestOf listing
  if latest.2.isEmpty then none else (dir.get? latest.2).bind readSnapshot

/-- The cleanup on the indices, for any number of snapshots to keep. -/
def cleanupKeeping (max : Nat) (files : OrderedMap Nat Bytes) : OrderedMap Nat Bytes :=
  if files.size ≤ max then files else removeOldest files (files.size - max)

theorem cleanupOldSnapshots_eq : cleanupOldSnapshots = cleanupKeeping maxSnapshots := rfl

theorem earlier_iff (a b : Nat × Bytes) :
    earlier a b = true ↔ a.1 < b.1 ∨ a.1 = b.1 ∧ a.2 ≤ b.2 := by
  simp [earlier]

theorem earlier_trans (a b c : Nat × Bytes) (hab : earlier a b = true) (hbc : earlier b c = true) :
    earlier a c = true := by
  rw [earlier_iff] at hab hbc ⊢
  rcases hab with hab | ⟨hab, hle⟩ <;> rcases hbc with hbc | ⟨hbc, hle'⟩
  · exact .inl (hab.trans hbc)
  · exact .inl (hbc ▸ hab)
  · exact .inl (hab ▸ hbc)
  · exact .inr ⟨hab.trans hbc, hle.trans hle'⟩

theorem earlier_total (a b : Nat × Bytes) : (earlier a b || earlier b a) = true := by
  rw [Bool.or_eq_true, earlier_iff, earlier_iff]
  rcases lt_trichotomy a.1 b.1 with h | h | h
  · exact .inl (.inl h)
  · exact (le_total a.2 b.2).imp (fun hle => .inr ⟨h, hle⟩) fun hle => .inr ⟨h.symm, hle⟩
  · exact .inr (.inl h)

/-- The names in the directory are those of the indices. -/
structure Represents (dir : Directory) (files : OrderedMap Nat Bytes) : Prop where
  bound : ∀ index ∈ files.keys, index < 2 ^ 64
  named : ∀ name ∈ dir.keys, ∃ index < 2 ^ 64, name = finalName index
  file : ∀ index < 2 ^ 64, dir.get? (finalName index) = files.get? index

theorem indexOf_finalName {index : Nat} (h : index < 2 ^ 64) :
    indexOf (finalName index) = some index := by
  have hfront : nameFront.isPrefixOf (finalName index) = true :=
    List.isPrefixOf_iff_prefix.mpr (List.prefix_append _ _)
  have hrest : (finalName index).drop 9 = decimal index := List.drop_left' rfl
  have hparse : parseInt (decimal index) = some (index : Int) := by
    have h := @parseInt_decimal index [] nofun
    rwa [List.append_nil] at h
  have hmod : ((index : Int) % 2 ^ 64).toNat = index := by omega
  rw [indexOf, if_pos hfront, hrest, stoull, hparse, Option.bind_some, if_pos (by omega), hmod]

theorem finalName_inj {i j : Nat} (hi : i < 2 ^ 64) (hj : j < 2 ^ 64) :
    finalName i = finalName j ↔ i = j := by
  constructor
  · intro h
    have hindex := congrArg indexOf h
    rw [indexOf_finalName hi, indexOf_finalName hj] at hindex
    exact Option.some.inj hindex
  · exact congrArg finalName

theorem finalName_ne_tmpName {index : Nat} (h : index < 2 ^ 64) : finalName index ≠ tmpName := by
  have htmp : indexOf tmpName = none := by decide
  intro heq
  rw [← heq, indexOf_finalName h] at htmp
  cases htmp

theorem indexed_finalNames {indices : List Nat} (h : ∀ i ∈ indices, i < 2 ^ 64) :
    indexed (indices.map finalName) = indices.map fun index => (index, finalName index) := by
  rw [indexed, List.filterMap_map, ← List.filterMap_eq_map]
  refine List.filterMap_congr fun i hi => ?_
  rw [Function.comp, indexOf_finalName (h i hi)]
  rfl

def latestName (index : Nat) : Bytes := if index = 0 then [] else finalName index

theorem latestOf_finalNames {indices : List Nat} (h : ∀ i ∈ indices, i < 2 ^ 64) :
    latestOf (indices.map finalName) = (indices.foldl max 0, latestName (indices.foldl max 0)) := by
  have hfold (latest : Nat) : (indices.map finalName).foldl (fun latest name =>
      match indexOf name with
      | none => latest
      | some index => if index > latest.1 then (index, name) else latest)
        (latest, latestName latest) =
      (indices.foldl max latest, latestName (indices.foldl max latest)) := by
    induction indices generalizing latest with
    | nil => rfl
    | cons i rest ih =>
      rw [List.map_cons, List.foldl_cons, List.foldl_cons, indexOf_finalName (h i List.mem_cons_self)]
      dsimp only
      have hnext := ih fun j hj => h j (List.mem_cons_of_mem _ hj)
      split_ifs with hgt
      · have hname : finalName i = latestName i := (if_neg (Nat.ne_zero_of_lt hgt)).symm
        rw [hname, hnext, max_eq_right (Nat.le_of_lt hgt)]
      · rw [hnext, max_eq_left (Nat.le_of_not_lt hgt)]
  exact hfold 0

namespace Represents
variable {dir : Directory} {files : OrderedMap Nat Bytes} {listing : List Bytes}

theorem mem_keys (h : Represents dir files) (name : Bytes) :
    name ∈ dir.keys ↔ ∃ index ∈ files.keys, name = finalName index := by
  constructor
  · intro hmem
    obtain ⟨index, hindex, rfl⟩ := h.named name hmem
    rw [OrderedMap.mem_keys_iff, h.file index hindex, ← OrderedMap.mem_keys_iff] at hmem
    exact ⟨index, hmem, rfl⟩
  · rintro ⟨index, hmem, rfl⟩
    rwa [OrderedMap.mem_keys_iff, h.file index (h.bound index hmem), ← OrderedMap.mem_keys_iff]

theorem nothing : Represents ∅ ∅ where
  bound := nofun
  named := nofun
  file _ _ := rfl

/-- The temporary file is gone again when a snapshot has been written. -/
theorem writeSnapshot (h : Represents dir files) {snapshot : Snapshot}
    (hindex : snapshot.lastIndex < 2 ^ 64) :
    Represents (SnapshotManager.writeSnapshot dir snapshot) (createSnapshot files snapshot) := by
  have hwritten (name : Bytes) : (SnapshotManager.writeSnapshot dir snapshot).get? name =
      if name = finalName snapshot.lastIndex then some (snapshotFile snapshot)
      else if name = tmpName then none else dir.get? name := by
    rw [SnapshotManager.writeSnapshot, rename, OrderedMap.get?_insert_self]
    dsimp only
    rw [OrderedMap.get?_insert, OrderedMap.get?_erase, OrderedMap.get?_insert]
    split_ifs <;> rfl
  constructor
  · intro index hmem
    rcases (OrderedMap.mem_keys_insert _ _ _ _).mp hmem with rfl | hmem
    · exact hindex
    · exact h.bound index hmem
  · intro name hmem
    rw [OrderedMap.mem_keys_iff, hwritten] at hmem
    split_ifs at hmem with hname
    · exact ⟨_, hindex, hname⟩
    · cases hmem
    · exact h.named name ((OrderedMap.mem_keys_iff _ _).mpr hmem)
  · intro index hbound
    rw [hwritten, createSnapshot, OrderedMap.get?_insert, if_neg (finalName_ne_tmpName hbound),
      h.file index hbound]
    exact if_congr (finalName_inj hbound hindex) rfl rfl

theorem eraseAll (h : Represents dir files) {indices : List Nat}
    (hindices : ∀ i ∈ indices, i ∈ files.keys) :
    Represents ((indices.map finalName).foldl OrderedMap.erase dir)
      (indices.foldl OrderedMap.erase files) := by
  constructor
  · intro index hmem
    rw [OrderedMap.mem_keys_iff, OrderedMap.get?_foldl_erase] at hmem
    split_ifs at hmem
    · cases hmem
    · exact h.bound index ((OrderedMap.mem_keys_iff _ _).mpr hmem)
  · intro name hmem
    rw [OrderedMap.mem_keys_iff, OrderedMap.get?_foldl_erase] at hmem
    split_ifs at hmem
    · cases hmem
    · exact h.named name ((OrderedMap.mem_keys_iff _ _).mpr hmem)
  · intro index hbound
    have hmem : finalName index ∈ indices.map finalName ↔ index ∈ indices := by
      rw [List.mem_map]
      constructor
      · rintro ⟨i, hi, heq⟩
        rwa [← (finalName_inj (h.bound i (hindices i hi)) hbound).mp heq]
      · exact fun hi => ⟨index, hi, rfl⟩
    rw [OrderedMap.get?_foldl_erase, OrderedMap.get?_foldl_erase, h.file index hbound]
    by_cases hi : index ∈ indices
    · rw [if_pos (hmem.mpr hi), if_pos hi]
    · rw [if_neg (mt hmem.mp hi), if_neg hi]

/-- Whatever the order of the iteration, it goes through the names of the indices. -/
theorem exists_indices (h : Represents dir files) (hlisting : listing.Perm dir.keys) :
    ∃ indices : List Nat, indices.Perm files.keys ∧ (∀ i ∈ indices, i < 2 ^ 64) ∧
      listing = indices.map finalName := by
  have hkeys : dir.keys.Perm (files.keys.map finalName) := by
    refine (List.perm_ext_iff_of_nodup dir.keys_nodup ?_).mpr fun name => ?_
    · refine files.keys_nodup.map_on fun i hi j hj hij => ?_
      exact (finalName_inj (h.bound i hi) (h.bound j hj)).mp hij
    · rw [h.mem_keys, List.mem_map]
      constructor
      · rintro ⟨index, hindex, rfl⟩
        exact ⟨index, hindex, rfl⟩
      · rintro ⟨index, hindex, rfl⟩
        exact ⟨index, hindex, rfl⟩
  have hback : (files.keys.map finalName).filterMap indexOf = files.keys := by
    rw [List.filterMap_map]
    refine (List.filterMap_congr fun i hi => ?_).trans List.filterMap_some
    exact indexOf_finalName (h.bound i hi)
  have hperm : (listing.filterMap indexOf).Perm files.keys := by
    rw [← hback]
    exact (hlisting.trans hkeys).filterMap indexOf
  refine ⟨listing.filterMap indexOf, hperm, fun i hi => h.bound i (hperm.mem_iff.mp hi), ?_⟩
  rw [List.map_filterMap]
  refine (List.filterMap_some.symm.trans (List.filterMap_congr fun name hname => ?_))
  obtain ⟨index, hindex, rfl⟩ := (h.mem_keys name).mp (hlisting.mem_iff.mp hname)
  rw [indexOf_finalName (h.bound index hindex)]
  rfl

theorem mergeSort_indexed (h : Represents dir files) (hlisting : listing.Perm dir.keys) :
    (indexed listing).mergeSort earlier =
      files.keys.map fun index => (index, finalName index) := by
  have hsorted : files.keys.Pairwise (· < ·) := List.pairwise_map.mpr files.sorted
  have hindices : (files.keys.map fun index => (index, finalName index)).Pairwise
      fun a b => earlier a b = true :=
    List.pairwise_map.mpr (hsorted.imp fun hij => (earlier_iff _ _).mpr (.inl hij))
  refine List.Perm.eq_of_pairwise ?_ (List.pairwise_mergeSort earlier_trans earlier_total _)
    hindices ((List.mergeSort_perm _ _).trans ?_)
  · intro a b _ _ hab hba
    rw [earlier_iff] at hab hba
    rcases hab with hlt | ⟨heq, hle⟩ <;> rcases hba with hlt' | ⟨_, hle'⟩
    · omega
    · omega
    · omega
    · exact Prod.ext heq (le_antisymm hle hle')
  · obtain ⟨indices, hperm, hbound, rfl⟩ := h.exists_indices hlisting
    rw [indexed_finalNames hbound]
    exact hperm.map _

/-- The cleanup removes the files with the smallest indices. -/
theorem cleanup (h : Represents dir files) (hlisting : listing.Perm dir.keys) (max : Nat) :
    Represents (SnapshotManager.cleanup max listing dir) (cleanupKeeping max files) := by
  have hlength : (indexed listing).length = files.size := by
    have hsort : ((indexed listing).mergeSort earlier).length = (indexed listing).length :=
      List.length_mergeSort _
    rw [← hsort, h.mergeSort_indexed hlisting, List.length_map, OrderedMap.length_keys]
  rw [SnapshotManager.cleanup, cleanupKeeping, hlength, h.mergeSort_indexed hlisting]
  split_ifs
  · exact h
  · have hnames : ((files.keys.map fun index => (index, finalName index)).take
        (files.size - max)).foldl (fun dir s => dir.erase s.2) dir =
        ((files.keys.take (files.size - max)).map finalName).foldl OrderedMap.erase dir := by
      rw [← List.map_take, List.foldl_map, List.foldl_map]
    rw [hnames, removeOldest]
    exact h.eraseAll fun i hi => List.mem_of_mem_take hi

/-- The loader finds what the largest index stands for. -/
theorem load (h : Represents dir files) (hlisting : listing.Perm dir.keys) :
    loadLatest listing dir = loadLatestSnapshot files := by
  obtain ⟨indices, hperm, hbound, rfl⟩ := h.exists_indices hlisting
  have hmax : indices.foldl max 0 = files.keys.foldl max 0 := by
    refine le_antisymm ?_ ?_ <;> rw [OrderedMap.foldl_max_le_iff]
    · exact ⟨Nat.zero_le _, fun i hi =>
        (OrderedMap.foldl_max_le_iff.mp le_rfl).2 i (hperm.mem_iff.mp hi)⟩
    · exact ⟨Nat.zero_le _, fun i hi =>
        (OrderedMap.foldl_max_le_iff.mp le_rfl).2 i (hperm.mem_iff.mpr hi)⟩
  have hfront (i : Nat) : (finalName i).isEmpty = false := rfl
  rw [loadLatest, latestOf_finalNames hbound, hmax, loadLatestSnapshot]
  by_cases hzero : files.keys.foldl max 0 = 0
  · rw [hzero]
    rfl
  · have hmem : files.keys.foldl max 0 < 2 ^ 64 := by
      have hle : files.keys.foldl max 0 ≤ 2 ^ 64 - 1 := OrderedMap.foldl_max_le_iff.mpr
        ⟨Nat.zero_le _, fun i hi => Nat.le_pred_of_lt (h.bound i hi)⟩
      omega
    rw [latestName, if_neg hzero, hfront, if_neg Bool.false_ne_true, if_neg hzero,
      h.file _ hmem]

end Represents

/-- Only the files with the greatest of the indices are left. -/
structure Retained (max : Nat) (indices : List Nat) (files : OrderedMap Nat Bytes) : Prop where
  created : ∀ k ∈ files.keys, k ∈ indices
  few : files.size ≤ max
  greatest : ∀ i ∈ indices, i ∉ files.keys → files.size = max ∧ ∀ k ∈ files.keys, i < k

theorem keys_removeOldest (files : OrderedMap Nat Bytes) (n : Nat) :
    (removeOldest files n).keys = files.keys.drop n := by
  have hsorted (m : OrderedMap Nat Bytes) : m.keys.Pairwise (· < ·) := List.pairwise_map.mpr m.sorted
  have hsplit : ∀ i ∈ files.keys.drop n, i ∉ files.keys.take n := by
    have hnodup := files.keys_nodup
    rw [← List.take_append_drop n files.keys, List.nodup_append'] at hnodup
    exact fun i hi hi' => hnodup.2.2 hi' hi
  refine (hsorted _).eq_of_mem_iff (hsorted files).drop fun i => ?_
  have hmem : i ∈ files.keys ↔ i ∈ files.keys.take n ∨ i ∈ files.keys.drop n := by
    rw [← List.mem_append, List.take_append_drop]
  rw [OrderedMap.mem_keys_iff, removeOldest, OrderedMap.get?_foldl_erase]
  split_ifs with htake
  · constructor
    · exact nofun
    · exact fun hdrop => absurd htake (hsplit i hdrop)
  · rw [← OrderedMap.mem_keys_iff, hmem]
    exact or_iff_right htake

namespace Retained
variable {max : Nat} {indices : List Nat} {files : OrderedMap Nat Bytes}

theorem nothing (max : Nat) : Retained max [] ∅ where
  created := nofun
  few := Nat.zero_le _
  greatest := nofun

theorem mem_keys_createSnapshot (files : OrderedMap Nat Bytes) (snapshot : Snapshot) (j : Nat) :
    j ∈ (SnapshotManager.createSnapshot files snapshot).keys ↔
      j = snapshot.lastIndex ∨ j ∈ files.keys :=
  OrderedMap.mem_keys_insert _ _ _ _

theorem size_createSnapshot (files : OrderedMap Nat Bytes) (snapshot : Snapshot) :
    (SnapshotManager.createSnapshot files snapshot).size =
      if snapshot.lastIndex ∈ files.keys then files.size else files.size + 1 := by
  rw [SnapshotManager.createSnapshot, OrderedMap.size_insert]
  simp only [OrderedMap.mem_keys_iff]

theorem mem_createSnapshot (h : Retained max indices files) {snapshot : Snapshot} {j : Nat}
    (hj : j ∈ (SnapshotManager.createSnapshot files snapshot).keys) :
    j ∈ indices ++ [snapshot.lastIndex] := by
  rcases (mem_keys_createSnapshot files snapshot j).mp hj with rfl | hj
  · exact List.mem_append_right _ (List.mem_singleton_self _)
  · exact List.mem_append_left _ (h.created j hj)

theorem gone_before {snapshot : Snapshot} {j : Nat} (hj : j ∈ indices ++ [snapshot.lastIndex])
    (hgone : j ∉ (SnapshotManager.createSnapshot files snapshot).keys) :
    j ∈ indices ∧ j ∉ files.keys := by
  rw [mem_keys_createSnapshot, not_or] at hgone
  rcases List.mem_append.mp hj with hj | hj
  · exact ⟨hj, hgone.2⟩
  · exact absurd (List.mem_singleton.mp hj) hgone.1

/-- In a full directory the new file takes the place of the oldest. -/
theorem replace_oldest (h : Retained max indices files) {snapshot : Snapshot}
    (hnew : snapshot.lastIndex ∉ files.keys) (hfull : files.size = max) :
    Retained max (indices ++ [snapshot.lastIndex])
      (removeOldest (SnapshotManager.createSnapshot files snapshot) 1) := by
  have hmem := mem_keys_createSnapshot files snapshot
  have hkeys := keys_removeOldest (SnapshotManager.createSnapshot files snapshot) 1
  have hlength : (removeOldest (SnapshotManager.createSnapshot files snapshot) 1).size = max := by
    rw [← OrderedMap.length_keys, hkeys, List.length_drop, OrderedMap.length_keys,
      size_createSnapshot, if_neg hnew, hfull, Nat.add_sub_cancel]
  have hsorted : (SnapshotManager.createSnapshot files snapshot).keys.Pairwise (· < ·) :=
    List.pairwise_map.mpr (SnapshotManager.createSnapshot files snapshot).sorted
  cases hall : (SnapshotManager.createSnapshot files snapshot).keys with
  | nil =>
    have hpos := (hmem snapshot.lastIndex).mpr (.inl rfl)
    rw [hall] at hpos
    cases hpos
  | cons oldest others =>
    rw [hall, List.drop_one, List.tail_cons] at hkeys
    rw [hall] at hsorted
    have holdest : ∀ k ∈ others, oldest < k := (List.pairwise_cons.mp hsorted).1
    refine ⟨fun j hj => h.mem_createSnapshot ?_, hlength.le, fun j hj hgone =>
      ⟨hlength, fun k hk => ?_⟩⟩
    · rw [hkeys] at hj
      rw [hall]
      exact List.mem_cons_of_mem _ hj
    rw [hkeys] at hgone hk
    by_cases hthere : j ∈ (SnapshotManager.createSnapshot files snapshot).keys
    · rw [hall, List.mem_cons] at hthere
      rcases hthere with rfl | hthere
      · exact holdest k hk
      · exact absurd hthere hgone
    · obtain ⟨hj, hgone⟩ := gone_before hj hthere
      have hlt := (h.greatest j hj hgone).2
      rcases (hmem k).mp (hall ▸ List.mem_cons_of_mem _ hk) with rfl | hk'
      · -- the new index is kept, so the oldest one has been there before
        have hstays : oldest ∈ files.keys := by
          rcases (hmem oldest).mp (hall ▸ List.mem_cons_self) with heq | hstays
          · exact absurd heq (holdest _ hk).ne
          · exact hstays
        exact (hlt oldest hstays).trans (holdest _ hk)
      · exact hlt k hk'

/-- A snapshot with an index that is no longer among the greatest is removed at once. -/
theorem createSnapshot (h : Retained max indices files) (snapshot : Snapshot) :
    Retained max (indices ++ [snapshot.lastIndex])
      (cleanupKeeping max (SnapshotManager.createSnapshot files snapshot)) := by
  have hsize := size_createSnapshot files snapshot
  have hlimit := h.few
  rw [cleanupKeeping]
  split_ifs with hfew
  · refine ⟨fun j hj => h.mem_createSnapshot hj, hfew, fun j hj hgone => ?_⟩
    obtain ⟨hj, hgone⟩ := gone_before hj hgone
    obtain ⟨hfull, hlt⟩ := h.greatest j hj hgone
    -- a full directory has had the index already
    have hold : snapshot.lastIndex ∈ files.keys := by
      by_contra hnew
      rw [hsize, if_neg hnew] at hfew
      omega
    rw [hsize, if_pos hold]
    refine ⟨hfull, fun k hk => hlt k ?_⟩
    rcases (mem_keys_createSnapshot files snapshot k).mp hk with rfl | hk
    · exact hold
    · exact hk
  · have hnew : snapshot.lastIndex ∉ files.keys := by
      intro hold
      rw [hsize, if_pos hold] at hfew
      exact hfew hlimit
    rw [if_neg hnew] at hsize
    have hone : (SnapshotManager.createSnapshot files snapshot).size - max = 1 := by omega
    rw [hone]
    exact h.replace_oldest hnew (by omega)

end Retained

/-- The newest of the snapshots; a later one hides an earlier one of the same index. -/
def newestOf (snapshots : List Snapshot) : Snapshot :=
  snapshots.foldl (fun newest s => if newest.lastIndex ≤ s.lastIndex then s else newest) {}

/-- The directory after calls of `CreateSnapshot`, in whatever order the iterations go through it. -/
inductive Created (max : Nat) : List Snapshot → Directory → Prop where
  | start : Created max [] ∅
  | create {snapshots : List Snapshot} {dir : Directory} (before : Created max snapshots dir)
      (snapshot : Snapshot) {listing : List Bytes}
      (listed : listing.Perm (writeSnapshot dir snapshot).keys) :
      Created max (snapshots ++ [snapshot]) (cleanup max listing (writeSnapshot dir snapshot))

/-- What a directory is known to hold after the calls. -/
theorem Created.represents {max : Nat} (hmax : 1 ≤ max) {snapshots : List Snapshot} {dir : Directory}
    (h : Created max snapshots dir)
    (hvalid : ∀ s ∈ snapshots, Fits s ∧ 0 < s.lastIndex) :
    ∃ files, Represents dir files ∧ Newest files (newestOf snapshots) ∧
      Retained max (snapshots.map Snapshot.lastIndex) files := by
  induction h with
  | start => exact ⟨∅, .nothing, .nothing, .nothing max⟩
  | create before snapshot listed ih =>
    obtain ⟨files, hrepresents, hnewest, hretained⟩ :=
      ih fun s hs => hvalid s (List.mem_append_left _ hs)
    obtain ⟨hfits, hpos⟩ := hvalid snapshot (List.mem_append_right _ (List.mem_singleton_self _))
    refine ⟨_, (hrepresents.writeSnapshot hfits.lastIndex).cleanup listed max, ?_, ?_⟩
    · have hnext := hnewest.createSnapshot hfits hpos
      rw [newestOf, List.foldl_append]
      unfold cleanupKeeping
      split_ifs
      · exact hnext
      · exact hnext.removeOldest (by omega)
    · rw [List.map_append]
      exact hretained.createSnapshot snapshot

theorem newestOf_append {before later : List Snapshot} {s : Snapshot}
    (hbefore : ∀ t ∈ before, t.lastIndex ≤ s.lastIndex)
    (hlater : ∀ t ∈ later, t.lastIndex < s.lastIndex) : newestOf (before ++ s :: later) = s := by
  have hle : (newestOf before).lastIndex ≤ s.lastIndex := by
    refine List.foldlRecOn (motive := fun newest : Snapshot => newest.lastIndex ≤ s.lastIndex) before _
      (Nat.zero_le _) fun newest hnewest t ht => ?_
    split_ifs
    · exact hbefore t ht
    · exact hnewest
  have hstays : later.foldl (fun newest t =>
      if newest.lastIndex ≤ t.lastIndex then t else newest) s = s := by
    induction later with
    | nil => rfl
    | cons t rest ih =>
      rw [List.foldl_cons, if_neg (Nat.not_le_of_lt (hlater t List.mem_cons_self))]
      exact ih fun u hu => hlater u (List.mem_cons_of_mem _ hu)
  rw [newestOf] at hle ⊢
  rw [List.foldl_append, List.foldl_cons, if_pos hle, hstays]

/-- The last snapshot of the greatest index is loaded, whatever has been cleaned up; what is left are
at most `max` files, and those of the greatest indices. -/
theorem newest_survives_cleanup {max : Nat} (hmax : 1 ≤ max) {snapshots : List Snapshot}
    {dir : Directory} (h : Created max snapshots dir)
    (hvalid : ∀ s ∈ snapshots, Fits s ∧ 0 < s.lastIndex) {listing : List Bytes}
    (hlisting : listing.Perm dir.keys) :
    (∀ before s later, snapshots = before ++ s :: later →
      (∀ t ∈ before, t.lastIndex ≤ s.lastIndex) → (∀ t ∈ later, t.lastIndex < s.lastIndex) →
        loadLatest listing dir = some s) ∧
    listing.length ≤ max ∧
    (∀ name ∈ listing, ∃ s ∈ snapshots, name = finalName s.lastIndex) ∧
    ∀ s ∈ snapshots, finalName s.lastIndex ∉ listing → listing.length = max ∧
      ∀ t ∈ snapshots, finalName t.lastIndex ∈ listing → s.lastIndex < t.lastIndex := by
  obtain ⟨files, hrepresents, hnewest, hretained⟩ := h.represents hmax hvalid
  have hlength : listing.length = files.size := by
    obtain ⟨indices, hperm, -, rfl⟩ := hrepresents.exists_indices hlisting
    rw [List.length_map, hperm.length_eq, OrderedMap.length_keys]
  have hlisted {i : Nat} (hi : i < 2 ^ 64) : finalName i ∈ listing ↔ i ∈ files.keys := by
    rw [hlisting.mem_iff, OrderedMap.mem_keys_iff, hrepresents.file i hi, ← OrderedMap.mem_keys_iff]
  refine ⟨?_, hlength ▸ hretained.few, ?_, ?_⟩
  · intro before s later hsplit hbefore hlater
    obtain ⟨-, hpos⟩ := hvalid s (by rw [hsplit]; simp)
    rw [hsplit, newestOf_append hbefore hlater] at hnewest
    rw [hrepresents.load hlisting, hnewest.load, if_neg hpos.ne']
  · intro name hname
    obtain ⟨index, hindex, rfl⟩ := (hrepresents.mem_keys name).mp (hlisting.mem_iff.mp hname)
    obtain ⟨s, hs, rfl⟩ := List.mem_map.mp (hretained.created index hindex)
    exact ⟨s, hs, rfl⟩
  · intro s hs hgone
    rw [hlisted (hvalid s hs).1.lastIndex] at hgone
    obtain ⟨hfull, hlt⟩ := hretained.greatest _ (List.mem_map_of_mem hs) hgone
    refine ⟨hlength.trans hfull, fun t ht hthere => hlt _ ?_⟩
    rwa [hlisted (hvalid t ht).1.lastIndex] at hthere

/-- With room for one file, a snapshot older than the one there is removed at once. -/
theorem newest_survives_cleanup_older :
    let newer : Snapshot := { lastIndex := 7, lastTerm := 2, data := [1] }
    let older : Snapshot := { lastIndex := 3, lastTerm := 1, data := [] }
    let first := writeSnapshot ∅ newer
    let second := writeSnapshot (cleanup 1 first.keys first) older
    let dir := cleanup 1 second.keys second
    loadLatest dir.keys dir = some newer ∧ dir.keys.length ≤ 1 := by
  intro newer older first second dir
  have hcreated : Created 1 [newer, older] dir :=
    (Created.start.create newer (List.Perm.refl _)).create older (List.Perm.refl _)
  have hvalid : ∀ s ∈ [newer, older], Fits s ∧ 0 < s.lastIndex := by
    intro s hs
    rcases List.mem_pair.mp hs with rfl | rfl
    · exact ⟨⟨by decide, by decide, by decide⟩, by decide⟩
    · exact ⟨⟨by decide, by decide, by decide⟩, by decide⟩
  obtain ⟨hload, hfew, -⟩ :=
    newest_survives_cleanup (Nat.le_refl 1) hcreated hvalid (List.Perm.refl dir.keys)
  exact ⟨hload [] newer [older] rfl nofun (by simp [newer, older]), hfew⟩

end SnapshotManager
end MyEtcd
