import MyEtcd.Snapshot.Retention

/-! Calls of `CreateSnapshot` that stop half way, as when the process is killed.
What a call does to the directory is a list of steps, which may be cut anywhere. -/
namespace MyEtcd
open Library

namespace SnapshotManager

/-- One change of the directory by `CreateSnapshot`. -/
inductive Step where
  | truncate
  | write (byte : UInt8)
  | rename (index : Nat)
  | remove (name : Bytes)

def Step.run (dir : Directory) : Step → Directory
  | .truncate => dir.insert tmpName []
  | .write byte => dir.insert tmpName (dir.getD tmpName [] ++ [byte])
  | .rename index => SnapshotManager.rename dir tmpName (finalName index)
  | .remove name => dir.erase name

/-- The files that `CleanupOldSnapshots` removes, in its order. -/
def outdated (max : Nat) (listing : List Bytes) : List Bytes :=
  (((indexed listing).mergeSort earlier).take ((indexed listing).length - max)).map Prod.snd

def header (snapshot : Snapshot) : Bytes :=
  WAL.writeU64 snapshot.lastIndex ++ WAL.writeU64 snapshot.lastTerm

/-- The changes of a whole call, when the iteration of the cleanup yields `listing`. -/
def steps (max : Nat) (listing : List Bytes) (snapshot : Snapshot) : List Step :=
  .truncate ::
    if fitsFile snapshot.data then
      (snapshotFile snapshot).map .write ++
        .rename snapshot.lastIndex :: (outdated max listing).map .remove
    else (header snapshot).map .write ++ [.remove tmpName]

/-- The renaming is among the first `n` steps. -/
def renamed (snapshot : Snapshot) (n : Nat) : Bool :=
  fitsFile snapshot.data && (snapshotFile snapshot).length + 1 < n

/-- The directory after calls of which each may have stopped after any number of its steps. The
constructor and the ways out of a failed call remove the temporary file; the first list has the
snapshots whose files have been renamed. -/
inductive Interrupted (max : Nat) : List Snapshot → Directory → Prop where
  | start : Interrupted max [] ∅
  | removeTmp {snapshots : List Snapshot} {dir : Directory} (before : Interrupted max snapshots dir) :
      Interrupted max snapshots (dir.erase tmpName)
  | create {snapshots : List Snapshot} {dir : Directory} (before : Interrupted max snapshots dir)
      (snapshot : Snapshot) {listing : List Bytes}
      (listed : listing.Perm (writeSnapshot dir snapshot).keys) (n : Nat) :
      Interrupted max (snapshots ++ if renamed snapshot n then [snapshot] else [])
        (((steps max listing snapshot).take n).foldl Step.run dir)

theorem cleanup_eq_foldl (max : Nat) (listing : List Bytes) (dir : Directory) :
    cleanup max listing dir = (outdated max listing).foldl OrderedMap.erase dir := by
  rw [cleanup, outdated, List.foldl_map]
  split_ifs with hfew
  · rw [Nat.sub_eq_zero_of_le hfew]
    rfl
  · rfl

theorem run_writes (dir : Directory) (written bytes : Bytes) :
    (bytes.map Step.write).foldl Step.run (dir.insert tmpName written) =
      dir.insert tmpName (written ++ bytes) := by
  induction bytes generalizing written with
  | nil => rw [List.append_nil]; rfl
  | cons byte rest ih =>
    have hnext : Step.run (dir.insert tmpName written) (.write byte) =
        dir.insert tmpName (written ++ [byte]) := by
      rw [Step.run, OrderedMap.getD_insert_self, OrderedMap.insert_insert_self]
    rw [List.map_cons, List.foldl_cons, hnext, ih, List.append_assoc]
    rfl

theorem run_removes (dir : Directory) (names : List Bytes) :
    (names.map Step.remove).foldl Step.run dir = names.foldl OrderedMap.erase dir :=
  List.foldl_map

/-- Before the renaming, a call has only touched the temporary file. -/
theorem erase_tmpName_cut (max : Nat) (listing : List Bytes) (dir : Directory) {snapshot : Snapshot}
    {n : Nat} (h : renamed snapshot n = false) :
    (((steps max listing snapshot).take n).foldl Step.run dir).erase tmpName = dir.erase tmpName := by
  have htouched (written : Bytes) :
      (dir.insert tmpName written).erase tmpName = dir.erase tmpName :=
    dir.erase_insert_self tmpName written
  cases n with
  | zero => rfl
  | succ n =>
    rw [steps, List.take_succ_cons, List.foldl_cons, Step.run]
    split_ifs with hfits
    · have hn : n - ((snapshotFile snapshot).map Step.write).length = 0 := by
        rw [renamed, hfits, Bool.true_and, decide_eq_false_iff_not] at h
        rw [List.length_map]
        omega
      rw [List.take_append, hn, List.take_zero, List.append_nil, ← List.map_take, run_writes,
        htouched]
    · rw [List.take_append, List.foldl_append, ← List.map_take, run_writes]
      -- the removal at the end, or nothing
      cases n - ((header snapshot).map Step.write).length with
      | zero => exact htouched _
      | succ m =>
        rw [List.take_succ_cons, List.take_nil, List.foldl_cons, List.foldl_nil, Step.run,
          OrderedMap.erase_erase_self, htouched]

/-- What an earlier call has left of the temporary file is overwritten. -/
theorem writeSnapshot_erase_tmpName (dir : Directory) (snapshot : Snapshot) :
    writeSnapshot (dir.erase tmpName) snapshot = writeSnapshot dir snapshot := by
  rw [writeSnapshot, writeSnapshot, OrderedMap.insert_erase_self]

/-- From the renaming on, some of the outdated files are gone. -/
theorem cut_of_renamed (max : Nat) (listing : List Bytes) (dir : Directory) {snapshot : Snapshot}
    {n : Nat} (h : renamed snapshot n = true) :
    ((steps max listing snapshot).take n).foldl Step.run dir =
      ((outdated max listing).take (n - ((snapshotFile snapshot).length + 2))).foldl
        OrderedMap.erase (writeSnapshot dir snapshot) := by
  rw [renamed, Bool.and_eq_true, decide_eq_true_iff] at h
  obtain ⟨hfits, hn⟩ := h
  obtain ⟨m, rfl⟩ := Nat.exists_eq_add_of_le (Nat.succ_le_of_lt hn)
  have htake : (steps max listing snapshot).take ((snapshotFile snapshot).length + 1 + 1 + m) =
      .truncate :: ((snapshotFile snapshot).map .write ++
        .rename snapshot.lastIndex :: ((outdated max listing).take m).map .remove) := by
    have hlength : (snapshotFile snapshot).length + 1 + 1 + m =
        ((snapshotFile snapshot).map Step.write).length + (m + 1) + 1 := by
      rw [List.length_map]
      omega
    rw [steps, if_pos hfits, hlength, List.take_succ_cons, List.take_length_add_append,
      List.take_succ_cons, ← List.map_take]
  have hwritten : Step.run (dir.insert tmpName (snapshotFile snapshot))
      (.rename snapshot.lastIndex) = writeSnapshot dir snapshot := rfl
  have hm : (snapshotFile snapshot).length + 1 + 1 + m - ((snapshotFile snapshot).length + 2) = m := by
    omega
  rw [htake, hm, List.foldl_cons, Step.run, List.foldl_append, run_writes, List.nil_append,
    List.foldl_cons, hwritten, run_removes]

/-- A call that is not stopped does all that `CreateSnapshot` does. -/
theorem run_steps (max : Nat) (listing : List Bytes) (dir : Directory) {snapshot : Snapshot}
    (hfits : fitsFile snapshot.data = true) :
    (steps max listing snapshot).foldl Step.run dir =
      cleanup max listing (writeSnapshot dir snapshot) := by
  have hwritten : Step.run (dir.insert tmpName (snapshotFile snapshot))
      (.rename snapshot.lastIndex) = writeSnapshot dir snapshot := rfl
  rw [steps, if_pos hfits, List.foldl_cons, Step.run, List.foldl_append, run_writes,
    List.nil_append, List.foldl_cons, hwritten, run_removes, cleanup_eq_foldl]

/-- The loader does not see the temporary file. -/
theorem loadLatest_erase_tmpName (listing : List Bytes) (dir : Directory) :
    loadLatest (listing.filter (· ≠ tmpName)) (dir.erase tmpName) = loadLatest listing dir := by
  have htmp : indexOf tmpName = none := by decide
  have hlatest : latestOf (listing.filter (· ≠ tmpName)) = latestOf listing := by
    rw [latestOf, List.foldl_filter, latestOf]
    congr 1
    funext latest name
    split_ifs with hname
    · rfl
    · rw [decide_eq_true_iff, not_not] at hname
      rw [hname, htmp]
  have hseen : (latestOf listing).2 ≠ tmpName := by
    refine List.foldlRecOn (motive := fun latest : Nat × Bytes => latest.2 ≠ tmpName) listing _
      (by decide) fun latest hlatest name _ => ?_
    cases hindex : indexOf name with
    | none => exact hlatest
    | some index =>
      dsimp only
      split_ifs
      · rintro rfl
        rw [htmp] at hindex
        cases hindex
      · exact hlatest
  rw [loadLatest, loadLatest, hlatest, OrderedMap.get?_erase_ne _ hseen]

theorem perm_erase_tmpName {listing : List Bytes} {dir : Directory} (h : listing.Perm dir.keys) :
    (listing.filter (· ≠ tmpName)).Perm (dir.erase tmpName).keys := by
  refine (List.perm_ext_iff_of_nodup ((h.nodup_iff.mpr dir.keys_nodup).filter _)
    (OrderedMap.keys_nodup _)).mpr fun name => ?_
  rw [List.mem_filter, OrderedMap.mem_keys_erase, h.mem_iff, decide_eq_true_iff]
  exact and_comm

theorem Represents.erase_tmpName {dir : Directory} {files : OrderedMap Nat Bytes}
    (h : Represents dir files) : dir.erase tmpName = dir := by
  refine OrderedMap.erase_of_not_mem fun hmem => ?_
  obtain ⟨index, hindex, hname⟩ := h.named tmpName hmem
  exact finalName_ne_tmpName hindex hname.symm

/-- The names of the smallest indices are the ones to be removed. -/
theorem Represents.outdated {dir : Directory} {files : OrderedMap Nat Bytes} {listing : List Bytes}
    (h : Represents dir files) (hlisting : listing.Perm dir.keys) (max : Nat) :
    SnapshotManager.outdated max listing =
      (files.keys.take (files.size - max)).map finalName := by
  have hlength : (indexed listing).length = files.size := by
    have hsort : ((indexed listing).mergeSort earlier).length = (indexed listing).length :=
      List.length_mergeSort _
    rw [← hsort, h.mergeSort_indexed hlisting, List.length_map,
      OrderedMap.length_keys]
  rw [SnapshotManager.outdated, hlength, h.mergeSort_indexed hlisting, ← List.map_take,
    List.map_map]
  rfl

/-- A file that is gone has had to make room for `max` newer ones. -/
def Covered (max : Nat) (indices : List Nat) (files : OrderedMap Nat Bytes) : Prop :=
  ∀ i ∈ indices, i ∈ files.keys ∨ max ≤ (files.keys.filter (i < ·)).length

namespace Covered
variable {max : Nat} {indices : List Nat} {files : OrderedMap Nat Bytes}

theorem createSnapshot (h : Covered max indices files) (snapshot : Snapshot) :
    Covered max (indices ++ [snapshot.lastIndex])
      (SnapshotManager.createSnapshot files snapshot) := by
  intro i hi
  have hkeys (j : Nat) : j ∈ (SnapshotManager.createSnapshot files snapshot).keys ↔
      j = snapshot.lastIndex ∨ j ∈ files.keys :=
    OrderedMap.mem_keys_insert _ _ _ _
  rcases List.mem_append.mp hi with hi | hi
  · refine (h i hi).imp (fun hthere => (hkeys i).mpr (.inr hthere)) fun hmany => hmany.trans ?_
    refine (List.subperm_of_subset (files.keys_nodup.filter _) fun j hj => ?_).length_le
    rw [List.mem_filter] at hj ⊢
    exact ⟨(hkeys j).mpr (.inr hj.1), hj.2⟩
  · exact .inl ((hkeys i).mpr (.inl (List.mem_singleton.mp hi)))

theorem removeOldest (h : Covered max indices files) {n : Nat} (hn : n ≤ files.size - max) :
    Covered max indices (SnapshotManager.removeOldest files n) := by
  intro i hi
  have hsorted : files.keys.Pairwise (· < ·) := List.pairwise_map.mpr files.sorted
  rw [← List.take_append_drop n files.keys, List.pairwise_append] at hsorted
  obtain ⟨-, -, hbefore⟩ := hsorted
  have hlength : (files.keys.drop n).length = files.size - n := by
    rw [List.length_drop, OrderedMap.length_keys]
  have hfilter : files.keys.filter (i < ·) =
      (files.keys.take n).filter (i < ·) ++ (files.keys.drop n).filter (i < ·) := by
    rw [← List.filter_append, List.take_append_drop]
  rw [keys_removeOldest]
  by_cases hthere : i ∈ files.keys.drop n
  · exact .inl hthere
  right
  by_cases hall : ∀ k ∈ files.keys.drop n, i < k
  · rw [List.filter_eq_self.mpr fun k hk => decide_eq_true (hall k hk), hlength]
    rcases h i hi with hkeys | hmany
    · -- the file is removed now, so there are more than `max`
      rw [← List.take_append_drop n files.keys, List.mem_append, or_iff_left hthere] at hkeys
      have hpos : 0 < n := by
        by_contra hzero
        rw [Nat.eq_zero_of_not_pos hzero, List.take_zero] at hkeys
        cases hkeys
      omega
    · have hle := List.length_filter_le (fun k => decide (i < k)) files.keys
      rw [OrderedMap.length_keys] at hle
      omega
  · push Not at hall
    obtain ⟨k, hk, hki⟩ := hall
    have hnone : (files.keys.take n).filter (i < ·) = [] := by
      rw [List.filter_eq_nil_iff]
      intro j hj
      have := hbefore j hj k hk
      rw [decide_eq_true_iff]
      omega
    rcases h i hi with hkeys | hmany
    · rw [← List.take_append_drop n files.keys, List.mem_append, or_iff_left hthere] at hkeys
      exact absurd (hbefore i hkeys k hk) (by omega)
    · rwa [hfilter, hnone, List.nil_append] at hmany

end Covered

/-- What the files are known to be, the temporary one aside. -/
theorem Interrupted.represents {max : Nat} (hmax : 1 ≤ max) {snapshots : List Snapshot}
    {dir : Directory} (h : Interrupted max snapshots dir)
    (hvalid : ∀ s ∈ snapshots, Fits s ∧ 0 < s.lastIndex) :
    ∃ files, Represents (dir.erase tmpName) files ∧ Newest files (newestOf snapshots) ∧
      Covered max (snapshots.map Snapshot.lastIndex) files := by
  induction h with
  | start => exact ⟨∅, .nothing, .nothing, nofun⟩
  | removeTmp before ih =>
    obtain ⟨files, hrepresents, hrest⟩ := ih hvalid
    exact ⟨files, hrepresents.erase_tmpName.symm ▸ hrepresents, hrest⟩
  | @create snapshots dir before snapshot listing listed n ih =>
    obtain ⟨files, hrepresents, hnewest, hcovered⟩ :=
      ih fun s hs => hvalid s (List.mem_append_left _ hs)
    cases hrenamed : renamed snapshot n with
    | false =>
      rw [if_neg Bool.false_ne_true, List.append_nil,
        erase_tmpName_cut max listing dir hrenamed]
      exact ⟨files, hrepresents, hnewest, hcovered⟩
    | true =>
      rw [hrenamed, if_pos rfl] at hvalid
      rw [if_pos rfl]
      obtain ⟨hfits, hpos⟩ := hvalid snapshot (List.mem_append_right _ (List.mem_singleton_self _))
      have hwritten := hrepresents.writeSnapshot hfits.lastIndex
      rw [writeSnapshot_erase_tmpName] at hwritten
      rw [cut_of_renamed max listing dir hrenamed, hwritten.outdated listed, ← List.map_take,
        List.take_take]
      generalize hcut : min (n - ((snapshotFile snapshot).length + 2))
        ((createSnapshot files snapshot).size - max) = cut
      have hleft := hwritten.eraseAll fun i hi =>
        List.mem_of_mem_take (i := cut) hi
      refine ⟨_, hleft.erase_tmpName.symm ▸ hleft, ?_, ?_⟩
      · rw [newestOf, List.foldl_append]
        exact (hnewest.createSnapshot hfits hpos).removeOldest (by omega)
      · rw [List.map_append]
        exact (hcovered.createSnapshot snapshot).removeOldest (by omega)

theorem size_cleanupKeeping (max : Nat) (files : OrderedMap Nat Bytes) :
    (cleanupKeeping max files).size ≤ max := by
  rw [cleanupKeeping]
  split_ifs with hfew
  · exact hfew
  · rw [← OrderedMap.length_keys, keys_removeOldest, List.length_drop, OrderedMap.length_keys]
    omega

/-- Wherever the calls have stopped, the newest of the renamed snapshots is loaded, a file that is
gone had `max` newer ones, and the next whole call leaves no more than `max` files. -/
theorem newest_outlives_crash {max : Nat} (hmax : 1 ≤ max) {snapshots : List Snapshot}
    {dir : Directory} (h : Interrupted max snapshots dir)
    (hvalid : ∀ s ∈ snapshots, Fits s ∧ 0 < s.lastIndex) {listing : List Bytes}
    (hlisting : listing.Perm dir.keys) :
    (snapshots = [] → loadLatest listing dir = none) ∧
    (∀ before s later, snapshots = before ++ s :: later →
      (∀ t ∈ before, t.lastIndex ≤ s.lastIndex) → (∀ t ∈ later, t.lastIndex < s.lastIndex) →
        loadLatest listing dir = some s) ∧
    (∀ s ∈ snapshots, finalName s.lastIndex ∈ listing ∨
      max ≤ ((indexed listing).filter fun file => s.lastIndex < file.1).length) ∧
    ∀ next, Fits next → ∀ after : List Bytes, after.Perm (writeSnapshot dir next).keys →
      ((steps max after next).foldl Step.run dir).size ≤ max := by
  obtain ⟨files, hrepresents, hnewest, hcovered⟩ := h.represents hmax hvalid
  have hload : loadLatest listing dir = loadLatestSnapshot files := by
    rw [← loadLatest_erase_tmpName, hrepresents.load (perm_erase_tmpName hlisting)]
  refine ⟨?_, ?_, ?_, ?_⟩
  · rintro rfl
    rw [hload, hnewest.load]
    rfl
  · intro before s later hsplit hbefore hlater
    obtain ⟨-, hpos⟩ := hvalid s (by rw [hsplit]; simp)
    rw [hsplit, newestOf_append hbefore hlater] at hnewest
    rw [hload, hnewest.load, if_neg hpos.ne']
  · intro s hs
    have hindex := (hvalid s hs).1.lastIndex
    refine (hcovered _ (List.mem_map_of_mem hs)).imp (fun hthere => ?_) fun hmany => ?_
    · have hname := (hrepresents.mem_keys _).mpr ⟨_, hthere, rfl⟩
      exact hlisting.mem_iff.mpr ((OrderedMap.mem_keys_erase _ _ _).mp hname).2
    · have hindexed : (indexed (listing.filter (· ≠ tmpName))).Perm
          (files.keys.map fun index => (index, finalName index)) := by
        rw [← hrepresents.mergeSort_indexed (perm_erase_tmpName hlisting)]
        exact (List.mergeSort_perm _ _).symm
      have hcount := (hindexed.filter fun file => s.lastIndex < file.1).length_eq
      rw [List.filter_map, List.length_map] at hcount
      refine (hmany.trans hcount.ge).trans ?_
      exact ((List.filter_sublist.filterMap _).filter _).length_le
  · intro next hfits after hafter
    have hwritten := hrepresents.writeSnapshot hfits.lastIndex
    rw [writeSnapshot_erase_tmpName] at hwritten
    have hclean := hwritten.cleanup hafter max
    rw [run_steps max after dir (decide_eq_true hfits.data)]
    obtain ⟨indices, hperm, -, hkeys⟩ := hclean.exists_indices (List.Perm.refl _)
    rw [← OrderedMap.length_keys, hkeys, List.length_map, hperm.length_eq, OrderedMap.length_keys]
    exact size_cleanupKeeping _ _

/-- The process is killed while the second file is written. -/
theorem newest_outlives_crash_half_written :
    let first : Snapshot := { lastIndex := 7, lastTerm := 2, data := [1] }
    let second : Snapshot := { lastIndex := 9, lastTerm := 2, data := [3, 4] }
    let kept := ((steps 1 (writeSnapshot ∅ first).keys first).take 40).foldl Step.run ∅
    let dir := ((steps 1 (writeSnapshot kept second).keys second).take 3).foldl Step.run kept
    renamed first 40 = true ∧ renamed second 3 = false ∧ loadLatest dir.keys dir = some first := by
  intro first second kept dir
  have hfirst : renamed first 40 = true := by decide
  have hsecond : renamed second 3 = false := by decide
  have hkept := Interrupted.create (Interrupted.start : Interrupted 1 [] ∅) first (List.Perm.refl _) 40
  have hdir := hkept.create second (List.Perm.refl _) 3
  rw [hfirst, hsecond, if_pos rfl, if_neg Bool.false_ne_true, List.append_nil] at hdir
  have hvalid : ∀ s ∈ [first], Fits s ∧ 0 < s.lastIndex := by
    intro s hs
    rw [List.mem_singleton.mp hs]
    exact ⟨⟨by decide, by decide, by decide⟩, by decide⟩
  obtain ⟨-, hload, -⟩ :=
    newest_outlives_crash (Nat.le_refl 1) hdir hvalid (List.Perm.refl dir.keys)
  exact ⟨hfirst, hsecond, hload [] first [] rfl nofun nofun⟩

end SnapshotManager
end MyEtcd
