import MyEtcd.Library.Execution
import MyEtcd.Storage.KVStore

/-! The order of the stored revisions, through live writes and recovery.
Revisions come from a counter, and for restored log entries from their indices. -/
namespace MyEtcd
open Library

namespace MVCC

/-- There is a version of the key with this revision. -/
def Stores (m : MVCC) (key : Bytes) (rev : Int) : Prop :=
  ∃ v ∈ (m.keyIndex key).versions, v.revision = rev

/-- The versions of a key have rising revisions, no revision is stored under two keys, and the
counter is past all of them. -/
structure Ordered (m : MVCC) : Prop where
  ascending : ∀ key, (m.keyIndex key).versions.Pairwise fun u v => u.revision < v.revision
  distinct : ∀ key key' rev, m.Stores key rev → m.Stores key' rev → key = key'
  bounded : ∀ key rev, m.Stores key rev → rev < m.currentRev

/-- A write at a revision the counter has passed, that is not stored yet and comes after those of
the key. -/
structure Fits (m : MVCC) (w : Write) : Prop where
  passed : w.revision < m.currentRev
  unused : ∀ key, ¬ m.Stores key w.revision
  newest : ∀ rev, m.Stores w.key rev → rev < w.revision

theorem ordered_empty : Ordered {} := by
  have hnone {key : Bytes} {rev : Int} : ¬ Stores {} key rev :=
    fun ⟨_, hv, _⟩ => List.not_mem_nil hv
  exact ⟨fun _ => .nil, fun _ _ _ hu => absurd hu hnone, fun _ _ hv => absurd hv hnone⟩

/-- Fewer versions stay in order, and so they do under a later counter. -/
theorem Ordered.mono {m m' : MVCC} (h : Ordered m) (hcounter : m.currentRev ≤ m'.currentRev)
    (hsub : ∀ key, (m'.keyIndex key).versions.Sublist (m.keyIndex key).versions) :
    Ordered m' := by
  have hstores {key : Bytes} {rev : Int} : m'.Stores key rev → m.Stores key rev :=
    fun ⟨v, hv, heq⟩ => ⟨v, (hsub key).subset hv, heq⟩
  exact
    { ascending := fun key => (h.ascending key).sublist (hsub key)
      distinct := fun key key' rev hu hv => h.distinct key key' rev (hstores hu) (hstores hv)
      bounded := fun key rev hv => (h.bounded key rev (hstores hv)).trans_le hcounter }

theorem currentRev_write (m : MVCC) (w : Write) : (m.write w).currentRev = m.currentRev := by
  cases w with
  | put key revision value leaseId =>
    simp only [write, put]
    cases m.index.get? key <;> rfl
  | delete key revision =>
    simp only [write, delete]
    cases m.index.get? key <;> rfl

theorem versions_write (m : MVCC) (w : Write) (key : Bytes) :
    ∃ added, ((m.write w).keyIndex key).versions = (m.keyIndex key).versions ++ added ∧
      added.map MvccVersion.revision = if w.key = key then [w.revision] else [] := by
  rw [keyIndex_write]
  split_ifs
  · exact ⟨_, KeyIndex.versions_record _ w, by simp⟩
  · exact ⟨[], (List.append_nil _).symm, rfl⟩

theorem stores_write {m : MVCC} {w : Write} {key : Bytes} {rev : Int} :
    (m.write w).Stores key rev ↔ m.Stores key rev ∨ w.key = key ∧ w.revision = rev := by
  obtain ⟨added, hversions, hadded⟩ := m.versions_write w key
  have hnew : (∃ v ∈ added, v.revision = rev) ↔ w.key = key ∧ w.revision = rev := by
    rw [← List.mem_map, hadded]
    split_ifs with hkey
    · simp [hkey, eq_comm]
    · simp [hkey]
  rw [← hnew, Stores, Stores, hversions]
  simp only [List.mem_append, or_and_right, exists_or]

/-- A write keeps the order exactly if it fits. -/
theorem ordered_write_iff {m : MVCC} {w : Write} :
    Ordered (m.write w) ↔ Ordered m ∧ Fits m w := by
  have hascending (key : Bytes) :
      ((m.write w).keyIndex key).versions.Pairwise (fun u v => u.revision < v.revision) ↔
        (m.keyIndex key).versions.Pairwise (fun u v => u.revision < v.revision) ∧
          ∀ rev, w.key = key → m.Stores key rev → rev < w.revision := by
    obtain ⟨added, hversions, hadded⟩ := m.versions_write w key
    have hpairwise (l : List MvccVersion) : l.Pairwise (fun u v => u.revision < v.revision) ↔
        (l.map MvccVersion.revision).Pairwise (· < ·) := List.pairwise_map.symm
    rw [hpairwise, hpairwise, hversions, List.map_append, hadded, List.pairwise_append]
    split_ifs with hkey
    · simp [hkey, Stores]
    · simp [hkey]
  constructor
  · intro h
    have hself : (m.write w).Stores w.key w.revision := stores_write.mpr (.inr ⟨rfl, rfl⟩)
    have hnewest (rev : Int) : m.Stores w.key rev → rev < w.revision :=
      ((hascending w.key).mp (h.ascending w.key)).2 rev rfl
    refine ⟨⟨fun key => ((hascending key).mp (h.ascending key)).1, fun key key' rev hu hv => ?_,
      fun key rev hv => ?_⟩, ?_, fun key hv => ?_, hnewest⟩
    · exact h.distinct key key' rev (stores_write.mpr (.inl hu)) (stores_write.mpr (.inl hv))
    · exact (h.bounded key rev (stores_write.mpr (.inl hv))).trans_eq (m.currentRev_write w)
    · exact (h.bounded _ _ hself).trans_eq (m.currentRev_write w)
    · obtain rfl := h.distinct key w.key _ (stores_write.mpr (.inl hv)) hself
      exact (hnewest _ hv).false
  · rintro ⟨h, hfits⟩
    refine ⟨fun key => (hascending key).mpr ⟨h.ascending key, ?_⟩, fun key key' rev hu hv => ?_,
      fun key rev hv => ?_⟩
    · rintro rev rfl hstores
      exact hfits.newest rev hstores
    · rcases stores_write.mp hu with hold | ⟨hkey, rfl⟩
      · rcases stores_write.mp hv with hold' | ⟨-, rfl⟩
        · exact h.distinct key key' rev hold hold'
        · exact absurd hold (hfits.unused key)
      · rcases stores_write.mp hv with hold' | ⟨hkey', -⟩
        · exact absurd hold' (hfits.unused key')
        · exact hkey.symm.trans hkey'
    · rw [currentRev_write]
      rcases stores_write.mp hv with hv | ⟨-, rfl⟩
      · exact h.bounded key rev hv
      · exact hfits.passed

/-- Two writes in turn whose revisions do not collide. -/
def Apart (v w : Write) : Prop :=
  v.revision ≠ w.revision ∧ (v.key = w.key → v.revision < w.revision)

theorem fits_write_iff {m : MVCC} {v w : Write} :
    Fits (m.write v) w ↔ Fits m w ∧ Apart v w := by
  constructor
  · intro h
    refine ⟨⟨h.passed.trans_eq (m.currentRev_write v), fun key hw => ?_, fun rev hw => ?_⟩,
      fun heq => ?_, fun hkey => ?_⟩
    · exact h.unused key (stores_write.mpr (.inl hw))
    · exact h.newest rev (stores_write.mpr (.inl hw))
    · exact h.unused v.key (stores_write.mpr (.inr ⟨rfl, heq⟩))
    · exact h.newest v.revision (stores_write.mpr (.inr ⟨hkey, rfl⟩))
  · rintro ⟨h, hne, hlt⟩
    refine ⟨h.passed.trans_eq (m.currentRev_write v).symm, fun key hw => ?_, fun rev hw => ?_⟩
    · exact (stores_write.mp hw).elim (h.unused key) fun heq => hne heq.2
    · rcases stores_write.mp hw with hw | ⟨hkey, rfl⟩
      · exact h.newest rev hw
      · exact hlt hkey

/-- Writes keep the order exactly if each of them fits what is stored, and they fit each other. -/
theorem ordered_writes_iff {m : MVCC} {writes : List Write} :
    Ordered (writes.foldl write m) ↔
      Ordered m ∧ (∀ w ∈ writes, Fits m w) ∧ writes.Pairwise Apart := by
  induction writes generalizing m with
  | nil => simp
  | cons w rest ih =>
    rw [List.foldl_cons, ih, ordered_write_iff, List.pairwise_cons, List.forall_mem_cons]
    simp only [fits_write_iff, imp_and, forall_and]
    tauto

theorem Ordered.next {m : MVCC} (h : Ordered m) {w : Write} (hw : w.revision = m.currentRev) :
    Ordered (m.allocateRevision.2.write w) := by
  have hcounter : m.currentRev < m.allocateRevision.2.currentRev := Int.lt_succ m.currentRev
  refine ordered_write_iff.mpr ⟨h.mono hcounter.le fun _ => List.Sublist.refl _, ?_, ?_, ?_⟩
  · rw [hw]
    exact hcounter
  · exact fun key hstored => (h.bounded key _ hstored).ne hw
  · intro rev hstored
    rw [hw]
    exact h.bounded w.key rev hstored

theorem Ordered.compact {m : MVCC} (h : Ordered m) (rev : Int) : Ordered (m.compact rev) := by
  refine h.mono le_rfl fun key => ?_
  rw [keyIndex_compact]
  split_ifs
  · exact List.nil_sublist _
  · exact List.drop_sublist _ _

theorem Ordered.rebuild {m : MVCC} (h : Ordered m) (kvs : List (Bytes × Bytes)) :
    Ordered (kvs.foldl KVStore.rebuildKey m) := by
  induction kvs generalizing m with
  | nil => exact h
  | cons e rest ih => exact ih (h.next (w := .put e.1 m.currentRev e.2 0) rfl)

end MVCC

namespace KVStore

/-- The writes that log entries stand for, at their indices. -/
def writesOf (entries : List RaftEntry) : List Write :=
  entries.filterMap fun entry =>
    match entry.type with
    | .put => some (.put entry.key (revisionOf entry.index) entry.value entry.leaseId)
    | .delete => some (.delete entry.key (revisionOf entry.index))
    | _ => none

theorem restoreFromEntries_mvcc (s : KVStore) (entries : List RaftEntry) :
    (s.restoreFromEntries entries).mvcc = (writesOf entries).foldl MVCC.write s.mvcc := by
  induction entries generalizing s with
  | nil => rfl
  | cons entry rest ih =>
    rw [restoreFromEntries, List.foldl_cons, ← restoreFromEntries, ih, writesOf, writesOf,
      List.filterMap_cons, restoreEntry]
    cases entry.type <;> rfl

/-- Everything that changes the store, recovery included. -/
inductive Call where
  | live (op : Op)
  | restoreFromEntries (entries : List RaftEntry)
  | deserialize (data : Bytes)

def step (s : KVStore) : Call → Option KVStore
  | .live op => some (s.after op)
  | .restoreFromEntries entries => some (s.restoreFromEntries entries)
  | .deserialize data => (s.deserialize data).map Prod.snd

/-- Restored entries have indices that the counter has passed and that are free, and come after
what their keys have. -/
def Restorable (s : KVStore) : Call → Prop
  | .restoreFromEntries entries =>
    (∀ w ∈ writesOf entries, s.mvcc.Fits w) ∧ (writesOf entries).Pairwise MVCC.Apart
  | _ => True

theorem deserialize_ordered {s s' : KVStore} {data : Bytes} (h : s.mvcc.Ordered)
    (hs : (s.deserialize data).map Prod.snd = some s') : s'.mvcc.Ordered := by
  unfold deserialize at hs
  cases hcount : readU32 data 0 with
  | none =>
    rw [hcount] at hs
    obtain rfl := Option.some.inj hs
    exact h
  | some count =>
    rw [hcount, Option.map_map] at hs
    obtain ⟨kvs, _, rfl⟩ := Option.map_eq_some_iff.mp hs
    exact h.rebuild kvs.entries

/-- Only restored entries can put the revisions out of order, and only where they do not fit. -/
theorem step_ordered_iff {s s' : KVStore} {c : Call} (h : s.mvcc.Ordered)
    (hs : s.step c = some s') : s'.mvcc.Ordered ↔ Restorable s c := by
  cases c with
  | live op =>
    obtain rfl : s.after op = s' := Option.some.inj hs
    refine iff_of_true ?_ trivial
    cases op with
    | put key value leaseId => exact h.next (w := .put key s.mvcc.currentRev value leaseId) rfl
    | putWithPrev key value leaseId =>
      exact h.next (w := .put key s.mvcc.currentRev value leaseId) rfl
    | delete key => exact h.next (w := .delete key s.mvcc.currentRev) rfl
    | compact rev => exact h.compact rev
  | restoreFromEntries entries =>
    obtain rfl : s.restoreFromEntries entries = s' := Option.some.inj hs
    rw [restoreFromEntries_mvcc, MVCC.ordered_writes_iff]
    exact and_iff_right h
  | deserialize data => exact iff_of_true (deserialize_ordered h hs) trivial

/-- As long as restored entries fit, every state of a store has its revisions in order. -/
theorem revision_order {s : KVStore} (h : Run step Restorable {} s) : s.mvcc.Ordered :=
  h.invariant (P := fun s => s.mvcc.Ordered)
    (fun hs hok hstep => (step_ordered_iff hs hstep).mpr hok) MVCC.ordered_empty

/-- A store with a restored entry has a revision that its counter is not past, and stores it again
with the next write. -/
theorem revision_stored_twice :
    ¬ (restoreFromEntries {} [{ index := 1, key := [107], value := [97] }]).mvcc.Ordered ∧
    ((restoreFromEntries {} [{ index := 1, key := [107], value := [97] }]).put
      [108] [98] 0).2.mvcc.Stores [107] 1 ∧
    ((restoreFromEntries {} [{ index := 1, key := [107], value := [97] }]).put
      [108] [98] 0).2.mvcc.Stores [108] 1 := by
  refine ⟨fun h => ?_, ⟨_, .head _, rfl⟩, ⟨_, .head _, rfl⟩⟩
  have hlt := h.bounded [107] 1 ⟨_, .head _, rfl⟩
  exact absurd hlt (by decide)

/-- An entry is restored at the revision of a tombstone that has been compacted away. -/
theorem revision_order_freed :
    (restoreFromEntries (run {} [.delete [107], .compact 1])
      [{ index := 1, key := [108], value := [99] }]).mvcc.Ordered := by
  have hnone {key : Bytes} {rev : Int} : ¬ (run {} [.delete [107], .compact 1]).mvcc.Stores key rev :=
    fun ⟨_, hv, _⟩ => List.not_mem_nil hv
  have hfits : (run {} [.delete [107], .compact 1]).mvcc.Fits (.put [108] 1 [99] 0) :=
    ⟨by decide, fun _ => hnone, fun _ hstored => absurd hstored hnone⟩
  have hlive : Run step Restorable {} (run {} [.delete [107], .compact 1]) :=
    (Run.start.next (a := .live (.delete [107])) trivial rfl).next (a := .live (.compact 1)) trivial rfl
  refine revision_order (hlive.next
    (a := .restoreFromEntries [{ index := 1, key := [108], value := [99] }]) ⟨fun w hw => ?_, ?_⟩ rfl)
  · rwa [List.mem_singleton.mp hw]
  · exact List.pairwise_singleton _ _

end KVStore
end MyEtcd
