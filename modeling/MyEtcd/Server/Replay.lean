import MyEtcd.Storage.RevisionOrder

/-! Applying committed entries to the store, live and from the log at start.
The two ways number their revisions apart, and only one of them moves the counter. -/
namespace MyEtcd
open Library

namespace EtcdServer

/-- One round of `ProcessRaftEntries`, as far as the store is concerned. -/
def processEntry (kvstore : KVStore) (entry : RaftEntry) : KVStore :=
  match entry.type with
  | .put => (kvstore.putWithPrev entry.key entry.value entry.leaseId).2
  | .delete => (kvstore.delete entry.key).2
  | _ => kvstore

def processRaftEntries (kvstore : KVStore) (entries : List RaftEntry) : KVStore :=
  entries.foldl processEntry kvstore

/-- An entry that changes the store. -/
def Writes (entry : RaftEntry) : Prop := entry.type = .put ∨ entry.type = .delete

instance (entry : RaftEntry) : Decidable (Writes entry) := inferInstanceAs (Decidable (_ ∨ _))

theorem processEntry_of_not_writes {kvstore : KVStore} {entry : RaftEntry} (h : ¬ Writes entry) :
    processEntry kvstore entry = kvstore := by
  unfold processEntry
  split
  · exact absurd (.inl ‹_›) h
  · exact absurd (.inr ‹_›) h
  · rfl

theorem restoreEntry_of_not_writes {kvstore : KVStore} {entry : RaftEntry} (h : ¬ Writes entry) :
    kvstore.restoreEntry entry = kvstore := by
  unfold KVStore.restoreEntry
  split
  · exact absurd (.inl ‹_›) h
  · exact absurd (.inr ‹_›) h
  · rfl

theorem currentRevision_processEntry (kvstore : KVStore) (entry : RaftEntry) :
    (processEntry kvstore entry).currentRevision =
      kvstore.currentRevision + if Writes entry then 1 else 0 := by
  by_cases h : Writes entry
  · rw [if_pos h]
    rcases h with h | h <;> rw [processEntry, h]
    · exact MVCC.currentRev_write _ (.put entry.key kvstore.mvcc.currentRev entry.value entry.leaseId)
    · exact MVCC.currentRev_write _ (.delete entry.key kvstore.mvcc.currentRev)
  · rw [processEntry_of_not_writes h, if_neg h, Int.add_zero]

/-- Live, every write takes a revision from the counter. -/
theorem currentRevision_processRaftEntries (kvstore : KVStore) (entries : List RaftEntry) :
    (processRaftEntries kvstore entries).currentRevision =
      kvstore.currentRevision + (entries.filter fun e => Writes e).length := by
  induction entries generalizing kvstore with
  | nil => simp [processRaftEntries]
  | cons e rest ih =>
    rw [processRaftEntries, List.foldl_cons, ← processRaftEntries, ih,
      currentRevision_processEntry, List.filter_cons]
    split_ifs with h h' h'
    · push_cast [List.length_cons]
      omega
    · simp [h] at h'
    · simp [h] at h'
    · omega

/-- From the log, none does. -/
theorem currentRevision_restoreFromEntries (kvstore : KVStore) (entries : List RaftEntry) :
    (kvstore.restoreFromEntries entries).currentRevision = kvstore.currentRevision := by
  have hwrites (m : MVCC) (writes : List Write) :
      (writes.foldl MVCC.write m).currentRev = m.currentRev := by
    induction writes generalizing m with
    | nil => rfl
    | cons w rest ih => rw [List.foldl_cons, ih, MVCC.currentRev_write]
  rw [KVStore.currentRevision, KVStore.restoreFromEntries_mvcc, hwrites]
  rfl

/-- Nobody can tell the stores apart by reading. -/
structure Agree (a b : KVStore) : Prop where
  get : ∀ key atRev, a.get key atRev = b.get key atRev
  range : ∀ start stop atRev limit, a.range start stop atRev limit = b.range start stop atRev limit
  prefixRange : ∀ front atRev limit, a.prefixRange front atRev limit = b.prefixRange front atRev limit
  keys : a.keys = b.keys
  currentRevision : a.currentRevision = b.currentRevision

theorem Agree.refl (kvstore : KVStore) : Agree kvstore kvstore :=
  ⟨fun _ _ => rfl, fun _ _ _ _ => rfl, fun _ _ _ => rfl, rfl, rfl⟩

/-- Replayed and live stores agree, now and after any further calls, exactly when there was nothing
to replay. -/
theorem replay_agrees_iff (entries : List RaftEntry) :
    (∀ ops, Agree ((KVStore.restoreFromEntries {} entries).run ops)
      ((processRaftEntries {} entries).run ops)) ↔ ∀ e ∈ entries, ¬ Writes e := by
  constructor
  · intro h e he hwrites
    have hcounter := (h []).currentRevision
    rw [KVStore.run, KVStore.run, List.foldl_nil, List.foldl_nil,
      currentRevision_restoreFromEntries, currentRevision_processRaftEntries] at hcounter
    have hmem : e ∈ entries.filter fun e => Writes e :=
      List.mem_filter.mpr ⟨he, decide_eq_true hwrites⟩
    have hpos := List.length_pos_of_mem hmem
    omega
  · intro h ops
    have hsame (kvstore : KVStore) :
        kvstore.restoreFromEntries entries = processRaftEntries kvstore entries := by
      refine List.foldl_ext _ _ _ fun kvstore e he => ?_
      rw [restoreEntry_of_not_writes (h e he), processEntry_of_not_writes (h e he)]
    rw [hsame]
    exact Agree.refl _

/-- One replayed put leaves the counter behind, and the next write takes its revision again. -/
theorem replay_drifts :
    (KVStore.restoreFromEntries {} [{ index := 1, key := [107], value := [97] }]).currentRevision =
      1 ∧
    (processRaftEntries {} [{ index := 1, key := [107], value := [97] }]).currentRevision = 2 ∧
    ((KVStore.restoreFromEntries {} [{ index := 1, key := [107], value := [97] }]).run
      [.put [108] [98] 0]).get [108] 0 = some ⟨[108], [98], 1, 1, 1, 0⟩ ∧
    ((processRaftEntries {} [{ index := 1, key := [107], value := [97] }]).run
      [.put [108] [98] 0]).get [108] 0 = some ⟨[108], [98], 2, 2, 1, 0⟩ := by
  decide

end EtcdServer
end MyEtcd
