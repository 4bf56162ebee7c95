import MyEtcd.Server.Recovery

/-! A snapshot and a part of the log that begins before it ends.
The commands in the overlap are applied once more, which changes nothing: what a key holds is
decided by the last command that names it. -/
namespace MyEtcd
open Library

/-- Applying commands a second time changes nothing. -/
theorem applyAll_idem (contents : OrderedMap Bytes Bytes) (entries : List RaftEntry) :
    applyAll (applyAll contents entries) entries = applyAll contents entries := by
  refine OrderedMap.ext_get? fun key => ?_
  rw [get?_applyAll, get?_applyAll]
  cases lastOn entries key <;> rfl

theorem applyAll_append (contents : OrderedMap Bytes Bytes) (a b : List RaftEntry) :
    applyAll contents (a ++ b) = applyAll (applyAll contents a) b :=
  List.foldl_append

/-- So it does not matter how far a suffix reaches back into what has been applied. -/
theorem applyAll_overlap (contents : OrderedMap Bytes Bytes) (entries : List RaftEntry) {j n : Nat}
    (h : j ≤ n) :
    applyAll (applyAll contents (entries.take n)) (entries.drop j) = applyAll contents entries := by
  have hfront : entries.take n = entries.take j ++ (entries.drop j).take (n - j) := by
    rw [← List.take_add, Nat.add_sub_cancel' h]
  have hback : (entries.drop j).take (n - j) ++ entries.drop n = entries.drop j := by
    rw [← Nat.add_sub_cancel' h, ← List.drop_drop, Nat.add_sub_cancel_left, List.take_append_drop]
  calc applyAll (applyAll contents (entries.take n)) (entries.drop j)
      = applyAll (applyAll contents (entries.take n)) (entries.drop n) := by
        rw [← hback, applyAll_append, hfront, applyAll_append, applyAll_idem]
    _ = applyAll contents entries := by
        rw [← applyAll_append, List.take_append_drop]

namespace KVStore

/-- A command applied by `Put` or `Delete`. -/
def applyEntry (s : KVStore) (entry : RaftEntry) : KVStore :=
  match entry.type with
  | .put => (s.put entry.key entry.value entry.leaseId).2
  | .delete => (s.delete entry.key).2
  | _ => s

def applyEntries (s : KVStore) (entries : List RaftEntry) : KVStore := entries.foldl applyEntry s

section
variable {s : KVStore} {contents : OrderedMap Bytes Bytes}

theorem shows_applyEntries (h : Shows s.mvcc contents) (hstore : s.backend.store = contents)
    (entries : List RaftEntry) :
    Shows (s.applyEntries entries).mvcc (applyAll contents entries) ∧
      (s.applyEntries entries).backend.store = applyAll contents entries := by
  induction entries generalizing s contents with
  | nil => exact ⟨h, hstore⟩
  | cons e rest ih =>
    have hallocated : Shows s.mvcc.allocateRevision.2 contents := h
    have hentry : Shows (s.applyEntry e).mvcc (e.applyTo contents) ∧
        (s.applyEntry e).backend.store = e.applyTo contents := by
      unfold applyEntry RaftEntry.applyTo
      cases e.type with
      | put => exact ⟨hallocated.put _ _ _ _, congrArg (fun m => m.insert e.key e.value) hstore⟩
      | delete => exact ⟨hallocated.delete _ _, congrArg (fun m => m.erase e.key) hstore⟩
      | _ => exact ⟨h, hstore⟩
    exact ih hentry.1 hentry.2

/-- What a store shows whose versions and values are in step. -/
theorem reads_of_mirrored (h : Shows s.mvcc contents) (hstore : s.backend.store = contents) :
    s.keys = contents.keys ∧ ∀ key, (s.get key 0).map KeyValue.value = contents.get? key := by
  obtain ⟨hkeys, hget⟩ := reads_of_shows h
  refine ⟨hkeys, fun key => ?_⟩
  rw [hget, Backend.get, hstore]
  cases contents.get? key <;> rfl

end

theorem applyEntries_fresh (entries : List RaftEntry) :
    Shows (applyEntries {} entries).mvcc (applyAll ∅ entries) ∧
      (applyEntries {} entries).backend.store = applyAll ∅ entries :=
  shows_applyEntries (fun _ => rfl) rfl entries

/-- Keys and values come from the commands. -/
theorem encodable_applyAll {entries : List RaftEntry} (hsize : (applyAll ∅ entries).size < 2 ^ 32)
    (hlengths : ∀ e ∈ entries, e.key.length < 2 ^ 32 ∧ e.value.length < 2 ^ 32) :
    Encodable (applyAll ∅ entries) := by
  have hfrom : ∀ e ∈ (applyAll ∅ entries).entries, ∃ x ∈ entries, x.key = e.1 ∧ x.value = e.2 := by
    intro e he
    have hget := (OrderedMap.mem_entries_iff _ e.1 e.2).mp he
    rw [get?_applyAll] at hget
    cases hlast : lastOn entries e.1 with
    | none =>
      rw [hlast] at hget
      cases hget
    | some x =>
      rw [hlast, Option.map_some, Option.getD_some] at hget
      have hkey := (List.mem_filter.mp (List.mem_of_getLast? hlast)).2
      refine ⟨x, mem_of_lastOn hlast, (of_decide_eq_true hkey).2, ?_⟩
      unfold RaftEntry.effect at hget
      split at hget
      · exact Option.some.inj hget
      · cases hget
  refine ⟨hsize, fun e he => ?_, fun e he => ?_⟩
  · obtain ⟨x, hx, hkey, _⟩ := hfrom e he
    exact hkey ▸ (hlengths x hx).1
  · obtain ⟨x, hx, _, hvalue⟩ := hfrom e he
    exact hvalue ▸ (hlengths x hx).2

/-- A store restored from a snapshot taken after `n` commands, and from the log's commands from any
one of these on, shows what a store shows to which all commands have been applied. -/
theorem snapshot_and_suffix (entries : List RaftEntry) {n k : Nat} (hk : k ≤ n + 1)
    (hkeys : (applyEntries {} (entries.take n)).keys.length < 2 ^ 32)
    (hlengths : ∀ e ∈ entries, e.key.length < 2 ^ 32 ∧ e.value.length < 2 ^ 32) :
    ∃ restored, deserialize {} (applyEntries {} (entries.take n)).serialize = some (true, restored) ∧
      (restored.restoreFromEntries (entries.drop (k - 1))).keys = (applyEntries {} entries).keys ∧
      ∀ key, ((restored.restoreFromEntries (entries.drop (k - 1))).get key 0).map KeyValue.value =
        ((applyEntries {} entries).get key 0).map KeyValue.value := by
  obtain ⟨htaken, hstore⟩ := applyEntries_fresh (entries.take n)
  obtain ⟨hall, hallStore⟩ := applyEntries_fresh entries
  have hsize : (applyAll ∅ (entries.take n)).size < 2 ^ 32 := by
    rwa [(reads_of_mirrored htaken hstore).1, OrderedMap.length_keys] at hkeys
  have hencodable := encodable_applyAll hsize fun e he => hlengths e (List.mem_of_mem_take he)
  rw [← hstore] at hencodable
  obtain ⟨restored, hrestored, hbackend⟩ : ∃ restored,
      deserialize {} (applyEntries {} (entries.take n)).serialize = some (true, restored) ∧
        restored.backend.store = applyAll ∅ (entries.take n) :=
    ⟨_, deserialize_serialize hencodable, hstore⟩
  have hsuffix := applyAll_overlap ∅ entries (by omega : k - 1 ≤ n)
  have hshown : Shows restored.mvcc restored.backend.store := shows_deserialize hrestored
  have hafter := hshown.restoreFromEntries (entries.drop (k - 1))
  have hafterStore := store_restoreFromEntries restored (entries.drop (k - 1))
  rw [hbackend, hsuffix] at hafter hafterStore
  obtain ⟨hkeysAfter, hgetAfter⟩ := reads_of_mirrored hafter hafterStore
  obtain ⟨hkeysAll, hgetAll⟩ := reads_of_mirrored hall hallStore
  refine ⟨restored, hrestored, hkeysAfter.trans hkeysAll.symm, fun key => ?_⟩
  rw [hgetAfter, hgetAll]

/-- A put, a deletion and another put of one key. -/
def recreation : List RaftEntry :=
  [{ index := 1, key := [107], value := [97] }, { index := 2, type := .delete, key := [107] },
    { index := 3, key := [107], value := [98] }]

/-- The snapshot is taken after the deletion, and the suffix is the whole log. -/
theorem snapshot_and_suffix_recreation :
    ∃ restored, deserialize {} (applyEntries {} (recreation.take 2)).serialize =
        some (true, restored) ∧
      (restored.restoreFromEntries recreation).keys = (applyEntries {} recreation).keys ∧
      ∀ key, ((restored.restoreFromEntries recreation).get key 0).map KeyValue.value =
        ((applyEntries {} recreation).get key 0).map KeyValue.value :=
  snapshot_and_suffix recreation (by decide : 1 ≤ 2 + 1) (by decide) (by decide)

end KVStore
end MyEtcd
