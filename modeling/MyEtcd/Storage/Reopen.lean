import MyEtcd.Storage.KVStore

/-! A store that is closed and opened again.
`Close` writes the values to the file of the backend and `Open` reads them back, but presence is
decided by the versions, and these are in memory only. -/
namespace MyEtcd
open Library

namespace KVStore

/-- A new store after `Open` on a directory in which `backend.db` is `file`. -/
def openOn (file : Option Bytes) : KVStore := { backend := Backend.loadFromDisk {} file }

def close (s : KVStore) : Bytes := s.backend.flushToDisk

def Op.key? : Op → Option Bytes
  | .put key _ _ | .putWithPrev key _ _ | .delete key => some key
  | .compact _ => none

/-- The last call that writes a key. -/
def lastCall (ops : List Op) (key : Bytes) : Option Op :=
  (ops.filter fun op => op.key? = some key).getLast?

def AllDeleted (ops : List Op) : Prop := ∀ key op, lastCall ops key = some op → op = .delete key

theorem lastCall_append (ops : List Op) (op : Op) (key : Bytes) :
    lastCall (ops ++ [op]) key = if op.key? = some key then some op else lastCall ops key := by
  rw [lastCall, lastCall, List.filter_append]
  split_ifs with hkey
  · simp [hkey]
  · simp [hkey]

/-- A key has something in the plain map unless its last call is a deletion. -/
theorem get?_run_eq_none_iff (ops : List Op) (key : Bytes) :
    (LatestMap.run {} ops).contents.get? key = none ↔
      ∀ op, lastCall ops key = some op → op = .delete key := by
  induction ops using List.reverseRecOn with
  | nil => exact iff_of_true rfl fun op hop => by cases hop
  | append_singleton rest op ih =>
    have hrun : LatestMap.run {} (rest ++ [op]) = (LatestMap.run {} rest).after op := by
      simp [LatestMap.run]
    rw [hrun, lastCall_append]
    by_cases hkey : op.key? = some key
    · rw [if_pos hkey]
      cases op with
      | delete k =>
        obtain rfl : k = key := Option.some.inj hkey
        exact iff_of_true (OrderedMap.get?_erase_self _ _) fun x hx => (Option.some.inj hx).symm
      | compact rev => cases hkey
      | _ k value leaseId =>
        obtain rfl : k = key := Option.some.inj hkey
        refine iff_of_false ?_ fun h => ?_
        · simp [LatestMap.after]
        · cases h _ rfl
    · rw [if_neg hkey, ← ih]
      cases op with
      | compact rev => rfl
      | delete k =>
        have hne : key ≠ k := fun h => hkey (congrArg some h.symm)
        rw [LatestMap.after, OrderedMap.get?_erase_ne _ hne]
      | _ k value leaseId =>
        have hne : key ≠ k := fun h => hkey (congrArg some h.symm)
        rw [LatestMap.after, OrderedMap.get?_insert_ne _ _ hne]

/-- What the calls do to the versions does not depend on the backend. -/
theorem mvcc_run (s : KVStore) (backend : Backend) (ops : List Op) :
    (run { s with backend } ops).mvcc = (run s ops).mvcc := by
  induction ops generalizing s backend with
  | nil => rfl
  | cons op rest ih =>
    rw [run, run, List.foldl_cons, List.foldl_cons, ← run, ← run]
    have hafter : ({ s with backend } : KVStore).after op =
        { s.after op with backend := (({ s with backend } : KVStore).after op).backend } := by
      cases op <;> rfl
    rw [hafter]
    exact ih _ _

theorem keys_eq_nil_iff (s : KVStore) : s.keys = [] ↔ ∀ key, s.get key 0 = none := by
  have hget (key : Bytes) : s.get key 0 = none ↔ key ∉ s.keys := by
    rw [get, Option.map_eq_none_iff, keys, MVCC.keys_eq, OrderedMap.mem_keys_iff, ← MVCC.get_eq,
      Option.not_isSome_iff_eq_none]
  simp only [hget, List.eq_nil_iff_forall_not_mem]

/-- Before the close, the keys that are left are those whose last call is no deletion. -/
theorem keys_run_openOn (file : Option Bytes) (ops : List Op) :
    (run (openOn file) ops).keys = [] ↔ AllDeleted ops := by
  have hmirrors : Mirrors (run {} ops) (LatestMap.run {} ops) :=
    Mirrors.run ⟨rfl, fun _ => rfl, fun _ => rfl⟩ ops
  have hmvcc : (run (openOn file) ops).mvcc = (run {} ops).mvcc := mvcc_run {} _ ops
  rw [keys_eq_nil_iff]
  refine forall_congr' fun key => ?_
  rw [get, Option.map_eq_none_iff, hmvcc, ← get?_run_eq_none_iff, ← hmirrors.read,
    Option.map_eq_none_iff]

/-- A store that has just been opened shows no key. -/
theorem openOn_shows_nothing (file : Option Bytes) :
    (openOn file).keys = [] ∧ ∀ key, (openOn file).get key 0 = none := ⟨rfl, fun _ => rfl⟩

/-- The store is the same after closing and opening it exactly when no key was left in it. -/
theorem reopen_iff (file : Option Bytes) (ops : List Op) :
    ((openOn (some (run (openOn file) ops).close)).keys = (run (openOn file) ops).keys ∧
      ∀ key, ((openOn (some (run (openOn file) ops).close)).get key 0).map KeyValue.value =
        ((run (openOn file) ops).get key 0).map KeyValue.value) ↔
    AllDeleted ops := by
  obtain ⟨hkeys, hget⟩ := openOn_shows_nothing (some (run (openOn file) ops).close)
  rw [← keys_run_openOn file, hkeys]
  constructor
  · exact fun h => h.1.symm
  · intro hnone
    refine ⟨hnone.symm, fun key => ?_⟩
    rw [hget, (keys_eq_nil_iff _).mp hnone key]

/-- A put, a close and an open: the key is gone. -/
theorem reopen_forgets :
    (run (openOn none) [.put [107] [97] 0]).keys = [[107]] ∧
    ((run (openOn none) [.put [107] [97] 0]).get [107] 0).map KeyValue.value = some [97] ∧
    (openOn (some (run (openOn none) [.put [107] [97] 0]).close)).keys = [] ∧
    (openOn (some (run (openOn none) [.put [107] [97] 0]).close)).get [107] 0 = none := by
  decide

end KVStore
end MyEtcd
