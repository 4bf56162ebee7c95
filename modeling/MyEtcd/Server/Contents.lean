import MyEtcd.Server.KVServer
import MyEtcd.Storage.SnapshotData

/-! What the entries make of the contents of the store, and how the contents get into a snapshot.
The data is taken while the handler cannot touch the store, so it stays what the store holds. -/
namespace MyEtcd
open Library

/-- The contents of the store after an entry. -/
def RaftEntry.applyTo (contents : OrderedMap Bytes Bytes) (entry : RaftEntry) :
    OrderedMap Bytes Bytes :=
  match entry.type with
  | .put => contents.insert entry.key entry.value
  | .delete => contents.erase entry.key
  | _ => contents

def applyAll (contents : OrderedMap Bytes Bytes) (entries : List RaftEntry) :
    OrderedMap Bytes Bytes := entries.foldl RaftEntry.applyTo contents

/-- What `Start` puts into the store from a snapshot. -/
def Snapshot.contents (snapshot : Snapshot) : Option (OrderedMap Bytes Bytes) :=
  (KVStore.deserialize {} snapshot.data).map fun r => r.2.backend.store

theorem store_processRaftEntries (kvstore : KVStore) (entries : List RaftEntry) :
    (EtcdServer.processRaftEntries kvstore entries).backend.store =
      applyAll kvstore.backend.store entries := by
  induction entries generalizing kvstore with
  | nil => rfl
  | cons e rest ih =>
    have hentry : (EtcdServer.processEntry kvstore e).backend.store =
        e.applyTo kvstore.backend.store := by
      unfold EtcdServer.processEntry RaftEntry.applyTo
      cases e.type <;> rfl
    rw [EtcdServer.processRaftEntries, List.foldl_cons, ← EtcdServer.processRaftEntries, ih, hentry]
    rfl

theorem store_restoreFromEntries (kvstore : KVStore) (entries : List RaftEntry) :
    (kvstore.restoreFromEntries entries).backend.store =
      applyAll kvstore.backend.store entries := by
  induction entries generalizing kvstore with
  | nil => rfl
  | cons e rest ih =>
    have hentry : (kvstore.restoreEntry e).backend.store = e.applyTo kvstore.backend.store := by
      unfold KVStore.restoreEntry RaftEntry.applyTo
      cases e.type <;> rfl
    rw [KVStore.restoreFromEntries, List.foldl_cons, ← KVStore.restoreFromEntries, ih, hentry]
    rfl

/-- A snapshot of a store that fits its file holds the contents of the store. -/
theorem contents_serialize {kvstore : KVStore} {n term : Nat}
    (hfits : SnapshotManager.fitsFile kvstore.serialize = true) :
    Snapshot.contents ⟨n, term, kvstore.serialize⟩ = some kvstore.backend.store := by
  rw [Snapshot.contents, KVStore.deserialize_serialize
    (KVStore.encodable_of_length (of_decide_eq_true hfits)), Option.map_some]

namespace Action

/-- The actions by which a snapshot is taken and written. -/
def copies : Action → Bool
  | .serialize _ | .createSnapshot _ _ => true
  | _ => false

end Action

namespace KVServer

/-- The store holds what the entries applied since the start have made of `base`, and so does the
data of a snapshot that is about to be written. -/
structure Copied (base : OrderedMap Bytes Bytes) (s : KVServer) : Prop where
  store : s.kvstore.backend.store = applyAll base s.applied
  still : ∀ action ∈ s.critical, action.copies = true → ∀ e, Action.processEntry e ∉ s.critical
  data : ∀ n data, Action.createSnapshot n data ∈ s.critical → data = s.kvstore.serialize

namespace Copied
variable {base : OrderedMap Bytes Bytes} {s s' : KVServer}

theorem act (h : Copied base s) (hs : s.step .act = some s') : Copied base s' := by
  obtain ⟨action, rest, hcritical, hperform⟩ := step_act hs
  have hp := perform_performed hperform
  have hmem {a : Action} (ha : a ∈ rest) : a ∈ s.critical := hcritical ▸ List.mem_cons_of_mem _ ha
  have hprocess {e : RaftEntry} (he : Action.processEntry e ∈ s'.critical) :
      Action.processEntry e ∈ s.critical := by
    rw [hp.critical] at he
    rcases List.mem_append.mp he with he | he
    · cases action with
      | serialize n => cases List.mem_singleton.mp he
      | _ => cases he
    · exact hmem he
  refine ⟨?_, fun a ha hcopies e he => ?_, fun n data hdata => ?_⟩
  · rw [hp.kvstore, store_processRaftEntries, hp.applied]
    dsimp only
    rw [h.store, applyAll, applyAll, applyAll, List.foldl_append]
  · rw [hp.critical] at ha
    rcases List.mem_append.mp ha with ha | ha
    · cases action with
      | serialize n =>
        exact h.still (.serialize n) (hcritical ▸ List.mem_cons_self) rfl e (hprocess he)
      | _ => cases ha
    · exact h.still a (hmem ha) hcopies e (hprocess he)
  · rw [hp.critical] at hdata
    rw [hp.kvstore]
    rcases List.mem_append.mp hdata with hdata | hdata
    · cases action with
      | serialize n => exact (Action.createSnapshot.inj (List.mem_singleton.mp hdata)).2
      | _ => cases hdata
    · -- no entry has been given to the store since the data was taken
      have hnone : action.processed = [] := by
        cases action with
        | processEntry e =>
          exact absurd (hcritical ▸ List.mem_cons_self) (h.still _ (hmem hdata) rfl e)
        | _ => rfl
      rw [hnone]
      exact h.data n data (hmem hdata)

theorem step (h : Copied base s) {event : Event} (hrunning : ∀ closed, event ≠ .restart closed)
    (hs : s.step event = some s') : Copied base s' := by
  by_cases hact : event = .act
  · subst hact
    exact h.act hs
  have hsame := step_undisturbed hact hrunning hs
  refine ⟨by rw [hsame.kvstore, hsame.applied, h.store], ?_, ?_⟩
  · rcases hsame.critical with heq | ⟨_, ⟨entries, heq⟩ | ⟨n, _, heq⟩⟩
    · rw [heq]
      exact h.still
    · rw [heq]
      intro a ha hcopies
      simp only [raftReadyHandler, List.mem_append, List.mem_map, List.mem_cons,
        List.not_mem_nil, or_false] at ha
      obtain ⟨e, _, rfl⟩ | rfl | rfl | rfl := ha <;> cases hcopies
    · rw [heq]
      intro a _ _ e he
      simp [takeSnapshot] at he
  · rw [hsame.kvstore]
    rcases hsame.critical with heq | ⟨_, ⟨entries, heq⟩ | ⟨n, _, heq⟩⟩
    · rw [heq]
      exact h.data
    · simp [heq, raftReadyHandler]
    · simp [heq, takeSnapshot]

end Copied

end KVServer
end MyEtcd
