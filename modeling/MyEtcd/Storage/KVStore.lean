import MyEtcd.Storage.Backend
import MyEtcd.Storage.Compaction

/-! The key-value store: the versions of every key, and beside them a map of the newest values,
which is what goes into a snapshot. For reads without a revision it is a plain map. -/
namespace MyEtcd
open Library

structure PutWithPrevResult where
  rev : Int
  prevKv : Option KeyValue
  newKv : Option KeyValue

structure KVStore where
  mvcc : MVCC := {}
  backend : Backend := {}

namespace KVStore

def put (s : KVStore) (key value : Bytes) (leaseId : Int) : Int × KVStore :=
  let (rev, mvcc) := s.mvcc.allocateRevision
  (rev, { mvcc := mvcc.put key rev value leaseId, backend := s.backend.put key value })

/-- What the index has found, with the value that the backend has for the key, if any. -/
def refreshed (s : KVStore) (key : Bytes) (kv : KeyValue) : KeyValue :=
  { kv with value := (s.backend.get key).getD kv.value }

def putWithPrev (s : KVStore) (key value : Bytes) (leaseId : Int) : PutWithPrevResult × KVStore :=
  let prevKv := (s.mvcc.get key 0).map (s.refreshed key)
  let (rev, mvcc) := s.mvcc.allocateRevision
  let mvcc := mvcc.put key rev value leaseId
  let newKv := (mvcc.get key 0).map fun kv => { kv with value := value }
  ({ rev, prevKv, newKv }, { mvcc, backend := s.backend.put key value })

def delete (s : KVStore) (key : Bytes) : Int × KVStore :=
  let (rev, mvcc) := s.mvcc.allocateRevision
  (rev, { mvcc := mvcc.delete key rev, backend := s.backend.delete key })

def get (s : KVStore) (key : Bytes) (atRev : Int) : Option KeyValue :=
  (s.mvcc.get key atRev).map fun kv => if atRev = 0 then s.refreshed key kv else kv

/-- Unlike `Get`, both ranges take the newest value at every revision. -/
def range (s : KVStore) (start stop : Bytes) (atRev limit : Int) : List KeyValue :=
  (s.mvcc.range start stop atRev limit).map fun kv => s.refreshed kv.key kv

def prefixRange (s : KVStore) (front : Bytes) (atRev limit : Int) : List KeyValue :=
  (s.mvcc.prefixRange front atRev limit).map fun kv => s.refreshed kv.key kv

def keys (s : KVStore) : List Bytes := s.mvcc.keys

def compact (s : KVStore) (rev : Int) : KVStore := { s with mvcc := s.mvcc.compact rev }

def currentRevision (s : KVStore) : Int := s.mvcc.currentRev

/-- A log index where a revision is expected, which has a sign. -/
def revisionOf (index : Nat) : Int := Int.bmod index (2 ^ 64)

def restoreEntry (s : KVStore) (entry : RaftEntry) : KVStore :=
  match entry.type with
  | .put =>
    { mvcc := s.mvcc.put entry.key (revisionOf entry.index) entry.value entry.leaseId
      backend := s.backend.put entry.key entry.value }
  | .delete =>
    { mvcc := s.mvcc.delete entry.key (revisionOf entry.index)
      backend := s.backend.delete entry.key }
  | _ => s

def restoreFromEntries (s : KVStore) (entries : List RaftEntry) : KVStore :=
  entries.foldl restoreEntry s

def writeU32 (v : Nat) : Bytes := toLittleEndian 4 v

def writeStr (s : Bytes) : Bytes := writeU32 s.length ++ s

def serialize (s : KVStore) : Bytes :=
  writeU32 s.backend.keys.length ++
    s.backend.keys.flatMap fun key => writeStr key ++ writeStr ((s.backend.get key).getD [])

def readU32 (data : Bytes) (offset : Nat) : Option (Nat × Nat) :=
  (bytesAt data offset 4).map fun b => (ofLittleEndian b, offset + 4)

/-- A length that reaches past the end reads as an empty string. -/
def readStr (data : Bytes) (offset : Nat) : Option (Bytes × Nat) :=
  match readU32 data offset with
  | none => none
  | some (len, offset) =>
    match bytesAt data offset len with
    | none => some ([], offset)
    | some s => some (s, offset + len)

/-- The loop over the pairs. Nothing comes of a read past the end, whose behaviour is undefined. -/
def readPairs (data : Bytes) : Nat → Nat → OrderedMap Bytes Bytes →
    Option (OrderedMap Bytes Bytes)
  | 0, _, kvs => some kvs
  | count + 1, offset, kvs =>
    if offset ≥ data.length then some kvs
    else
      match readStr data offset with
      | none => none
      | some (key, offset) =>
        match readStr data offset with
        | none => none
        | some (value, offset) => readPairs data count offset (kvs.insert key value)

/-- A version of its own for a key of a snapshot. -/
def rebuildKey (mvcc : MVCC) (e : Bytes × Bytes) : MVCC :=
  let (rev, mvcc) := mvcc.allocateRevision
  mvcc.put e.1 rev e.2 0

def deserialize (s : KVStore) (data : Bytes) : Option (Bool × KVStore) :=
  match readU32 data 0 with
  | none => some (false, s)
  | some (count, offset) =>
    (readPairs data count offset ∅).map fun kvs =>
      (true, { mvcc := kvs.entries.foldl rebuildKey s.mvcc, backend := s.backend.batchPut kvs })

/-- A call that changes the store. -/
inductive Op where
  | put (key value : Bytes) (leaseId : Int)
  | putWithPrev (key value : Bytes) (leaseId : Int)
  | delete (key : Bytes)
  | compact (rev : Int)

def after (s : KVStore) : Op → KVStore
  | .put key value leaseId => (s.put key value leaseId).2
  | .putWithPrev key value leaseId => (s.putWithPrev key value leaseId).2
  | .delete key => (s.delete key).2
  | .compact rev => s.compact rev

def run (s : KVStore) (ops : List Op) : KVStore := ops.foldl after s

end KVStore

/-- What the store is for: the contents of the keys, and the revision of the next write. -/
structure LatestMap where
  next : Int := 1
  contents : OrderedMap Bytes Content := ∅

namespace LatestMap

def after (m : LatestMap) : KVStore.Op → LatestMap
  | .put key value leaseId | .putWithPrev key value leaseId =>
    { next := m.next + 1, contents := m.contents.insert key ⟨value, m.next, leaseId⟩ }
  | .delete key => { next := m.next + 1, contents := m.contents.erase key }
  | .compact _ => m

def run (m : LatestMap) (ops : List KVStore.Op) : LatestMap := ops.foldl after m

end LatestMap

namespace MVCC

theorem content_read_zero (ki : KeyIndex) (key : Bytes) :
    (ki.read key 0).map KeyValue.content = match ki.versions.getLast? with
      | none => none
      | some back => if back.tombstone then none else some (back.keyValue key).content := by
  rw [KeyIndex.read_eq, if_pos rfl]
  unfold KeyIndex.isDeleted
  cases ki.versions.getLast? with
  | none => rfl
  | some back => cases hback : back.tombstone <;> simp [hback]

/-- The newest read of a key is what the last write to it has left. -/
theorem content_get_write (m : MVCC) (w : Write) (key : Bytes) :
    ((m.write w).get key 0).map KeyValue.content =
      if w.key = key then w.content else (m.get key 0).map KeyValue.content := by
  rw [get_keyIndex, get_keyIndex, keyIndex_write]
  split_ifs with hkey
  · rw [content_read_zero, KeyIndex.versions_record, List.getLast?_concat]
    cases w <;> rfl
  · rfl

theorem get_compact_zero (m : MVCC) (rev : Int) (key : Bytes) :
    (m.compact rev).get key 0 = m.get key 0 := by
  have hlast := (m.keyIndex key).getLast?_compact rev
  have hdeleted : ((m.keyIndex key).compact rev).isDeleted = (m.keyIndex key).isDeleted := by
    unfold KeyIndex.isDeleted
    rw [hlast]
  have hread : ((m.keyIndex key).compact rev).read key 0 = (m.keyIndex key).read key 0 := by
    rw [KeyIndex.read_eq, KeyIndex.read_eq, hdeleted, if_pos rfl, if_pos rfl, hlast]
  rw [get_keyIndex, get_keyIndex, keyIndex_compact]
  split_ifs with hgone
  · have hnone : (m.keyIndex key).isDeleted = true := by
      rcases hgone with hnil | ⟨hgone, _⟩
      · rw [← hdeleted, KeyIndex.isDeleted, List.isEmpty_iff.mp hnil]
        rfl
      · rwa [← hdeleted]
    rw [KeyIndex.read_eq (m.keyIndex key), hnone]
    rfl
  · exact hread

end MVCC

namespace KVStore

/-- The store and the plain map have the same in them, the backend included. -/
structure Mirrors (s : KVStore) (m : LatestMap) : Prop where
  next : s.currentRevision = m.next
  read : ∀ key, (s.mvcc.get key 0).map KeyValue.content = m.contents.get? key
  stored : ∀ key, s.backend.get key = (m.contents.get? key).map Content.value

namespace Mirrors
variable {s : KVStore} {m : LatestMap}

theorem write (h : Mirrors s m) {w : Write} {backend : Backend}
    (hbackend : ∀ key, backend.get key =
      if w.key = key then w.content.map Content.value else s.backend.get key) :
    Mirrors { mvcc := { s.mvcc with currentRev := s.mvcc.currentRev + 1 }.write w, backend }
      { next := m.next + 1, contents := w.apply m.contents } where
  next := by
    rw [← h.next]
    cases w <;> simp only [MVCC.write, MVCC.put, MVCC.delete, currentRevision] <;> split <;> rfl
  read key := by
    rw [MVCC.content_get_write, Write.get?_apply, ← h.read key]
    rfl
  stored key := by
    rw [hbackend, Write.get?_apply, h.stored]
    split_ifs <;> rfl

theorem after (h : Mirrors s m) (op : Op) : Mirrors (s.after op) (m.after op) := by
  obtain ⟨next, contents⟩ := m
  obtain rfl : s.currentRevision = next := h.next
  have hput (key value : Bytes) (leaseId : Int) : Mirrors (s.put key value leaseId).2
      { next := s.currentRevision + 1
        contents := contents.insert key ⟨value, s.currentRevision, leaseId⟩ } := by
    refine h.write (w := .put key s.currentRevision value leaseId) fun key' => ?_
    rw [Backend.get, Backend.put, OrderedMap.get?_insert]
    by_cases hkey : key' = key
    · simp [hkey, Write.key, Write.content]
    · simp [hkey, Ne.symm hkey, Write.key, Backend.get]
  cases op with
  | put key value leaseId => exact hput key value leaseId
  | putWithPrev key value leaseId => exact hput key value leaseId
  | delete key =>
    refine h.write (w := .delete key s.currentRevision) fun key' => ?_
    rw [Backend.get, Backend.delete, OrderedMap.get?_erase]
    by_cases hkey : key' = key
    · simp [hkey, Write.key, Write.content]
    · simp [hkey, Ne.symm hkey, Write.key, Backend.get]
  | compact rev =>
    have hread (key : Bytes) : ((s.mvcc.compact rev).get key 0).map KeyValue.content =
        contents.get? key := by
      rw [s.mvcc.get_compact_zero, h.read]
    exact ⟨h.next, hread, h.stored⟩

theorem run (h : Mirrors s m) (ops : List Op) : Mirrors (s.run ops) (m.run ops) := by
  induction ops generalizing s m with
  | nil => exact h
  | cons op rest ih => exact ih (h.after op)

/-- A read gets from the backend what it already has. -/
theorem refreshed_eq (h : Mirrors s m) {key : Bytes} {kv : KeyValue}
    (hkv : s.mvcc.get key 0 = some kv) : s.refreshed key kv = kv := by
  have hread := h.read key
  rw [hkv] at hread
  rw [refreshed, h.stored, ← hread]
  rfl

theorem labelled (h : Mirrors s m) (limit : Int) (inside : Bytes → Bool) :
    ((truncate limit ((s.mvcc.visible 0).within inside).values).map
        fun kv => s.refreshed kv.key kv).map (fun kv => (kv.key, kv.content)) =
      truncate limit (m.contents.within inside).entries := by
  have hsame : ((s.mvcc.visible 0).within inside).values.map (fun kv => s.refreshed kv.key kv) =
      ((s.mvcc.visible 0).within inside).values := by
    refine (List.map_congr_left fun kv hkv => ?_).trans (List.map_id _)
    exact h.refreshed_eq (MVCC.get_of_mem_values hkv)
  have hcontents : ((s.mvcc.visible 0).within inside).map KeyValue.content =
      m.contents.within inside := by
    refine OrderedMap.ext_get? fun key => ?_
    rw [OrderedMap.get?_map, OrderedMap.get?_within, OrderedMap.get?_within, ← h.read,
      MVCC.get_eq]
    split_ifs <;> rfl
  rw [map_truncate, map_truncate, hsame, MVCC.visible_labelled, hcontents]

end Mirrors

/-- For reads without a revision the store is a plain map, in the order of the keys, whatever
has been written and compacted. -/
theorem latest_reads_refine (ops : List Op) :
    (∀ key, (((run {} ops).get key 0).map fun kv => (kv.key, kv.content)) =
      ((LatestMap.run {} ops).contents.get? key).map fun c => (key, c)) ∧
    (run {} ops).keys = (LatestMap.run {} ops).contents.keys ∧
    (∀ start stop limit, ((run {} ops).range start stop 0 limit).map
        (fun kv => (kv.key, kv.content)) =
      truncate limit ((LatestMap.run {} ops).contents.within fun key =>
        start ≤ key ∧ OrderedMap.below stop key).entries) ∧
    (∀ front limit, ((run {} ops).prefixRange front 0 limit).map
        (fun kv => (kv.key, kv.content)) =
      truncate limit ((LatestMap.run {} ops).contents.within fun key =>
        front.isPrefixOf key).entries) ∧
    ∀ key value leaseId,
      (((run {} ops).putWithPrev key value leaseId).1.prevKv.map
        fun kv => (kv.key, kv.content)) =
          ((LatestMap.run {} ops).contents.get? key).map (fun c => (key, c)) ∧
      (((run {} ops).putWithPrev key value leaseId).1.newKv.map
        fun kv => (kv.key, kv.content)) =
          (((LatestMap.run {} ops).after (.putWithPrev key value leaseId)).contents.get? key).map
            fun c => (key, c) := by
  have h : Mirrors (run {} ops) (LatestMap.run {} ops) :=
    Mirrors.run ⟨rfl, fun _ => rfl, fun _ => rfl⟩ ops
  generalize run {} ops = s at h ⊢
  generalize LatestMap.run {} ops = m at h ⊢
  have hread {s : KVStore} {m : LatestMap} (h : Mirrors s m) (key : Bytes) :
      ((s.mvcc.get key 0).map (s.refreshed key)).map (fun kv => (kv.key, kv.content)) =
        (m.contents.get? key).map fun c => (key, c) := by
    rw [← h.read key]
    cases hget : s.mvcc.get key 0 with
    | none => rfl
    | some kv => simp [h.refreshed_eq hget, MVCC.key_of_get hget]
  refine ⟨hread h, ?_, fun start stop limit => ?_, fun front limit => ?_,
    fun key value leaseId => ⟨hread h key, ?_⟩⟩
  · refine (MVCC.keys_eq _).trans (OrderedMap.keys_congr fun key => ?_)
    rw [← h.read, Option.isSome_map, MVCC.get_eq]
  · rw [range, MVCC.range_eq, h.labelled]
  · rw [prefixRange, MVCC.prefixRange_eq, h.labelled]
  · have hnew := (h.after (.putWithPrev key value leaseId)).read key
    have hcontents : (m.after (.putWithPrev key value leaseId)).contents.get? key =
        some ⟨value, m.next, leaseId⟩ := OrderedMap.get?_insert_self _ key _
    rw [hcontents] at hnew ⊢
    obtain ⟨kv, hget, hkv⟩ := Option.map_eq_some_iff.mp hnew
    have hvalue : kv.value = value := congrArg Content.value hkv
    have hnewKv : (s.putWithPrev key value leaseId).1.newKv = some kv := by
      have hsame : { kv with value := value } = kv := by rw [← hvalue]
      exact (congrArg (Option.map fun kv : KeyValue => { kv with value := value }) hget).trans
        (congrArg some hsame)
    rw [hnewKv, Option.map_some, Option.map_some, hkv, MVCC.key_of_get hget]

end KVStore
end MyEtcd
