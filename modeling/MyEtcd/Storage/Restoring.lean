import MyEtcd.Storage.SnapshotData

/-! What a store makes of snapshot data. The pairs are put over what is there, so that keys which the
data do not have stay. -/
namespace MyEtcd
open Library

/-- The versions have the contents as their newest values. -/
def Shows (mvcc : MVCC) (contents : OrderedMap Bytes Bytes) : Prop :=
  ∀ key, (mvcc.get key 0).map KeyValue.value = contents.get? key

namespace Shows
variable {mvcc : MVCC} {contents : OrderedMap Bytes Bytes}

theorem write (h : Shows mvcc contents) {w : Write} {contents' : OrderedMap Bytes Bytes}
    (hcontents : ∀ key, contents'.get? key =
      if w.key = key then w.content.map Content.value else contents.get? key) :
    Shows (mvcc.write w) contents' := by
  intro key
  have hget := congrArg (Option.map Content.value) (mvcc.content_get_write w key)
  have hvalue (kv : Option KeyValue) :
      (kv.map KeyValue.content).map Content.value = kv.map KeyValue.value := by
    rw [Option.map_map]
    rfl
  rw [hvalue] at hget
  rw [hget, hcontents]
  split_ifs
  · rfl
  · rw [hvalue, h key]

theorem put (h : Shows mvcc contents) (key : Bytes) (rev : Int) (value : Bytes) (leaseId : Int) :
    Shows (mvcc.put key rev value leaseId) (contents.insert key value) := by
  refine h.write (w := .put key rev value leaseId) fun key' => ?_
  rw [OrderedMap.get?_insert]
  by_cases hkey : key' = key
  · simp [hkey, Write.key, Write.content]
  · simp [hkey, Ne.symm hkey, Write.key]

theorem delete (h : Shows mvcc contents) (key : Bytes) (rev : Int) :
    Shows (mvcc.delete key rev) (contents.erase key) := by
  refine h.write (w := .delete key rev) fun key' => ?_
  rw [OrderedMap.get?_erase]
  by_cases hkey : key' = key
  · simp [hkey, Write.key, Write.content]
  · simp [hkey, Ne.symm hkey, Write.key]

theorem rebuild {backend : Backend} (h : Shows mvcc backend.store) (l : List (Bytes × Bytes)) :
    Shows (l.foldl KVStore.rebuildKey mvcc) (backend.putAll l).store := by
  induction l generalizing mvcc backend with
  | nil => exact h
  | cons e rest ih =>
    have hallocated : Shows mvcc.allocateRevision.2 backend.store := h
    have hkey : Shows (KVStore.rebuildKey mvcc e) (backend.put e.1 e.2).store :=
      hallocated.put e.1 _ e.2 0
    exact ih hkey

end Shows

/-- A snapshot is loaded with its versions and its values in step. -/
theorem shows_deserialize {data : Bytes} {r : Bool × KVStore}
    (h : KVStore.deserialize {} data = some r) : Shows r.2.mvcc r.2.backend.store := by
  have hempty : Shows {} (Backend.store {}) := fun key => rfl
  unfold KVStore.deserialize at h
  cases hcount : KVStore.readU32 data 0 with
  | none =>
    rw [hcount] at h
    obtain rfl := Option.some.inj h
    exact hempty
  | some c =>
    rw [hcount] at h
    obtain ⟨kvs, _, rfl⟩ := Option.map_eq_some_iff.mp h
    exact hempty.rebuild kvs.entries

theorem shows_visible (mvcc : MVCC) : Shows mvcc ((mvcc.visible 0).map KeyValue.value) := by
  intro key
  rw [OrderedMap.get?_map, MVCC.get_eq]

namespace KVStore

theorem get_putAll_entries (b : Backend) (kvs : OrderedMap Bytes Bytes) (key : Bytes) :
    (b.putAll kvs.entries).get key = (kvs.get? key).or (b.get key) := by
  rw [Backend.get_putAll, Backend.putAll_entries]
  rfl

theorem value_get (s : KVStore) (key : Bytes) : (s.get key 0).map KeyValue.value =
    ((s.mvcc.get key 0).map KeyValue.value).map fun v => (s.backend.get key).getD v := by
  rw [get, Option.map_map, Option.map_map]
  rfl

theorem mem_keys_iff (s : KVStore) (key : Bytes) : key ∈ s.keys ↔ (s.mvcc.get key 0).isSome := by
  rw [keys, MVCC.keys_eq, OrderedMap.mem_keys_iff, ← MVCC.get_eq]

/-- The versions decide which keys there are, and the backend which values they have. -/
theorem reads_of_shows {s : KVStore} {contents : OrderedMap Bytes Bytes}
    (h : Shows s.mvcc contents) : s.keys = contents.keys ∧
      ∀ key, (s.get key 0).map KeyValue.value =
        (contents.get? key).map fun v => (s.backend.get key).getD v := by
  refine ⟨?_, fun key => by rw [value_get, h key]⟩
  refine (MVCC.keys_eq _).trans (OrderedMap.keys_congr fun key => ?_)
  rw [← MVCC.get_eq, ← h key, Option.isSome_map]

section
variable {s : KVStore} {data : Bytes} {kvs : OrderedMap Bytes Bytes} {count offset : Nat}

/-- The pairs that have been read hide what was there under their keys, and nothing else. -/
theorem deserialize_over (hcount : readU32 data 0 = some (count, offset))
    (hpairs : readPairs data count offset ∅ = some kvs) :
    ∃ restored, deserialize s data = some (true, restored) ∧
      (∀ key, (restored.get key 0).map KeyValue.value =
        (kvs.get? key).or ((s.get key 0).map KeyValue.value)) ∧
      ∀ key, key ∈ restored.keys ↔ key ∈ kvs.keys ∨ key ∈ s.keys := by
  obtain ⟨mvcc, hmvcc⟩ : ∃ mvcc, mvcc = kvs.entries.foldl rebuildKey s.mvcc := ⟨_, rfl⟩
  have hshown (key : Bytes) : (mvcc.get key 0).map KeyValue.value =
      (kvs.get? key).or ((s.mvcc.get key 0).map KeyValue.value) := by
    have hvisible : Shows s.mvcc (Backend.mk ((s.mvcc.visible 0).map KeyValue.value)).store :=
      shows_visible s.mvcc
    rw [hmvcc, hvisible.rebuild kvs.entries key, ← Backend.get, get_putAll_entries, Backend.get,
      OrderedMap.get?_map, MVCC.get_eq]
  refine ⟨⟨mvcc, s.backend.putAll kvs.entries⟩, ?_, fun key => ?_, fun key => ?_⟩
  · rw [deserialize, hcount]
    dsimp only
    rw [hpairs, Option.map_some, hmvcc]
    rfl
  · rw [value_get, value_get, hshown, get_putAll_entries]
    cases kvs.get? key <;> rfl
  · rw [mem_keys_iff, mem_keys_iff, OrderedMap.mem_keys_iff, ← Option.isSome_map, hshown,
      Option.isSome_or, Option.isSome_map, Bool.or_eq_true]

end

/-- Restoring never takes a key away. -/
theorem deserialize_keeps {s restored : KVStore} {data : Bytes} {taken : Bool}
    (h : deserialize s data = some (taken, restored)) : ∀ key ∈ s.keys, key ∈ restored.keys := by
  intro key hmem
  cases hcount : readU32 data 0 with
  | none =>
    rw [deserialize, hcount] at h
    obtain rfl := (Prod.mk.inj (Option.some.inj h)).2
    exact hmem
  | some c =>
    cases hpairs : readPairs data c.1 c.2 ∅ with
    | none =>
      rw [deserialize, hcount] at h
      dsimp only at h
      rw [hpairs] at h
      cases h
    | some kvs =>
      obtain ⟨restored', hrestored, _, hkeys⟩ := deserialize_over hcount hpairs
      obtain rfl := (Prod.mk.inj (Option.some.inj (hrestored.symm.trans h))).2
      exact (hkeys key).mpr (.inr hmem)

/-- The store shows exactly what the other one has in its backend. -/
def ShowsOnly (s source : KVStore) : Prop :=
  s.keys = source.backend.keys ∧
    ∀ key, (s.get key 0).map KeyValue.value = source.backend.get key

/-- Restoring the snapshot of `source` succeeds and leaves nothing else in the store. -/
def Replaces (s source : KVStore) : Prop :=
  ∃ restored, deserialize s source.serialize = some (true, restored) ∧ ShowsOnly restored source

section
variable {s source : KVStore}

theorem Replaces.keys_sub (h : Replaces s source) : ∀ key ∈ s.keys, key ∈ source.backend.keys := by
  obtain ⟨restored, hrestored, hkeys, _⟩ := h
  rw [← hkeys]
  exact deserialize_keeps hrestored

theorem replaces_of_sub (h : Encodable source.backend.store)
    (hsub : ∀ key ∈ s.keys, key ∈ source.backend.keys) : Replaces s source := by
  obtain ⟨restored, hrestored, hget, hkeys⟩ : ∃ restored, deserialize s source.serialize = _ ∧ _ :=
    deserialize_over (readU32_serialize h) (readPairs_serialize h)
  refine ⟨restored, hrestored, ?_, fun key => ?_⟩
  · rw [keys, MVCC.keys_eq]
    refine OrderedMap.keys_congr fun key => Bool.eq_iff_iff.mpr ?_
    rw [← MVCC.get_eq, ← mem_keys_iff, hkeys, ← OrderedMap.mem_keys_iff]
    exact or_iff_left_of_imp (hsub key)
  · rw [hget]
    cases hfound : source.backend.store.get? key with
    | some v => exact hfound.symm
    | none =>
      have hgone : key ∉ s.keys := fun hmem => by
        have hmem := hsub key hmem
        rw [Backend.keys, OrderedMap.mem_keys_iff, hfound] at hmem
        cases hmem
      rw [mem_keys_iff, Option.not_isSome_iff_eq_none] at hgone
      rw [value_get, hgone]
      exact hfound.symm

end

/-- Two stores show the same after restoring one snapshot, namely what it holds, only if neither had
a key that the snapshot does not have; and if so, they do unless a size has no room in its field. -/
theorem restored_alike_iff (s₁ s₂ source : KVStore) :
    (Replaces s₁ source ∧ Replaces s₂ source → (∀ key ∈ s₁.keys, key ∈ source.backend.keys) ∧
      ∀ key ∈ s₂.keys, key ∈ source.backend.keys) ∧
    (Encodable source.backend.store → (∀ key ∈ s₁.keys, key ∈ source.backend.keys) →
      (∀ key ∈ s₂.keys, key ∈ source.backend.keys) → Replaces s₁ source ∧ Replaces s₂ source) :=
  ⟨fun h => ⟨h.1.keys_sub, h.2.keys_sub⟩,
    fun h hsub₁ hsub₂ => ⟨replaces_of_sub h hsub₁, replaces_of_sub h hsub₂⟩⟩

/-- A key survives the restoring of an empty snapshot. -/
theorem restoring_keeps_key : ¬ (Replaces (run {} [.put [107] [97] 0]) {} ∧ Replaces {} {}) := by
  rintro ⟨hreplaces, _⟩
  have hmem : [107] ∈ Backend.keys {} := hreplaces.keys_sub [107] (by decide +kernel)
  cases hmem

section
variable {data : Bytes} {offset : Nat}

def strEnd (data : Bytes) (offset : Nat) : Nat :=
  if offset + 4 + lengthAt data offset ≤ data.length then offset + 4 + lengthAt data offset
  else offset + 4

/-- The length fields that the loop over `count` pairs comes to lie inside the data. -/
def PairsInside (data : Bytes) : Nat → Nat → Prop
  | 0, _ => True
  | count + 1, offset =>
    offset < data.length → offset + 4 ≤ data.length ∧ strEnd data offset + 4 ≤ data.length ∧
      PairsInside data count (strEnd data (strEnd data offset))

theorem readU32_eq (data : Bytes) (offset : Nat) : readU32 data offset =
    if offset + 4 ≤ data.length then some (lengthAt data offset, offset + 4) else none := by
  unfold readU32 bytesAt lengthAt
  split_ifs <;> rfl

theorem readStr_of_le (h : offset + 4 ≤ data.length) :
    ∃ s, readStr data offset = some (s, strEnd data offset) := by
  rw [readStr, readU32_eq, if_pos h, strEnd]
  dsimp only
  rw [bytesAt]
  split_ifs
  · exact ⟨_, rfl⟩
  · exact ⟨_, rfl⟩

theorem readStr_of_not_le (h : ¬ offset + 4 ≤ data.length) : readStr data offset = none := by
  rw [readStr, readU32_eq, if_neg h]

theorem isSome_readPairs (data : Bytes) (count offset : Nat) (kvs : OrderedMap Bytes Bytes) :
    (readPairs data count offset kvs).isSome ↔ PairsInside data count offset := by
  induction count generalizing offset kvs with
  | zero => exact iff_of_true rfl trivial
  | succ count ih =>
    rw [readPairs, PairsInside]
    by_cases hend : offset ≥ data.length
    · rw [if_pos hend]
      exact iff_of_true rfl fun hlt => by omega
    rw [if_neg hend, forall_prop_of_true (by omega)]
    by_cases hkeyLen : offset + 4 ≤ data.length
    swap
    · rw [readStr_of_not_le hkeyLen]
      exact iff_of_false Bool.false_ne_true fun h => hkeyLen h.1
    obtain ⟨key, hkey⟩ := readStr_of_le hkeyLen
    rw [hkey, and_iff_right hkeyLen]
    dsimp only
    by_cases hvalueLen : strEnd data offset + 4 ≤ data.length
    · obtain ⟨value, hvalue⟩ := readStr_of_le hvalueLen
      rw [hvalue, and_iff_right hvalueLen]
      exact ih _ _
    · rw [readStr_of_not_le hvalueLen]
      exact iff_of_false Bool.false_ne_true fun h => hvalueLen h.1

theorem deserialize_short (s : KVStore) (h : data.length < 4) :
    deserialize s data = some (false, s) := by
  rw [deserialize, readU32_eq, if_neg (by omega)]

/-- Data that has the number of pairs is either read past its end or taken. -/
theorem deserialize_taken (s : KVStore) (h : 4 ≤ data.length) :
    (¬ PairsInside data (lengthAt data 0) 4 ∧ deserialize s data = none) ∨
      (PairsInside data (lengthAt data 0) 4 ∧
        ∃ restored, deserialize s data = some (true, restored)) := by
  rw [deserialize, readU32_eq, if_pos (by omega), ← isSome_readPairs data _ _ ∅]
  dsimp only
  cases readPairs data (lengthAt data 0) (0 + 4) ∅ with
  | none => exact .inl ⟨Bool.false_ne_true, rfl⟩
  | some kvs => exact .inr ⟨rfl, _, rfl⟩

end

/-- Nothing is read behind the data, and what is not the output of a store is refused and changes
nothing that can be read. -/
def RefusesMalformed (s : KVStore) (data : Bytes) : Prop :=
  deserialize s data ≠ none ∧ ((∃ source, data = serialize source) ∨
    ∃ s', deserialize s data = some (false, s') ∧ s'.keys = s.keys ∧
      ∀ key rev, s'.get key rev = s.get key rev)

/-- Data is handled cleanly exactly when it is too short for the number of pairs, or it is the
output of a store and has all its length fields inside. -/
theorem refusesMalformed_iff (s : KVStore) (data : Bytes) : RefusesMalformed s data ↔
    data.length < 4 ∨
      (∃ source, data = serialize source) ∧ PairsInside data (lengthAt data 0) 4 := by
  by_cases hshort : data.length < 4
  · have hrefused := deserialize_short s hshort
    refine iff_of_true ⟨?_, .inr ⟨s, hrefused, rfl, fun key rev => rfl⟩⟩ (.inl hshort)
    rw [hrefused]
    exact Option.some_ne_none _
  rw [RefusesMalformed, or_iff_right hshort]
  rcases deserialize_taken s (Nat.le_of_not_lt hshort) with ⟨houtside, hnone⟩ | ⟨hinside, restored, hsome⟩
  · exact iff_of_false (fun h => h.1 hnone) fun h => houtside h.2
  · rw [hsome, and_iff_right (Option.some_ne_none _), and_iff_left hinside]
    refine or_iff_left ?_
    rintro ⟨s', hrefused, _⟩
    cases hrefused

/-- A byte behind the number of pairs is taken for a length of four bytes. -/
theorem lone_byte_read_outside : ¬ RefusesMalformed {} [1, 0, 0, 0, 0] := by
  rintro ⟨hread, _⟩
  exact hread (by decide +kernel)

/-- The output of a store whose sizes have room in their fields has the fields inside. -/
theorem pairsInside_serialize {s : KVStore} (h : Encodable s.backend.store) :
    PairsInside s.serialize (lengthAt s.serialize 0) 4 := by
  have hcount := readU32_serialize h
  rw [readU32_eq] at hcount
  split_ifs at hcount
  rw [(Prod.mk.inj (Option.some.inj hcount)).1, ← isSome_readPairs _ _ _ ∅, readPairs_serialize h]
  rfl

end KVStore
end MyEtcd
