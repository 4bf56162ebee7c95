import MyEtcd.Storage.KVStore

/-! The bytes that stand for the contents of a store in a snapshot.
Lengths and the number of pairs are stored in four bytes each, and below that bound everything is
read back. -/
namespace MyEtcd
open Library

namespace KVStore

/-- The lengths and the number of pairs have room in their fields. -/
structure Encodable (contents : OrderedMap Bytes Bytes) : Prop where
  count : contents.size < 2 ^ 32
  key : ∀ e ∈ contents.entries, e.1.length < 2 ^ 32
  value : ∀ e ∈ contents.entries, e.2.length < 2 ^ 32

def writePair (e : Bytes × Bytes) : Bytes := writeStr e.1 ++ writeStr e.2

theorem serialize_eq (s : KVStore) : s.serialize =
    writeU32 s.backend.store.size ++ s.backend.store.entries.flatMap writePair := by
  have hpairs : (s.backend.keys.flatMap fun key =>
      writeStr key ++ writeStr ((s.backend.get key).getD [])) =
        s.backend.store.entries.flatMap writePair := by
    rw [Backend.keys, OrderedMap.keys, List.flatMap_map]
    refine List.flatMap_congr fun e he => ?_
    rw [Backend.get, (OrderedMap.mem_entries_iff _ e.1 e.2).mp he]
    rfl
  rw [serialize, hpairs, Backend.keys, OrderedMap.length_keys]

theorem length_writeStr (s : Bytes) : (writeStr s).length = 4 + s.length := by
  rw [writeStr, List.length_append, writeU32, length_toLittleEndian]

/-- Every pair takes more than its strings, so a short snapshot has small ones. -/
theorem encodable_of_length {s : KVStore} (h : s.serialize.length < 2 ^ 32) :
    Encodable s.backend.store := by
  rw [serialize_eq, List.length_append] at h
  have hpairs (l : List (Bytes × Bytes)) : l.length ≤ (l.flatMap writePair).length ∧
      ∀ e ∈ l, e.1.length + e.2.length ≤ (l.flatMap writePair).length := by
    induction l with
    | nil => simp
    | cons e rest ih =>
      have hpair : (writePair e).length = 8 + (e.1.length + e.2.length) := by
        rw [writePair, List.length_append, length_writeStr, length_writeStr]
        omega
      rw [List.flatMap_cons, List.length_append, List.length_cons, hpair]
      refine ⟨by omega, fun x hx => ?_⟩
      rcases List.mem_cons.mp hx with rfl | hx
      · omega
      · have := ih.2 x hx
        omega
  obtain ⟨hcount, hlengths⟩ := hpairs s.backend.store.entries
  refine ⟨?_, fun e he => ?_, fun e he => ?_⟩
  · rw [OrderedMap.size]
    omega
  · have := hlengths e he
    omega
  · have := hlengths e he
    omega

theorem readU32_of {data : Bytes} {offset n : Nat} (h : StandsAt data offset (writeU32 n))
    (hn : n < 2 ^ 32) : readU32 data offset = some (n, offset + 4) := by
  have hbytes := h.bytesAt
  rw [writeU32, length_toLittleEndian] at hbytes
  rw [readU32, hbytes, Option.map_some, ofLittleEndian_toLittleEndian (by omega)]

theorem readStr_of {data : Bytes} {offset : Nat} {s : Bytes} (h : StandsAt data offset (writeStr s))
    (hs : s.length < 2 ^ 32) : readStr data offset = some (s, offset + (writeStr s).length) := by
  obtain ⟨hlen, hbytes⟩ := StandsAt.append.mp h
  rw [writeU32, length_toLittleEndian] at hbytes
  simp only [readStr, readU32_of hlen hs, hbytes.bytesAt, length_writeStr, Nat.add_assoc]

theorem readPairs_of {data : Bytes} {entries : List (Bytes × Bytes)} {offset : Nat}
    (h : StandsAt data offset (entries.flatMap writePair))
    (hkey : ∀ e ∈ entries, e.1.length < 2 ^ 32) (hvalue : ∀ e ∈ entries, e.2.length < 2 ^ 32)
    (kvs : OrderedMap Bytes Bytes) : readPairs data entries.length offset kvs =
      some (entries.foldl (fun kvs e => kvs.insert e.1 e.2) kvs) := by
  induction entries generalizing offset kvs with
  | nil => rfl
  | cons e rest ih =>
    obtain ⟨hpair, hrest⟩ := StandsAt.append.mp h
    obtain ⟨hk, hv⟩ := StandsAt.append.mp hpair
    have hfits := hk.fits
    rw [length_writeStr] at hfits
    have hnext : offset + (writePair e).length =
        offset + (writeStr e.1).length + (writeStr e.2).length := by
      rw [writePair, List.length_append, Nat.add_assoc]
    rw [List.length_cons, readPairs, if_neg (by omega),
      readStr_of hk (hkey e List.mem_cons_self)]
    dsimp only
    rw [readStr_of hv (hvalue e List.mem_cons_self)]
    dsimp only
    rw [← hnext, List.foldl_cons]
    exact ih hrest (fun x hx => hkey x (List.mem_cons_of_mem _ hx))
      (fun x hx => hvalue x (List.mem_cons_of_mem _ hx)) _

theorem readU32_serialize {s : KVStore} (h : Encodable s.backend.store) :
    readU32 s.serialize 0 = some (s.backend.store.size, 4) := by
  have hstands : StandsAt s.serialize 0 s.serialize := ⟨[], [], by simp, rfl⟩
  nth_rewrite 2 [serialize_eq] at hstands
  exact readU32_of (StandsAt.append.mp hstands).1 h.count

/-- The pairs of a store are read back as the map they came from. -/
theorem readPairs_serialize {s : KVStore} (h : Encodable s.backend.store) :
    readPairs s.serialize s.backend.store.size 4 ∅ = some s.backend.store := by
  have hstands : StandsAt s.serialize 0 s.serialize := ⟨[], [], by simp, rfl⟩
  nth_rewrite 2 [serialize_eq] at hstands
  obtain ⟨_, hpairs⟩ := StandsAt.append.mp hstands
  rw [writeU32, length_toLittleEndian] at hpairs
  refine (readPairs_of hpairs h.key h.value ∅).trans (congrArg some ?_)
  refine OrderedMap.ext_get? fun k => ?_
  rw [OrderedMap.get?_foldl_insert_entries]
  exact Option.or_none

/-- A store without anything in it takes over the whole snapshot, each key with a version of its
own. -/
theorem deserialize_serialize {s : KVStore} (h : Encodable s.backend.store) :
    deserialize {} s.serialize = some (true,
      { mvcc := s.backend.store.entries.foldl rebuildKey {}, backend := s.backend }) := by
  rw [deserialize, readU32_serialize h]
  dsimp only
  rw [readPairs_serialize h, Option.map_some]
  exact congrArg (fun backend => some (true, KVStore.mk _ backend)) (Backend.putAll_entries _)

end KVStore
end MyEtcd
