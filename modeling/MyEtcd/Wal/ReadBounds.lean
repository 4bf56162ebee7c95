import MyEtcd.Wal.Frames

/-! Where reading a record stays inside the file, whatever bytes the file holds. -/
namespace MyEtcd
open Library

namespace WAL

/-- The lengths that the bytes at `offset` claim lie inside the file, as far as the reader relies
on them: the two length fields behind a record's type, and the address and the checksum behind a
membership change. -/
def Inside (data : Bytes) (offset : Nat) : Prop :=
  let key := offset + 22
  let value := key + 4 + lengthAt data key
  let lease := value + 4 + lengthAt data value
  let addr := lease + 17
  data[offset + 4]? = some WalRecordType.entry.toByte → key ≤ data.length →
    value + 4 ≤ data.length ∧
    (data[offset + 21]?.map EventType.ofByte = some .confChange → addr + 4 ≤ data.length →
      addr + 4 + lengthAt data addr + 4 ≤ data.length)

instance (data : Bytes) (offset : Nat) : Decidable (Inside data offset) := by
  unfold Inside
  infer_instance

/-- `deserializeEntry` from the membership change on. -/
def readChange (data : Bytes) (crcStart offset : Nat) (entry : RaftEntry) : Option RaftEntry := do
  if ¬ offset + (1 + 8 + 4) ≤ data.length then return entry
  let (ccType, offset) ← readU8 data offset
  let (nodeId, offset) ← readU64 data offset
  let (peerAddr, offset) ← readStr data offset
  verifyCrc data crcStart offset
    { entry with confChange := { type := .ofByte ccType, nodeId, peerAddr } }

/-- `deserializeEntry` from the lease id on. -/
def readLease (data : Bytes) (crcStart offset : Nat) (entry : RaftEntry) : Option RaftEntry := do
  if ¬ offset + (8 + 4) ≤ data.length then return entry
  let (lease, offset) ← readU64 data offset
  let entry := { entry with leaseId := leaseOfBits lease }
  if entry.type = .confChange then readChange data crcStart offset entry
  else verifyCrc data crcStart offset entry

/-- `deserializeEntry` from the term on. -/
def readFields (data : Bytes) (crcStart offset : Nat) : Option RaftEntry := do
  let (term, offset) ← readU64 data offset
  let (index, offset) ← readU64 data offset
  let (type, offset) ← readU8 data offset
  let (key, offset) ← readStr data offset
  let (value, offset) ← readStr data offset
  readLease data crcStart offset { term, index, type := .ofByte type, key, value }

/-- The type of an entry's record stands there, with room for the fixed fields behind it. -/
def EntryHead (data : Bytes) (offset : Nat) : Prop :=
  data[offset + 4]? = some WalRecordType.entry.toByte ∧ offset + 22 ≤ data.length

section
variable {data : Bytes} {offset : Nat}

theorem readU8_of_le (h : offset + 1 ≤ data.length) :
    ∃ b, data[offset]? = some b ∧ readU8 data offset = some (b, offset + 1) := by
  have hget := List.getElem?_eq_getElem (l := data) (i := offset) (by omega)
  exact ⟨_, hget, by rw [readU8, hget, Option.map_some]⟩

theorem readU64_of_le (h : offset + 8 ≤ data.length) :
    ∃ v, readU64 data offset = some (v, offset + 8) := by
  rw [readU64, bytesAt, if_pos h]
  exact ⟨_, rfl⟩

/-- A string whose length field is there is read; where it does not fit, the reader goes to the end
of the file. -/
theorem readStr_of_le (h : offset + 4 ≤ data.length) :
    ∃ s, readStr data offset = some (s, min (offset + 4 + lengthAt data offset) data.length) := by
  rw [readStr, readU32_eq, if_pos h]
  by_cases hfits : offset + 4 + lengthAt data offset ≤ data.length
  · rw [Nat.min_eq_left hfits]
    simp [hfits, bytesAt]
  · rw [Nat.min_eq_right (Nat.le_of_not_le hfits)]
    simp [hfits]

theorem readStr_of_not_le (h : ¬ offset + 4 ≤ data.length) : readStr data offset = none := by
  rw [readStr, readU32_eq, if_neg h]
  rfl

theorem isSome_verifyCrc {crcStart : Nat} {entry : RaftEntry} (hle : offset ≤ data.length)
    (hstart : crcStart ≤ data.length) :
    (verifyCrc data crcStart offset entry).isSome ↔ offset + 4 ≤ data.length := by
  have hcovered : crcStart + (offset - crcStart - 4) ≤ data.length := by omega
  rw [verifyCrc, bytesAt, if_pos hcovered, readU32_eq]
  simp only [Option.bind_eq_bind, Option.bind_some]
  split_ifs with hfits <;> simp [hfits]
  split_ifs <;> rfl

theorem deserializeEntry_of_entryHead (h : EntryHead data offset) :
    deserializeEntry data offset = readFields data (offset + 4) (offset + 5) := by
  obtain ⟨hkind, hfixed⟩ := h
  have hread : readU8 data (offset + 4) = some (WalRecordType.entry.toByte, offset + 5) := by
    rw [readU8, hkind]
    rfl
  rw [deserializeEntry, if_neg (by omega), readU32_eq, if_pos (by omega), Option.bind_eq_bind,
    Option.bind_some]
  dsimp only
  rw [if_neg (by omega), hread, Option.bind_eq_bind, Option.bind_some]
  dsimp only
  rw [if_neg (not_not_intro rfl), if_neg (by omega)]
  rfl

theorem deserializeEntry_of_no_entryHead (h : ¬ EntryHead data offset) :
    deserializeEntry data offset = some {} := by
  unfold deserializeEntry
  by_cases hfront : offset + 4 ≤ data.length
  swap
  · exact if_pos hfront
  rw [if_neg (not_not_intro hfront), readU32_eq, if_pos hfront, Option.bind_eq_bind,
    Option.bind_some]
  dsimp only
  by_cases hkind : offset + 4 + 1 ≤ data.length
  swap
  · exact if_pos hkind
  obtain ⟨kind, hget, hread⟩ := readU8_of_le hkind
  rw [if_neg (not_not_intro hkind), hread, Option.bind_eq_bind, Option.bind_some]
  dsimp only
  by_cases hentry : kind = WalRecordType.entry.toByte
  swap
  · exact if_pos hentry
  subst hentry
  rw [if_neg (not_not_intro rfl)]
  exact if_pos fun hfixed => h ⟨hget, by omega⟩

/-- A membership change's address either fits with the checksum behind it, or leaves no room for the
checksum. -/
theorem isSome_readChange {crcStart : Nat} (entry : RaftEntry) (hstart : crcStart ≤ offset) :
    (readChange data crcStart offset entry).isSome ↔
      (offset + 13 ≤ data.length →
        offset + 13 + lengthAt data (offset + 9) + 4 ≤ data.length) := by
  unfold readChange
  by_cases hroom : offset + (1 + 8 + 4) ≤ data.length
  swap
  · rw [if_pos hroom]
    exact iff_of_true rfl fun h => absurd h hroom
  obtain ⟨ccType, _, hccType⟩ := readU8_of_le (by omega : offset + 1 ≤ data.length)
  obtain ⟨nodeId, hnodeId⟩ := readU64_of_le (by omega : offset + 1 + 8 ≤ data.length)
  obtain ⟨addr, haddr⟩ := readStr_of_le (by omega : offset + 1 + 8 + 4 ≤ data.length)
  rw [if_neg (not_not_intro hroom), forall_prop_of_true hroom]
  simp only [Option.bind_eq_bind, hccType, Option.bind_some, hnodeId, haddr]
  rw [isSome_verifyCrc (by omega) (by omega), Nat.add_assoc offset 1 8]
  omega

/-- The fields behind the strings, which end at `lease` or at the end of the file: only a membership
change can make them read outside. -/
theorem isSome_readLease {crcStart lease : Nat} (entry : RaftEntry) (hstart : crcStart ≤ lease) :
    (readLease data crcStart (min lease data.length) entry).isSome ↔
      (entry.type = .confChange → lease + 17 + 4 ≤ data.length →
        lease + 17 + 4 + lengthAt data (lease + 17) + 4 ≤ data.length) := by
  unfold readLease
  by_cases hroom : lease + (8 + 4) ≤ data.length
  swap
  · rw [if_pos (by omega)]
    exact iff_of_true rfl fun _ h => by omega
  rw [if_neg (by omega), Nat.min_eq_left (by omega)]
  obtain ⟨bits, hbits⟩ := readU64_of_le (by omega : lease + 8 ≤ data.length)
  rw [hbits, Option.bind_eq_bind, Option.bind_some]
  dsimp only
  by_cases hconf : entry.type = .confChange
  · rw [if_pos hconf, forall_prop_of_true hconf]
    exact isSome_readChange _ (by omega)
  · rw [if_neg hconf, isSome_verifyCrc (by omega) (by omega)]
    exact iff_of_true (by omega) fun h => absurd h hconf

/-- Every read of a record is in bounds exactly when its lengths are. -/
theorem isSome_deserializeEntry : (deserializeEntry data offset).isSome ↔ Inside data offset := by
  by_cases hhead : EntryHead data offset
  swap
  · rw [deserializeEntry_of_no_entryHead hhead]
    exact iff_of_true rfl fun hkind hfixed => absurd ⟨hkind, hfixed⟩ hhead
  obtain ⟨hkind, hfixed⟩ := hhead
  obtain ⟨term, hterm⟩ := readU64_of_le (by omega : offset + 5 + 8 ≤ data.length)
  obtain ⟨index, hindex⟩ := readU64_of_le (by omega : offset + 5 + 8 + 8 ≤ data.length)
  obtain ⟨type, htype, hread⟩ := readU8_of_le (by omega : offset + 5 + 8 + 8 + 1 ≤ data.length)
  have htype' : data[offset + 21]? = some type := htype
  rw [deserializeEntry_of_entryHead ⟨hkind, hfixed⟩, readFields, Inside, htype',
    forall_prop_of_true hkind, forall_prop_of_true hfixed, Option.map_some, Option.some.injEq]
  simp only [Option.bind_eq_bind, hterm, Option.bind_some, hindex, hread]
  rw [show offset + 5 + 8 + 8 + 1 = offset + 22 by omega]
  have hstart : offset + 4 ≤ offset + 22 := by omega
  generalize offset + 22 = key at hstart hfixed ⊢
  generalize offset + 4 = crcStart at hstart ⊢
  -- the two strings
  by_cases hkeyLen : key + 4 ≤ data.length
  swap
  · rw [readStr_of_not_le hkeyLen]
    exact iff_of_false Bool.false_ne_true fun h => by omega
  obtain ⟨keyRead, hkeyRead⟩ := readStr_of_le hkeyLen
  rw [hkeyRead, Option.bind_some]
  dsimp only
  by_cases hvalueLen : key + 4 + lengthAt data key + 4 ≤ data.length
  swap
  · rw [readStr_of_not_le (by omega)]
    exact iff_of_false Bool.false_ne_true fun h => hvalueLen h.1
  rw [Nat.min_eq_left (by omega)]
  obtain ⟨valueRead, hvalueRead⟩ := readStr_of_le hvalueLen
  rw [hvalueRead, Option.bind_some, and_iff_right hvalueLen]
  exact isSome_readLease { term, index, type := .ofByte type, key := keyRead, value := valueRead }
    (by omega)

end

/-- Replaying a file reads no byte behind its end exactly when the lengths in every record that the
reader comes to lie inside the file. -/
theorem replay_in_bounds_iff (data : Bytes) :
    (∀ offset ∈ frames data 0, (deserializeEntry data offset).isSome) ↔
      ∀ offset ∈ frames data 0, Inside data offset :=
  forall₂_congr fun _ _ => isSome_deserializeEntry

/-- A file whose only record ends where the length of its key should stand. -/
def keylessRecord : Bytes := writeU32 18 ++ List.replicate 18 0

/-- The length of the key is read behind the end. -/
theorem replay_out_of_bounds :
    ¬ ∀ offset ∈ frames keylessRecord 0, (deserializeEntry keylessRecord offset).isSome := by
  intro h
  have hmem : 0 ∈ frames keylessRecord 0 := by
    rw [frames]
    exact List.mem_cons_self
  have hinside := isSome_deserializeEntry.mp (h 0 hmem)
  exact absurd hinside (by decide)

end WAL
end MyEtcd
