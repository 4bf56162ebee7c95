import MyEtcd.Wal.ReadBounds

/-! What the reader makes of a record, told by the bytes that stand there. -/
namespace MyEtcd
open Library

namespace WAL

/-- Where the length of the value stands in the record at `offset`. -/
def valueOffset (data : Bytes) (offset : Nat) : Nat := offset + 26 + lengthAt data (offset + 22)

/-- Where the lease id stands in the record at `offset`. -/
def leaseOffset (data : Bytes) (offset : Nat) : Nat :=
  valueOffset data offset + 4 + lengthAt data (valueOffset data offset)

def ChangesMembers (data : Bytes) (offset : Nat) : Prop :=
  data[offset + 21]? = some EventType.confChange.toByte

instance (data : Bytes) (offset : Nat) : Decidable (ChangesMembers data offset) :=
  inferInstanceAs (Decidable (_ = _))

/-- Where the checksum stands in the record at `offset`. -/
def crcOffset (data : Bytes) (offset : Nat) : Nat :=
  if ChangesMembers data offset then
    leaseOffset data offset + 21 + lengthAt data (leaseOffset data offset + 17)
  else leaseOffset data offset + 8

/-- The file is long enough for the reader to come to the checksum. -/
def Checked (data : Bytes) (offset : Nat) : Prop :=
  leaseOffset data offset + 12 ≤ data.length ∧
    (ChangesMembers data offset → leaseOffset data offset + 21 ≤ data.length)

instance (data : Bytes) (offset : Nat) : Decidable (Checked data offset) :=
  inferInstanceAs (Decidable (_ ∧ _))

/-- The stored checksum is that of the bytes from the record type on, less four at the end. -/
def CrcMatches (data : Bytes) (offset : Nat) : Prop :=
  (CRC32.compute ((data.drop (offset + 4)).take
    (crcOffset data offset - (offset + 4) - 4))).toNat = lengthAt data (crcOffset data offset)

instance (data : Bytes) (offset : Nat) : Decidable (CrcMatches data offset) :=
  inferInstanceAs (Decidable (_ = _))

/-- The bytes at `offset` pass for the record of an entry: the record type, an index above zero, and
the checksum where the reader comes to it. -/
def Accepted (data : Bytes) (offset : Nat) : Prop :=
  data[offset + 4]? = some WalRecordType.entry.toByte ∧ offset + 22 ≤ data.length ∧
    0 < ofLittleEndian ((data.drop (offset + 13)).take 8) ∧
    (Checked data offset → CrcMatches data offset)

instance (data : Bytes) (offset : Nat) : Decidable (Accepted data offset) :=
  inferInstanceAs (Decidable (_ ∧ _ ∧ _ ∧ _))

/-- The record at `offset` has the fields of `x`. Where the file is too short for a field, the reader
has its default. -/
structure Shows (data : Bytes) (offset : Nat) (x : RaftEntry) : Prop where
  front : StandsAt data (offset + 5)
    (writeU64 x.term ++ (writeU64 x.index ++ ([x.type.toByte] ++ writeStr x.key)))
  value : if leaseOffset data offset ≤ data.length
    then StandsAt data (valueOffset data offset) (writeStr x.value) else x.value = []
  lease : if leaseOffset data offset + 12 ≤ data.length
    then StandsAt data (leaseOffset data offset) (writeU64 (leaseBits x.leaseId)) else x.leaseId = 0
  confChange : x.type = .confChange → if leaseOffset data offset + 21 ≤ data.length
    then StandsAt data (leaseOffset data offset + 8) (confChangeFields x.confChange)
    else x.confChange = {}

section
variable {data : Bytes} {offset next : Nat}

theorem readU8_eq_some_iff {b : UInt8} :
    readU8 data offset = some (b, next) ↔ next = offset + 1 ∧ data[offset]? = some b := by
  rw [readU8, Option.map_eq_some_iff]
  constructor
  · rintro ⟨_, hget, heq⟩
    obtain ⟨rfl, rfl⟩ := Prod.mk.inj heq
    exact ⟨rfl, hget⟩
  · rintro ⟨rfl, hget⟩
    exact ⟨b, hget, rfl⟩

theorem standsAt_singleton_iff {b : UInt8} : StandsAt data offset [b] ↔ data[offset]? = some b := by
  constructor
  · rintro ⟨before, after, rfl, rfl⟩
    simp
  · intro h
    obtain ⟨hlt, hget⟩ := List.getElem?_eq_some_iff.mp h
    refine ⟨data.take offset, data.drop (offset + 1), ?_, List.length_take_of_le hlt.le⟩
    rw [List.singleton_append, ← hget, List.getElem_cons_drop, List.take_append_drop]

theorem readU64_eq_some_iff {v : Nat} :
    readU64 data offset = some (v, next) ↔
      next = offset + 8 ∧ v < 2 ^ 64 ∧ StandsAt data offset (writeU64 v) := by
  constructor
  · intro h
    obtain ⟨bytes, hbytes, heq⟩ := Option.map_eq_some_iff.mp h
    obtain ⟨rfl, rfl⟩ := Prod.mk.inj heq
    obtain ⟨hstands, hlen⟩ := StandsAt.of_bytesAt hbytes
    have hlt := ofLittleEndian_lt bytes
    have hself := toLittleEndian_ofLittleEndian bytes
    rw [hlen] at hlt hself
    refine ⟨rfl, by omega, ?_⟩
    rwa [writeU64, hself]
  · rintro ⟨rfl, hlt, hstands⟩
    exact readU64_of hstands hlt

theorem readStr_eq_some_iff {s : Bytes}
    (hfits : offset + 4 + lengthAt data offset ≤ data.length) :
    readStr data offset = some (s, next) ↔
      next = offset + 4 + lengthAt data offset ∧ s.length < 2 ^ 32 ∧
        StandsAt data offset (writeStr s) := by
  constructor
  · intro h
    have hbytes : bytesAt data offset 4 = some ((data.drop offset).take 4) := by
      rw [bytesAt, if_pos (by omega)]
    have hself := toLittleEndian_ofLittleEndian ((data.drop offset).take 4)
    have hlt := ofLittleEndian_lt ((data.drop offset).take 4)
    obtain ⟨hlength, hfour⟩ := StandsAt.of_bytesAt hbytes
    rw [hfour, ← lengthAt] at hself hlt
    rw [readStr, readU32_eq, if_pos (by omega), Option.bind_eq_bind, Option.bind_some] at h
    dsimp only at h
    rw [if_pos hfits, Option.bind_eq_bind, Option.bind_eq_some_iff] at h
    obtain ⟨string, hstring, heq⟩ := h
    obtain ⟨rfl, rfl⟩ := Prod.mk.inj (Option.some.inj heq)
    obtain ⟨hstands, hlen⟩ := StandsAt.of_bytesAt hstring
    refine ⟨rfl, by omega, StandsAt.append.mpr ⟨?_, ?_⟩⟩
    · rwa [hlen, writeU32, hself]
    · rwa [length_writeU32]
  · rintro ⟨rfl, hlt, hstands⟩
    have hlength := lengthAt_of (StandsAt.append.mp hstands).1 hlt
    rw [readStr_of hstands hlt, writeStr, List.length_append, length_writeU32, hlength,
      Nat.add_assoc]

theorem readStr_overlong (hlength : offset + 4 ≤ data.length)
    (hover : ¬ offset + 4 + lengthAt data offset ≤ data.length) :
    readStr data offset = some ([], data.length) := by
  rw [readStr, readU32_eq, if_pos hlength, Option.bind_eq_bind, Option.bind_some]
  exact if_neg hover

/-- The checksum test, where it stays inside the file. -/
theorem verifyCrc_eq_some {crcStart : Nat} {entry c : RaftEntry}
    (h : verifyCrc data crcStart offset entry = some c) :
    c = if (CRC32.compute ((data.drop crcStart).take (offset - crcStart - 4))).toNat =
        lengthAt data offset then entry else {} := by
  rw [verifyCrc, Option.bind_eq_bind, Option.bind_eq_some_iff] at h
  obtain ⟨covered, hcovered, h⟩ := h
  rw [readU32_eq, Option.bind_eq_bind, Option.bind_eq_some_iff] at h
  obtain ⟨⟨stored, _⟩, hstored, h⟩ := h
  unfold bytesAt at hcovered
  split_ifs at hcovered hstored
  obtain rfl := Option.some.inj hcovered
  obtain ⟨rfl, rfl⟩ := Prod.mk.inj (Option.some.inj hstored)
  dsimp only at h
  split_ifs at h with hdiffers
  · rw [if_neg hdiffers, Option.some.inj h]
  · rw [if_pos (not_not.mp hdiffers), Option.some.inj h]

/-- The values that the fixed-width fields of a record can have. -/
structure Bounded (entry : RaftEntry) : Prop where
  term : entry.term < 2 ^ 64
  index : entry.index < 2 ^ 64
  lease : -2 ^ 63 ≤ entry.leaseId ∧ entry.leaseId < 2 ^ 63
  nodeId : entry.confChange.nodeId < 2 ^ 64
  key : entry.key.length < 2 ^ 32
  value : entry.value.length < 2 ^ 32
  peerAddr : entry.confChange.peerAddr.length < 2 ^ 32

theorem checkedCrc_eq_some {entry c : RaftEntry} (hchecked : Checked data offset)
    (hcrc : crcOffset data offset = next)
    (h : verifyCrc data (offset + 4) next entry = some c) :
    c = if Checked data offset → CrcMatches data offset then entry else {} := by
  subst hcrc
  rw [verifyCrc_eq_some h]
  exact if_congr ⟨fun h _ => h, fun h => h hchecked⟩ rfl rfl

/-- The fields of the record at `offset` behind its strings are those of `x`. -/
structure Ends (data : Bytes) (offset : Nat) (x : RaftEntry) : Prop where
  lease : if leaseOffset data offset + 12 ≤ data.length
    then StandsAt data (leaseOffset data offset) (writeU64 (leaseBits x.leaseId)) else x.leaseId = 0
  leaseRange : -2 ^ 63 ≤ x.leaseId ∧ x.leaseId < 2 ^ 63
  confChange : x.type = .confChange → if leaseOffset data offset + 21 ≤ data.length
    then StandsAt data (leaseOffset data offset + 8) (confChangeFields x.confChange)
    else x.confChange = {}
  nodeId : x.confChange.nodeId < 2 ^ 64
  peerAddr : x.confChange.peerAddr.length < 2 ^ 32
  kept : persisted x = x

theorem leaseOfBits_range {v : Nat} (h : v < 2 ^ 64) :
    -2 ^ 63 ≤ leaseOfBits v ∧ leaseOfBits v < 2 ^ 63 := by
  unfold leaseOfBits
  split_ifs <;> omega

theorem leaseBits_leaseOfBits {v : Nat} (h : v < 2 ^ 64) : leaseBits (leaseOfBits v) = v := by
  unfold leaseBits leaseOfBits
  split_ifs <;> omega

theorem persisted_eq_self {x : RaftEntry} (h : x.type = .confChange ∨ x.confChange = {}) :
    persisted x = x := by
  unfold persisted
  split_ifs with hconf
  · rfl
  · rw [← h.resolve_left hconf]

/-- Of the two strings only the value can reach past the end of the file. -/
theorem readStr_readStr_eq_some {key value : Bytes} {valueAt leaseAt : Nat}
    (hkey : readStr data (offset + 22) = some (key, valueAt))
    (hvalue : readStr data valueAt = some (value, leaseAt)) :
    leaseAt = min (leaseOffset data offset) data.length ∧
      (key.length < 2 ^ 32 ∧ StandsAt data (offset + 22) (writeStr key)) ∧
      value.length < 2 ^ 32 ∧ if leaseOffset data offset ≤ data.length
        then StandsAt data (valueOffset data offset) (writeStr value) else value = [] := by
  -- a key that does not fit leaves no room for the length of the value
  have hkeyFits : offset + 22 + 4 + lengthAt data (offset + 22) ≤ data.length := by
    by_contra hover
    by_cases hkeyLen : offset + 22 + 4 ≤ data.length
    · obtain ⟨rfl, rfl⟩ :=
        Prod.mk.inj (Option.some.inj ((readStr_overlong hkeyLen hover).symm.trans hkey))
      cases (readStr_of_not_le (by omega)).symm.trans hvalue
    · cases (readStr_of_not_le hkeyLen).symm.trans hkey
  obtain ⟨rfl, hkeyLt, hkeyAt⟩ := (readStr_eq_some_iff hkeyFits).mp hkey
  change readStr data (valueOffset data offset) = _ at hvalue
  have hvalueLen : valueOffset data offset + 4 ≤ data.length := by
    by_contra hover
    cases (readStr_of_not_le hover).symm.trans hvalue
  by_cases hfits : leaseOffset data offset ≤ data.length
  · obtain ⟨rfl, hlt, hstands⟩ := (readStr_eq_some_iff hfits).mp hvalue
    rw [if_pos hfits]
    exact ⟨(Nat.min_eq_left hfits).symm, ⟨hkeyLt, hkeyAt⟩, hlt, hstands⟩
  · rw [readStr_overlong hvalueLen hfits] at hvalue
    obtain ⟨rfl, rfl⟩ := Prod.mk.inj (Option.some.inj hvalue)
    rw [if_neg hfits]
    exact ⟨(Nat.min_eq_right (Nat.le_of_not_le hfits)).symm, ⟨hkeyLt, hkeyAt⟩, by decide, rfl⟩

/-- What the reader makes of a membership change behind a lease id. -/
theorem readChange_eq_some {entry c : RaftEntry} (hcc : entry.confChange = {})
    (hmembers : ChangesMembers data offset) (hinside : offset + 22 ≤ leaseOffset data offset)
    (hroom : leaseOffset data offset + 12 ≤ data.length)
    (h : readChange data (offset + 4) (leaseOffset data offset + 8) entry = some c) :
    ∃ confChange : ConfChange, (if leaseOffset data offset + 21 ≤ data.length
        then StandsAt data (leaseOffset data offset + 8) (confChangeFields confChange)
        else confChange = {}) ∧
      confChange.nodeId < 2 ^ 64 ∧ confChange.peerAddr.length < 2 ^ 32 ∧
      c = if Checked data offset → CrcMatches data offset then { entry with confChange } else {} := by
  unfold readChange at h
  by_cases hchange : leaseOffset data offset + 21 ≤ data.length
  swap
  · -- no room for a membership change
    rw [if_pos (by omega)] at h
    refine ⟨{}, ?_, by decide, by decide, ?_⟩
    · rw [if_neg hchange]
    · rw [if_pos fun hchecked : Checked data offset => absurd (hchecked.2 hmembers) hchange,
        ← Option.some.inj h, ← hcc]
  rw [if_neg (by omega)] at h
  simp only [Option.bind_eq_bind, Option.bind_eq_some_iff] at h
  obtain ⟨⟨ccType, o⟩, hccType, ⟨nodeId, o'⟩, hnodeId, ⟨peerAddr, o''⟩, hpeerAddr, h⟩ := h
  obtain ⟨rfl, htypeAt⟩ := readU8_eq_some_iff.mp hccType
  dsimp only at hnodeId hpeerAddr h
  obtain ⟨rfl, hnodeLt, hnodeAt⟩ := readU64_eq_some_iff.mp hnodeId
  have haddr : leaseOffset data offset + 8 + 1 + 8 = leaseOffset data offset + 17 := by omega
  rw [haddr] at hpeerAddr
  -- an address that does not fit leaves no room for the checksum
  have hfits : leaseOffset data offset + 17 + 4 + lengthAt data (leaseOffset data offset + 17) ≤
      data.length := by
    by_contra hover
    obtain ⟨rfl, rfl⟩ :=
      Prod.mk.inj (Option.some.inj ((readStr_overlong (by omega) hover).symm.trans hpeerAddr))
    have hsome := (isSome_verifyCrc (by omega) (by omega)).mp (Option.isSome_of_eq_some h)
    omega
  obtain ⟨rfl, haddrLt, haddrAt⟩ := (readStr_eq_some_iff hfits).mp hpeerAddr
  have hcrc : crcOffset data offset =
      leaseOffset data offset + 17 + 4 + lengthAt data (leaseOffset data offset + 17) := if_pos hmembers
  refine ⟨{ type := .ofByte ccType, nodeId, peerAddr }, ?_, hnodeLt, haddrLt,
    checkedCrc_eq_some ⟨hroom, fun _ => hchange⟩ hcrc h⟩
  rw [if_pos hchange, confChangeFields, StandsAt.append, StandsAt.append,
    ConfChangeType.toByte_ofByte, length_writeU64, List.length_singleton, haddr]
  exact ⟨standsAt_singleton_iff.mpr htypeAt, hnodeAt, haddrAt⟩

/-- What the reader makes of the fields behind the strings, with `entry` read up to there. -/
theorem readLease_eq_some {entry c : RaftEntry} (hlease : entry.leaseId = 0)
    (hcc : entry.confChange = {}) (hkind : entry.type = .confChange ↔ ChangesMembers data offset)
    (h : readLease data (offset + 4) (min (leaseOffset data offset) data.length) entry = some c) :
    ∃ leaseId confChange, Ends data offset { entry with leaseId, confChange } ∧
      c = if Checked data offset → CrcMatches data offset
        then { entry with leaseId, confChange } else {} := by
  have hempty : ({} : ConfChange).nodeId < 2 ^ 64 ∧ ({} : ConfChange).peerAddr.length < 2 ^ 32 := by
    decide
  unfold readLease at h
  by_cases hroom : leaseOffset data offset + 12 ≤ data.length
  swap
  · -- no room for a lease id and a checksum
    rw [if_pos (by omega)] at h
    have hzero : -2 ^ 63 ≤ (0 : Int) ∧ (0 : Int) < 2 ^ 63 := by decide
    refine ⟨0, {}, ⟨?_, hzero, fun _ => ?_, hempty.1, hempty.2, persisted_eq_self (.inr rfl)⟩, ?_⟩
    · rw [if_neg hroom]
    · rw [if_neg (by omega)]
    · rw [if_pos fun hchecked : Checked data offset => absurd hchecked.1 hroom, ← Option.some.inj h,
        ← hlease, ← hcc]
  rw [if_neg (by omega), Nat.min_eq_left (by omega), Option.bind_eq_bind, Option.bind_eq_some_iff] at h
  obtain ⟨⟨bits, o⟩, hbits, h⟩ := h
  obtain ⟨rfl, hlt, hstands⟩ := readU64_eq_some_iff.mp hbits
  dsimp only at h
  have hleaseField : if leaseOffset data offset + 12 ≤ data.length
      then StandsAt data (leaseOffset data offset) (writeU64 (leaseBits (leaseOfBits bits)))
      else leaseOfBits bits = 0 := by
    rwa [if_pos hroom, leaseBits_leaseOfBits hlt]
  by_cases hconf : entry.type = .confChange
  · have hinside : offset + 22 ≤ leaseOffset data offset := by
      unfold leaseOffset valueOffset
      omega
    rw [if_pos hconf] at h
    obtain ⟨confChange, hfield, hnode, haddr, hc⟩ :=
      @readChange_eq_some data offset { entry with leaseId := leaseOfBits bits } _ hcc
        (hkind.mp hconf) hinside hroom h
    exact ⟨leaseOfBits bits, confChange, ⟨hleaseField, leaseOfBits_range hlt, fun _ => hfield, hnode,
      haddr, persisted_eq_self (.inl hconf)⟩, hc⟩
  · -- the checksum stands behind the lease id
    rw [if_neg hconf] at h
    have hmembers : ¬ ChangesMembers data offset := fun hm => hconf (hkind.mpr hm)
    have hcrc : crcOffset data offset = leaseOffset data offset + 8 := if_neg hmembers
    have hchecked := checkedCrc_eq_some ⟨hroom, fun hm => absurd hm hmembers⟩ hcrc h
    rw [hcc] at hchecked
    exact ⟨leaseOfBits bits, {}, ⟨hleaseField, leaseOfBits_range hlt, fun hc => absurd hc hconf,
      hempty.1, hempty.2, persisted_eq_self (.inr rfl)⟩, hchecked⟩

theorem ofByte_eq_confChange_iff {b : UInt8} (h : data[offset + 21]? = some b) :
    EventType.ofByte b = .confChange ↔ ChangesMembers data offset := by
  rw [ChangesMembers, h, Option.some.injEq]
  constructor
  · intro hconf
    rw [← hconf, EventType.toByte_ofByte]
  · rintro rfl
    exact EventType.ofByte_toByte _

/-- A record that is accepted comes out as an entry whose fields stand there, any other one as an
entry without an index. -/
theorem deserializeEntry_eq_some {c : RaftEntry} (h : deserializeEntry data offset = some c) :
    c.index = 0 ∧ ¬ Accepted data offset ∨
      0 < c.index ∧ Accepted data offset ∧ Shows data offset c ∧ Bounded c ∧ persisted c = c := by
  by_cases hhead : EntryHead data offset
  swap
  · rw [deserializeEntry_of_no_entryHead hhead] at h
    obtain rfl := Option.some.inj h
    exact .inl ⟨rfl, fun hacc => hhead ⟨hacc.1, hacc.2.1⟩⟩
  rw [deserializeEntry_of_entryHead hhead, readFields] at h
  simp only [Option.bind_eq_bind, Option.bind_eq_some_iff] at h
  obtain ⟨⟨term, o⟩, hterm, ⟨index, o'⟩, hindex, ⟨type, o''⟩, htype, ⟨key, valueAt⟩, hkey,
    ⟨value, leaseAt⟩, hvalue, h⟩ := h
  dsimp only at hindex htype hkey hvalue h
  obtain ⟨rfl, htermLt, htermAt⟩ := readU64_eq_some_iff.mp hterm
  obtain ⟨rfl, hindexLt, hindexAt⟩ := readU64_eq_some_iff.mp hindex
  obtain ⟨rfl, htypeAt⟩ := readU8_eq_some_iff.mp htype
  obtain ⟨rfl, ⟨hkeyLt, hkeyAt⟩, hvalueLt, hvalueAt⟩ := readStr_readStr_eq_some hkey hvalue
  obtain ⟨leaseId, confChange, hends, rfl⟩ :=
    readLease_eq_some rfl rfl (ofByte_eq_confChange_iff htypeAt) h
  have hindexBytes : ofLittleEndian ((data.drop (offset + 13)).take 8) = index := by
    have hfixed := hhead.2
    rw [readU64, bytesAt, if_pos (by omega), Option.map_some, Option.some.injEq, Prod.mk.injEq] at hindex
    exact hindex.1
  by_cases hcrc : Checked data offset → CrcMatches data offset
  swap
  · rw [if_neg hcrc]
    exact .inl ⟨rfl, fun hacc => hcrc hacc.2.2.2⟩
  rw [if_pos hcrc]
  rcases Nat.eq_zero_or_pos index with hzero | hpos
  · refine .inl ⟨hzero, fun hacc => ?_⟩
    have := hacc.2.2.1
    omega
  refine .inr ⟨hpos, ⟨hhead.1, hhead.2, by omega, hcrc⟩,
    ⟨?_, hvalueAt, hends.lease, hends.confChange⟩,
    ⟨htermLt, hindexLt, hends.leaseRange, hends.nodeId, hkeyLt, hvalueLt, hends.peerAddr⟩, hends.kept⟩
  rw [StandsAt.append, StandsAt.append, StandsAt.append, EventType.toByte_ofByte, length_writeU64,
    length_writeU64, List.length_singleton, standsAt_singleton_iff]
  exact ⟨htermAt, hindexAt, htypeAt, hkeyAt⟩

/-- What is accepted is what comes out with an index. -/
theorem index_pos_iff_accepted {c : RaftEntry} (h : deserializeEntry data offset = some c) :
    0 < c.index ↔ Accepted data offset := by
  rcases deserializeEntry_eq_some h with ⟨hzero, hrefused⟩ | ⟨hpos, haccepted, _⟩
  · exact iff_of_false (by omega) hrefused
  · exact iff_of_true hpos haccepted

theorem Fits.bounded {x : RaftEntry} (h : Fits x) (hconf : x.type = .confChange ∨ x.confChange = {}) :
    Bounded x := by
  have hlength := h.length
  rw [length_serializeEntry, fields] at hlength
  simp only [List.length_append, writeStr] at hlength
  refine ⟨h.term, h.index, h.lease, h.nodeId, by omega, by omega, ?_⟩
  rcases hconf with hconf | hconf
  · rw [if_pos hconf, confChangeFields, List.length_append, List.length_append, writeStr,
      List.length_append] at hlength
    omega
  · rw [hconf]
    decide

theorem writeU64_inj {v v' : Nat} (hv : v < 2 ^ 64) (hv' : v' < 2 ^ 64)
    (h : StandsAt data offset (writeU64 v)) (h' : StandsAt data offset (writeU64 v')) : v = v' :=
  (Prod.mk.inj (Option.some.inj ((readU64_of h hv).symm.trans (readU64_of h' hv')))).1

theorem writeStr_inj {s s' : Bytes} (hs : s.length < 2 ^ 32) (hs' : s'.length < 2 ^ 32)
    (h : StandsAt data offset (writeStr s)) (h' : StandsAt data offset (writeStr s')) : s = s' :=
  (Prod.mk.inj (Option.some.inj ((readStr_of h hs).symm.trans (readStr_of h' hs')))).1

theorem singleton_inj {b b' : UInt8} (h : StandsAt data offset [b]) (h' : StandsAt data offset [b']) :
    b = b' :=
  Option.some.inj ((standsAt_singleton_iff.mp h).symm.trans (standsAt_singleton_iff.mp h'))

theorem confChangeFields_inj {cc cc' : ConfChange} (hid : cc.nodeId < 2 ^ 64)
    (hid' : cc'.nodeId < 2 ^ 64) (haddr : cc.peerAddr.length < 2 ^ 32)
    (haddr' : cc'.peerAddr.length < 2 ^ 32) (h : StandsAt data offset (confChangeFields cc))
    (h' : StandsAt data offset (confChangeFields cc')) : cc = cc' := by
  simp only [confChangeFields, StandsAt.append, length_writeU64, List.length_singleton] at h h'
  have htype := congrArg ConfChangeType.ofByte (singleton_inj h.1 h'.1)
  rw [ConfChangeType.ofByte_toByte, ConfChangeType.ofByte_toByte] at htype
  have hnode := writeU64_inj hid hid' h.2.1 h'.2.1
  have hpeer := writeStr_inj haddr haddr' h.2.2 h'.2.2
  cases cc
  cases cc'
  congr

/-- Bytes show the fields of one entry only. -/
theorem Shows.unique {x c : RaftEntry} (hx : Shows data offset x) (hc : Shows data offset c)
    (hxb : Bounded x) (hcb : Bounded c) (hxp : persisted x = x) (hcp : persisted c = c) : x = c := by
  obtain ⟨hxf, hxv, hxl, hxcc⟩ := hx
  obtain ⟨hcf, hcv, hcl, hccc⟩ := hc
  simp only [StandsAt.append, length_writeU64, List.length_singleton] at hxf hcf
  have hterm := writeU64_inj hxb.term hcb.term hxf.1 hcf.1
  have hindex := writeU64_inj hxb.index hcb.index hxf.2.1 hcf.2.1
  have htype := congrArg EventType.ofByte (singleton_inj hxf.2.2.1 hcf.2.2.1)
  rw [EventType.ofByte_toByte, EventType.ofByte_toByte] at htype
  have hkey := writeStr_inj hxb.key hcb.key hxf.2.2.2 hcf.2.2.2
  have hvalue : x.value = c.value := by
    split_ifs at hxv hcv
    · exact writeStr_inj hxb.value hcb.value hxv hcv
    · exact hxv.trans hcv.symm
  have hlease : x.leaseId = c.leaseId := by
    split_ifs at hxl hcl
    · have hbits := congrArg leaseOfBits (writeU64_inj (leaseBits_lt _) (leaseBits_lt _) hxl hcl)
      rwa [leaseOfBits_leaseBits hxb.lease, leaseOfBits_leaseBits hcb.lease] at hbits
    · exact hxl.trans hcl.symm
  have hconf : x.confChange = c.confChange := by
    by_cases hkind : x.type = .confChange
    · have hx := hxcc hkind
      have hc := hccc (htype ▸ hkind)
      split_ifs at hx hc
      · exact confChangeFields_inj hxb.nodeId hcb.nodeId hxb.peerAddr hcb.peerAddr hx hc
      · exact hx.trans hc.symm
    · rw [← hxp, ← hcp, persisted, persisted, if_neg hkind, if_neg (htype ▸ hkind)]
  cases x
  cases c
  congr

/-- What an entry's record does not keep does not show. -/
theorem shows_persisted_iff {x : RaftEntry} :
    Shows data offset (persisted x) ↔ Shows data offset x := by
  unfold persisted
  split_ifs with hconf
  · rfl
  · exact ⟨fun h => ⟨h.front, h.value, h.lease, fun hc => absurd hc hconf⟩,
      fun h => ⟨h.front, h.value, h.lease, fun hc => absurd hc hconf⟩⟩

/-- What is accepted comes out as the entry whose fields stand there. -/
theorem eq_persisted_iff_shows {x c : RaftEntry} (h : deserializeEntry data offset = some c)
    (haccepted : Accepted data offset) (hx : Fits x) : c = persisted x ↔ Shows data offset x := by
  rcases deserializeEntry_eq_some h with ⟨_, hrefused⟩ | ⟨_, _, hshows, hbounded, hkept⟩
  · exact absurd haccepted hrefused
  rw [← shows_persisted_iff]
  constructor
  · rintro rfl
    exact hshows
  · intro hx'
    have hwhole : (persisted x).type = .confChange ∨ (persisted x).confChange = {} := by
      unfold persisted
      split_ifs with hconf
      · exact .inl hconf
      · exact .inr rfl
    exact hshows.unique hx' hbounded (hx.persisted.bounded hwhole) hkept (persisted_eq_self hwhole)

end

end WAL
end MyEtcd
