import MyEtcd.Common.Types
import MyEtcd.Library.ByteBuffer

/-! One record of the write-ahead log: its bytes, and how they are read back.
A read past the end of the buffer is undefined behaviour in the source; here it yields nothing. -/
namespace MyEtcd
open Library

namespace CRC32

/-- One of the eight rounds of `InitTable` for a table slot. -/
def round (crc : UInt32) : UInt32 :=
  if crc &&& 1 = 1 then (crc >>> 1) ^^^ 0xEDB88320 else crc >>> 1

def table (i : UInt32) : UInt32 := round^[8] i

def update (crc : UInt32) (data : Bytes) : UInt32 :=
  data.foldl (fun crc b => table ((crc ^^^ b.toUInt32) &&& 0xFF) ^^^ (crc >>> 8)) crc

def compute (data : Bytes) : UInt32 := update 0xFFFFFFFF data ^^^ 0xFFFFFFFF

end CRC32

inductive WalRecordType where
  | entry
  | hardState
  | snapshot
  | crc32
  deriving DecidableEq

def WalRecordType.toByte : WalRecordType → UInt8
  | entry => 0
  | hardState => 1
  | snapshot => 2
  | crc32 => 3

namespace WAL

def writeU32 (v : Nat) : Bytes := toLittleEndian 4 v

def writeU64 (v : Nat) : Bytes := toLittleEndian 8 v

def writeStr (s : Bytes) : Bytes := writeU32 s.length ++ s

/-- `static_cast<uint64_t>` of a lease id. -/
def leaseBits (id : Int) : Nat := (id % 2 ^ 64).toNat

/-- `static_cast<LeaseId>` of 64 bits. -/
def leaseOfBits (v : Nat) : Int := if v < 2 ^ 63 then v else v - 2 ^ 64

/-- What a `confChange` entry carries on top of the others. -/
def confChangeFields (cc : ConfChange) : Bytes :=
  [cc.type.toByte] ++ (writeU64 cc.nodeId ++ writeStr cc.peerAddr)

def fields (entry : RaftEntry) : Bytes :=
  writeU64 entry.term ++ (writeU64 entry.index ++ ([entry.type.toByte] ++ (writeStr entry.key ++
    (writeStr entry.value ++ (writeU64 (leaseBits entry.leaseId) ++
      if entry.type = .confChange then confChangeFields entry.confChange else [])))))

def serializeEntry (entry : RaftEntry) : Bytes :=
  let data := [WalRecordType.entry.toByte] ++ fields entry
  let crc := CRC32.compute (data.drop 1)
  let data := data ++ writeU32 crc.toNat
  writeU32 data.length ++ data

def readU8 (data : Bytes) (offset : Nat) : Option (UInt8 × Nat) :=
  data[offset]?.map fun b => (b, offset + 1)

def readU32 (data : Bytes) (offset : Nat) : Option (Nat × Nat) :=
  (bytesAt data offset 4).map fun b => (ofLittleEndian b, offset + 4)

def readU64 (data : Bytes) (offset : Nat) : Option (Nat × Nat) :=
  (bytesAt data offset 8).map fun b => (ofLittleEndian b, offset + 8)

/-- A length that reaches past the end leaves the empty string and the offset at the end. -/
def readStr (data : Bytes) (offset : Nat) : Option (Bytes × Nat) := do
  let (len, offset) ← readU32 data offset
  if offset + len ≤ data.length then
    let s ← bytesAt data offset len
    some (s, offset + len)
  else some ([], data.length)

/-- The checksum test: from the record type on, less the four bytes before the stored checksum. -/
def verifyCrc (data : Bytes) (crcStart offset : Nat) (entry : RaftEntry) : Option RaftEntry := do
  let covered ← bytesAt data crcStart (offset - crcStart - 4)
  let (stored, _) ← readU32 data offset
  if (CRC32.compute covered).toNat ≠ stored then some {} else some entry

/-- The entry whose record stands at `offset`. -/
def deserializeEntry (data : Bytes) (offset : Nat) : Option RaftEntry := do
  if ¬ offset + 4 ≤ data.length then return {}
  let (_, crcStart) ← readU32 data offset
  if ¬ crcStart + 1 ≤ data.length then return {}
  let (type, offset) ← readU8 data crcStart
  if type ≠ WalRecordType.entry.toByte then return {}
  if ¬ offset + (8 + 8 + 1) ≤ data.length then return {}
  let (term, offset) ← readU64 data offset
  let (index, offset) ← readU64 data offset
  let (type, offset) ← readU8 data offset
  let (key, offset) ← readStr data offset
  let (value, offset) ← readStr data offset
  let entry : RaftEntry := { term, index, type := .ofByte type, key, value }
  if ¬ offset + (8 + 4) ≤ data.length then return entry
  let (lease, offset) ← readU64 data offset
  let entry := { entry with leaseId := leaseOfBits lease }
  if entry.type = .confChange then
    if ¬ offset + (1 + 8 + 4) ≤ data.length then return entry
    let (ccType, offset) ← readU8 data offset
    let (nodeId, offset) ← readU64 data offset
    let (peerAddr, offset) ← readStr data offset
    verifyCrc data crcStart offset
      { entry with confChange := { type := .ofByte ccType, nodeId, peerAddr } }
  else verifyCrc data crcStart offset entry

/-- The values of the source's fixed-width fields. -/
structure Fits (entry : RaftEntry) : Prop where
  term : entry.term < 2 ^ 64
  index : entry.index < 2 ^ 64
  lease : -2 ^ 63 ≤ entry.leaseId ∧ entry.leaseId < 2 ^ 63
  nodeId : entry.confChange.nodeId < 2 ^ 64
  /-- The record is shorter than its length field can tell. -/
  length : (serializeEntry entry).length < 2 ^ 32

/-- What a record keeps of an entry: the membership change only where the type calls for one. -/
def persisted (entry : RaftEntry) : RaftEntry :=
  if entry.type = .confChange then entry else { entry with confChange := {} }

theorem fields_persisted (e : RaftEntry) : fields (persisted e) = fields e := by
  unfold persisted
  split_ifs with hconf
  · rfl
  · simp [fields, hconf]

theorem serializeEntry_persisted (e : RaftEntry) :
    serializeEntry (persisted e) = serializeEntry e := by
  rw [serializeEntry, fields_persisted, ← serializeEntry]

theorem Fits.persisted {e : RaftEntry} (h : Fits e) : Fits (WAL.persisted e) := by
  have hlength := h.length
  rw [← serializeEntry_persisted] at hlength
  unfold WAL.persisted at hlength ⊢
  split_ifs at hlength ⊢
  · exact h
  · exact ⟨h.term, h.index, h.lease, Nat.two_pow_pos 64, hlength⟩

theorem persisted_index (e : RaftEntry) : (persisted e).index = e.index := by
  unfold persisted
  split_ifs <;> rfl

/-- The reader's checksum of the record equals the stored one of the writer. -/
def ChecksumAgrees (entry : RaftEntry) : Prop :=
  CRC32.compute ((WalRecordType.entry.toByte :: fields entry).take ((fields entry).length - 3)) =
    CRC32.compute (fields entry)

instance (entry : RaftEntry) : Decidable (ChecksumAgrees entry) :=
  inferInstanceAs (Decidable (_ = _))

@[simp] theorem length_writeU32 (v : Nat) : (writeU32 v).length = 4 := length_toLittleEndian 4 v

@[simp] theorem length_writeU64 (v : Nat) : (writeU64 v).length = 8 := length_toLittleEndian 8 v

theorem leaseBits_lt (id : Int) : leaseBits id < 2 ^ 64 := by
  unfold leaseBits
  omega

theorem leaseOfBits_leaseBits {id : Int} (h : -2 ^ 63 ≤ id ∧ id < 2 ^ 63) :
    leaseOfBits (leaseBits id) = id := by
  unfold leaseOfBits leaseBits
  split_ifs <;> omega

theorem exists_leaseBits {v : Nat} (h : v < 2 ^ 64) :
    ∃ id : Int, (-2 ^ 63 ≤ id ∧ id < 2 ^ 63) ∧ leaseBits id = v := by
  refine ⟨leaseOfBits v, ?_, ?_⟩
  · unfold leaseOfBits
    split_ifs <;> omega
  · unfold leaseBits leaseOfBits
    split_ifs <;> omega

section
variable {data : Bytes} {offset : Nat}

theorem readU8_of {b : UInt8} (h : StandsAt data offset [b]) :
    readU8 data offset = some (b, offset + 1) := by
  obtain ⟨before, after, rfl, rfl⟩ := h
  simp [readU8]

theorem readU32_of {v : Nat} (h : StandsAt data offset (writeU32 v)) (hv : v < 2 ^ 32) :
    readU32 data offset = some (v, offset + 4) := by
  have hbytes := h.bytesAt
  rw [writeU32, length_toLittleEndian] at hbytes
  rw [readU32, hbytes, Option.map_some, ofLittleEndian_toLittleEndian (by omega)]

theorem readU64_of {v : Nat} (h : StandsAt data offset (writeU64 v)) (hv : v < 2 ^ 64) :
    readU64 data offset = some (v, offset + 8) := by
  have hbytes := h.bytesAt
  rw [writeU64, length_toLittleEndian] at hbytes
  rw [readU64, hbytes, Option.map_some, ofLittleEndian_toLittleEndian (by omega)]

theorem readStr_of {s : Bytes} (h : StandsAt data offset (writeStr s)) (hs : s.length < 2 ^ 32) :
    readStr data offset = some (s, offset + (writeStr s).length) := by
  obtain ⟨hlen, hs'⟩ := StandsAt.append.mp h
  rw [length_writeU32] at hs'
  have hfits := hs'.fits
  have htotal : offset + (writeStr s).length = offset + 4 + s.length := by
    rw [writeStr, List.length_append, length_writeU32, Nat.add_assoc]
  rw [htotal]
  simp only [readStr, readU32_of hlen hs, Option.bind_eq_bind, Option.bind_some, if_pos hfits,
    hs'.bytesAt]

theorem verifyCrc_of {covered : Bytes} {stored : UInt32} {entry : RaftEntry} {crcStart : Nat}
    (hcovered : StandsAt data crcStart covered) (hlen : covered.length = offset - crcStart - 4)
    (hstored : StandsAt data offset (writeU32 stored.toNat)) :
    verifyCrc data crcStart offset entry =
      some (if CRC32.compute covered = stored then entry else {}) := by
  have hbytes := hcovered.bytesAt
  rw [hlen] at hbytes
  rw [verifyCrc, hbytes, readU32_of hstored stored.toNat_lt]
  simp only [Option.bind_eq_bind, Option.bind_some, ne_eq, UInt32.toNat_inj]
  split_ifs <;> rfl

theorem length_serializeEntry (entry : RaftEntry) :
    (serializeEntry entry).length = 9 + (fields entry).length := by
  simp [serializeEntry]
  omega

theorem standsAt_serializeEntry {entry : RaftEntry}
    (h : StandsAt data offset (serializeEntry entry)) :
    StandsAt data offset (writeU32 (5 + (fields entry).length)) ∧
    StandsAt data (offset + 4) (WalRecordType.entry.toByte :: fields entry) ∧
    StandsAt data (offset + 5) (fields entry) ∧
    StandsAt data (offset + 5 + (fields entry).length)
      (writeU32 (CRC32.compute (fields entry)).toNat) := by
  have hrecord : serializeEntry entry = writeU32 (5 + (fields entry).length) ++
      ((WalRecordType.entry.toByte :: fields entry) ++
        writeU32 (CRC32.compute (fields entry)).toNat) := by
    have hcount : (fields entry).length + 4 + 1 = 5 + (fields entry).length := by omega
    simp [serializeEntry, hcount]
  rw [hrecord, StandsAt.append, StandsAt.append, length_writeU32, List.length_cons] at h
  obtain ⟨hlen, hbody, hcrc⟩ := h
  refine ⟨hlen, hbody, (StandsAt.cons.mp hbody).2, ?_⟩
  have hoffset : offset + 5 + (fields entry).length = offset + 4 + ((fields entry).length + 1) := by
    omega
  rwa [hoffset]

/-- A record that stands in the buffer is read back, unless the checksums differ. -/
theorem deserializeEntry_of {entry : RaftEntry} (hfits : Fits entry)
    (h : StandsAt data offset (serializeEntry entry)) :
    deserializeEntry data offset =
      some (if ChecksumAgrees entry then persisted entry else {}) := by
  have hlength := hfits.length
  have hend := h.fits
  rw [length_serializeEntry] at hlength hend
  obtain ⟨hlen, hbody, hfields, hcrc⟩ := standsAt_serializeEntry h
  have htype := (StandsAt.cons.mp hbody).1
  have hsize := congrArg List.length (fields.eq_1 entry)
  simp only [List.length_append, length_writeU64, List.length_singleton] at hsize
  rw [fields] at hfields
  simp only [StandsAt.append, length_writeU64, List.length_singleton] at hfields
  obtain ⟨hterm, hindex, hkind, hkey, hvalue, hlease, hconf⟩ := hfields
  have hkeyLen : (writeStr entry.key).length = 4 + entry.key.length := by simp [writeStr]
  have hvalueLen : (writeStr entry.value).length = 4 + entry.value.length := by simp [writeStr]
  unfold deserializeEntry
  rw [if_neg (by omega)]
  rw [readU32_of hlen (by omega), Option.bind_eq_bind, Option.bind_some]
  dsimp only
  rw [if_neg (by omega), readU8_of htype, Option.bind_eq_bind, Option.bind_some]
  dsimp only
  rw [if_neg (not_not_intro rfl), if_neg (by omega)]
  simp only [readU64_of hterm hfits.term, readU64_of hindex hfits.index, readU8_of hkind,
    readStr_of hkey (by omega), readStr_of hvalue (by omega), Option.bind_eq_bind,
    Option.bind_some]
  rw [if_neg (by omega)]
  simp only [readU64_of hlease (leaseBits_lt _), leaseOfBits_leaseBits hfits.lease,
    Option.bind_some, EventType.ofByte_toByte]
  -- the checksum test, wherever the fields end
  have hverify {o : Nat} (x : RaftEntry) (ho : o = offset + 5 + (fields entry).length) :
      verifyCrc data (offset + 4) o x = some (if ChecksumAgrees entry then x else {}) := by
    refine verifyCrc_of (hbody.take ((fields entry).length - 3)) ?_ (ho ▸ hcrc)
    rw [List.length_take, List.length_cons]
    omega
  by_cases hconfChange : entry.type = .confChange
  · simp only [hconfChange, if_true, confChangeFields] at hconf hsize ⊢
    simp only [StandsAt.append, length_writeU64, List.length_singleton, List.length_append]
      at hconf hsize
    obtain ⟨hccType, hnodeId, haddr⟩ := hconf
    have haddrLen : (writeStr entry.confChange.peerAddr).length =
        4 + entry.confChange.peerAddr.length := by simp [writeStr]
    rw [if_neg (by omega)]
    simp only [readU8_of hccType, readU64_of hnodeId hfits.nodeId, readStr_of haddr (by omega),
      Option.bind_some, ConfChangeType.ofByte_toByte]
    rw [hverify _ (by omega), persisted, if_pos hconfChange, ← hconfChange]
  · simp only [hconfChange, if_false, List.length_nil] at hsize ⊢
    rw [hverify _ (by omega), persisted, if_neg hconfChange]

end

end WAL
end MyEtcd
