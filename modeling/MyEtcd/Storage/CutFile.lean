import MyEtcd.Storage.BackendFile

/-! Loading the backend's file as a stream, when the file has been cut off somewhere.
The loader counts the bytes it has read and compares the count with the size of the file. -/
namespace MyEtcd
open Library

/-- A file opened for reading: where the next read starts, whether all reads so far were served in
full, and which stretches they asked for. -/
structure Ifstream where
  content : Bytes
  pos : Nat := 0
  good : Bool := true
  asked : List (Nat × Nat) := []

namespace Ifstream

/-- The bytes that a read delivers. After a read that came up short nothing is delivered any more. -/
def read (ifs : Ifstream) (n : Nat) : Bytes × Ifstream :=
  let got := if ifs.good then (ifs.content.drop ifs.pos).take n else []
  (got, { ifs with
    pos := ifs.pos + got.length
    good := ifs.good && got.length == n
    asked := ifs.asked ++ [(ifs.pos, n)] })

/-- No read has asked for bytes past the end of the file. -/
structure Contained (ifs : Ifstream) (file : Bytes) (offset : Nat) : Prop where
  content : ifs.content = file
  pos : ifs.pos = offset
  good : ifs.good = true
  asked : ∀ r ∈ ifs.asked, r.1 + r.2 ≤ file.length

variable {ifs : Ifstream} {file : Bytes} {offset n : Nat}

theorem Contained.read (h : ifs.Contained file offset) (hn : offset + n ≤ file.length) :
    (ifs.read n).1 = (file.drop offset).take n ∧ (ifs.read n).1.length = n ∧
      (ifs.read n).2.Contained file (offset + n) := by
  have hgot : (ifs.read n).1 = (file.drop offset).take n := by
    rw [Ifstream.read, h.content, h.pos, h.good]
    rfl
  have hlength : (ifs.read n).1.length = n := by
    rw [hgot, List.length_take, List.length_drop]
    omega
  refine ⟨hgot, hlength, h.content, ?_, ?_, ?_⟩
  · calc (ifs.read n).2.pos = ifs.pos + (ifs.read n).1.length := rfl
      _ = offset + n := by rw [h.pos, hlength]
  · calc (ifs.read n).2.good = (ifs.good && (ifs.read n).1.length == n) := rfl
      _ = true := by rw [h.good, hlength, beq_self_eq_true, Bool.and_self]
  · intro r hr
    rcases List.mem_append.mp hr with hr | hr
    · exact h.asked r hr
    · rw [List.mem_singleton.mp hr, h.pos]
      exact hn

end Ifstream

namespace Backend

/-- The loop over the pairs as it reads the stream, with its count of the bytes read so far. -/
def readPairs (fileSize bytesRead : Nat) (ifs : Ifstream) (b : Backend) : Backend × Ifstream :=
  if bytesRead + 4 ≤ fileSize then
    let keyLenRead := ifs.read 4
    let keyLen := ofLittleEndian keyLenRead.1
    let keyAt := bytesRead + keyLenRead.1.length
    if keyLenRead.1.length = 0 then (b, keyLenRead.2)
    else if keyLen = 0 ∨ keyLen > kMaxKeyLen ∨ keyAt + keyLen > fileSize then (b, keyLenRead.2)
    else
      let key := keyLenRead.2.read keyLen
      if key.1.length ≠ keyLen then (b, key.2)
      else if keyAt + keyLen + 4 > fileSize then (b, key.2)
      else
        let valueLenRead := key.2.read 4
        let valueLen := ofLittleEndian valueLenRead.1
        let valueAt := keyAt + keyLen + valueLenRead.1.length
        if valueLenRead.1.length = 0 then (b, valueLenRead.2)
        else if valueLen > kMaxValueLen ∨ valueAt + valueLen > fileSize then (b, valueLenRead.2)
        else
          let value := valueLenRead.2.read valueLen
          if value.1.length ≠ valueLen then (b, value.2)
          else readPairs fileSize (valueAt + valueLen) value.2 (b.put key.1 value.1)
  else (b, ifs)
termination_by fileSize - bytesRead
decreasing_by
  simp +zetaDelta only at *
  omega

/-- `LoadFromDisk` on the stream of an existing file. -/
def readFromDisk (b : Backend) (file : Bytes) : Backend × Ifstream :=
  let ifs : Ifstream := { content := file }
  if file.length < 8 then (b, ifs)
  else
    let magic := ifs.read 4
    let version := magic.2.read 4
    if ofLittleEndian magic.1 ≠ kMagic then (b, version.2)
    else if ofLittleEndian version.1 > kVersion then (b, version.2)
    else readPairs file.length 8 version.2 b

/-- The checks before each read keep the stream inside the file, whatever the file holds; so what is
loaded can be read off the file at the offsets. -/
theorem readPairs_eq {file : Bytes} {offset : Nat} {ifs : Ifstream} (h : ifs.Contained file offset)
    (b : Backend) :
    (readPairs file.length offset ifs b).1 = loadPairs file offset b ∧
      ∃ e, (readPairs file.length offset ifs b).2.Contained file e := by
  induction hn : file.length - offset using Nat.strongRecOn generalizing offset ifs b with
  | ind n ih =>
    rw [readPairs, loadPairs]
    by_cases hmore : offset + 4 ≤ file.length
    · obtain ⟨hlen, hlenCount, hlenRead⟩ := h.read hmore
      rw [if_pos hmore, if_pos hmore]
      dsimp only
      rw [hlenCount, if_neg (by decide), hlen, ← readU32]
      by_cases hkey : readU32 file offset = 0 ∨ readU32 file offset > kMaxKeyLen ∨
          offset + 4 + readU32 file offset > file.length
      · rw [if_pos hkey, if_pos hkey]
        exact ⟨rfl, _, hlenRead⟩
      obtain ⟨hkeyBytes, hkeyCount, hkeyRead⟩ := hlenRead.read (n := readU32 file offset) (by omega)
      rw [if_neg hkey, if_neg hkey, if_neg (not_not.mpr hkeyCount), hkeyBytes]
      by_cases hvlen : offset + 4 + readU32 file offset + 4 > file.length
      · rw [if_pos hvlen, if_pos hvlen]
        exact ⟨rfl, _, hkeyRead⟩
      obtain ⟨hlen', hlenCount', hlenRead'⟩ := hkeyRead.read (n := 4) (by omega)
      rw [if_neg hvlen, if_neg hvlen, hlenCount', if_neg (by decide), hlen', ← readU32]
      by_cases hvalue : readU32 file (offset + 4 + readU32 file offset) > kMaxValueLen ∨
          offset + 4 + readU32 file offset + 4 + readU32 file (offset + 4 + readU32 file offset) >
            file.length
      · rw [if_pos hvalue, if_pos hvalue]
        exact ⟨rfl, _, hlenRead'⟩
      obtain ⟨hvalueBytes, hvalueCount, hvalueRead⟩ := hlenRead'.read
        (n := readU32 file (offset + 4 + readU32 file offset)) (by omega)
      rw [if_neg hvalue, if_neg hvalue, if_neg (not_not.mpr hvalueCount), hvalueBytes]
      exact ih _ (by omega) hvalueRead _ rfl
    · rw [if_neg hmore, if_neg hmore]
      exact ⟨rfl, _, h⟩

theorem readFromDisk_eq (b : Backend) (file : Bytes) :
    (b.readFromDisk file).1 = b.loadFromDisk (some file) ∧
      ∃ e, (b.readFromDisk file).2.Contained file e := by
  have hopen : Ifstream.Contained { content := file } file 0 := ⟨rfl, rfl, rfl, fun r hr => by cases hr⟩
  rw [readFromDisk, loadFromDisk]
  by_cases hshort : file.length < 8
  · rw [if_pos hshort, if_pos hshort]
    exact ⟨rfl, _, hopen⟩
  obtain ⟨hmagic, -, hmagicRead⟩ := hopen.read (n := 4) (by omega)
  obtain ⟨hversion, -, hversionRead⟩ := hmagicRead.read (n := 4) (by omega)
  rw [if_neg hshort, if_neg hshort]
  dsimp only
  rw [hmagic, hversion, ← readU32, ← readU32]
  split_ifs
  · exact ⟨rfl, _, hversionRead⟩
  · exact ⟨rfl, _, hversionRead⟩
  · exact readPairs_eq hversionRead b

/-- Where a file goes on with the front of some data, a piece that the file still holds is read off
it, and the file goes on with the front of the data behind the piece. -/
theorem cut_next {file piece data : Bytes} {offset m : Nat}
    (h : file.drop offset = (piece ++ data).take m) (hfits : offset + piece.length ≤ file.length) :
    (file.drop offset).take piece.length = piece ∧
      file.drop (offset + piece.length) = data.take (m - piece.length) := by
  have hlength := congrArg List.length h
  rw [List.length_drop, List.length_take] at hlength
  constructor
  · rw [h, List.take_take, Nat.min_eq_left (by omega), List.take_left]
  · rw [← List.drop_drop, h, List.drop_take, List.drop_left]

theorem cut_next_u32 {file data : Bytes} {offset m n : Nat} (hn : n < 2 ^ 32)
    (h : file.drop offset = (writeU32 n ++ data).take m) (hfits : offset + 4 ≤ file.length) :
    readU32 file offset = n ∧ file.drop (offset + 4) = data.take (m - 4) := by
  have hnext := cut_next h (by rwa [writeU32, length_toLittleEndian])
  rw [writeU32, length_toLittleEndian] at hnext
  exact ⟨by rw [readU32, hnext.1, ofLittleEndian_toLittleEndian hn], hnext.2⟩

/-- A pair that is cut off anywhere ends the loop; the pairs in front of it have been loaded. -/
theorem loadPairs_cut {file : Bytes} {offset m : Nat} {entries : List (Bytes × Bytes)}
    (h : file.drop offset = (entries.flatMap pairBytes).take m)
    (hentries : ∀ e ∈ entries, e.1.length < 2 ^ 32 ∧ e.2.length < 2 ^ 32) (b : Backend) :
    ∃ k, loadPairs file offset b = b.putAll (entries.take k) := by
  induction entries generalizing offset m b with
  | nil =>
    have hend := congrArg List.length h
    rw [List.flatMap_nil, List.take_nil, List.length_drop, List.length_nil] at hend
    refine ⟨0, ?_⟩
    rw [loadPairs, if_neg (by omega)]
    rfl
  | cons e rest ih =>
    obtain ⟨hkeyLen, hvalueLen⟩ := hentries e List.mem_cons_self
    have hstop : ∃ k, b = b.putAll ((e :: rest).take k) := ⟨0, rfl⟩
    rw [List.flatMap_cons, pairBytes, List.append_assoc, List.append_assoc, List.append_assoc] at h
    rw [loadPairs]
    by_cases hmore : offset + 4 ≤ file.length
    · obtain ⟨hlen, hbehindLen⟩ := cut_next_u32 hkeyLen h hmore
      rw [if_pos hmore]
      dsimp only
      rw [hlen]
      by_cases hbad : e.1.length = 0 ∨ e.1.length > kMaxKeyLen ∨
          offset + 4 + e.1.length > file.length
      · rw [if_pos hbad]
        exact hstop
      obtain ⟨hkey, hbehindKey⟩ := cut_next hbehindLen (by omega)
      rw [if_neg hbad, hkey]
      by_cases hcut : offset + 4 + e.1.length + 4 > file.length
      · rw [if_pos hcut]
        exact hstop
      obtain ⟨hlen', hbehindLen'⟩ := cut_next_u32 hvalueLen hbehindKey (by omega)
      rw [if_neg hcut, hlen']
      by_cases hbad' : e.2.length > kMaxValueLen ∨
          offset + 4 + e.1.length + 4 + e.2.length > file.length
      · rw [if_pos hbad']
        exact hstop
      obtain ⟨hvalue, hbehindPair⟩ := cut_next hbehindLen' (by omega)
      rw [if_neg hbad', hvalue]
      obtain ⟨k, hk⟩ :=
        ih hbehindPair (fun x hx => hentries x (List.mem_cons_of_mem _ hx)) (b.put e.1 e.2)
      exact ⟨k + 1, hk⟩
    · rw [if_neg hmore]
      exact hstop

/-- A backend whose file has been cut off after `n` bytes loads a front part of its pairs, without
reading past the cut. -/
theorem load_cut_file (b : Backend) (n : Nat)
    (hlengths : ∀ e ∈ b.store.entries, e.1.length < 2 ^ 32 ∧ e.2.length < 2 ^ 32) :
    (∃ k, (readFromDisk {} (b.flushToDisk.take n)).1.store.entries = b.store.entries.take k) ∧
      ∀ r ∈ (readFromDisk {} (b.flushToDisk.take n)).2.asked,
        r.1 + r.2 ≤ (b.flushToDisk.take n).length := by
  obtain ⟨hload, e, hcontained⟩ := readFromDisk_eq {} (b.flushToDisk.take n)
  refine ⟨?_, hcontained.asked⟩
  rw [hload, loadFromDisk]
  split_ifs with hshort
  · exact ⟨0, rfl⟩
  · exact ⟨0, rfl⟩
  · exact ⟨0, rfl⟩
  have hpairs : (b.flushToDisk.take n).drop 8 =
      (b.store.entries.flatMap pairBytes).take (n - 8) := by
    rw [List.drop_take]
    rfl
  obtain ⟨k, hk⟩ := loadPairs_cut hpairs hlengths {}
  exact ⟨k, by rw [hk, putAll_entries ⟨b.store.entries.take k, b.store.sorted.take⟩]⟩

/-- A file of two pairs, cut off inside the value of the second. -/
theorem load_cut_file_two :
    let file := ((Backend.put {} [97] [1]).put [98] [2, 3]).flushToDisk.take 29
    (∃ k, (readFromDisk {} file).1.store.entries =
      ((Backend.put {} [97] [1]).put [98] [2, 3]).store.entries.take k) ∧
    ∀ r ∈ (readFromDisk {} file).2.asked, r.1 + r.2 ≤ file.length :=
  load_cut_file ((Backend.put {} [97] [1]).put [98] [2, 3]) 29 (by decide)

end Backend
end MyEtcd
