import MyEtcd.Wal.Acceptance
import MyEtcd.Wal.Runs

/-! Appending behind a record of which only the first bytes have been written.
Opening the log does not remove them, so that their length field counts what is appended. -/
namespace MyEtcd
open Library

namespace WAL

/-- The current file when a crash leaves `k` bytes of the record of `x`. -/
def tornFile (w : WAL) (x : RaftEntry) (k : Nat) : Bytes :=
  w.disk.walFiles.getD w.walSeq [] ++ (serializeEntry x).take k

/-- Entries appended after a torn write are read as if the torn bytes were not there. -/
def AppendsCleanly (w : WAL) (x : RaftEntry) (k : Nat) (entries : List RaftEntry) : Prop :=
  ((openDir (w.withFile (w.tornFile x k))).appendEntries entries).readAllEntries.map Prod.fst =
    ((openDir w.disk).appendEntries entries).readAllEntries.map Prod.fst

/-- How the reader of a file comes from `offset` to the readable ones among `entries`. -/
inductive Recovers (data : Bytes) : Nat → List RaftEntry → Prop where
  /-- Their records stand there. -/
  | inStep {offset : Nat} {entries : List RaftEntry}
      (stands : StandsAt data offset (entries.flatMap serializeEntry))
      (last : offset + (entries.flatMap serializeEntry).length = data.length) :
      Recovers data offset entries
  /-- The length field there is missing, is zero or reaches past the end, and nothing can be read
  anyway. -/
  | stops {offset : Nat} {entries : List RaftEntry} (stop : ¬ Framed data offset)
      (unread : ∀ e ∈ entries, ¬ Readable e) : Recovers data offset entries
  /-- The bytes that the length field counts do not pass for a record. -/
  | refused {offset : Nat} {entries : List RaftEntry} (framed : Framed data offset)
      (inside : Inside data offset) (refused : ¬ Accepted data offset)
      (rest : Recovers data (offset + 4 + lengthAt data offset) entries) :
      Recovers data offset entries
  /-- What cannot be read is not missed. -/
  | missed {offset : Nat} {e : RaftEntry} {entries : List RaftEntry} (unread : ¬ Readable e)
      (rest : Recovers data offset entries) : Recovers data offset (e :: entries)
  /-- The bytes that the length field counts pass for a record, and have the fields of the next
  entry. -/
  | shown {offset : Nat} {e : RaftEntry} {entries : List RaftEntry} (framed : Framed data offset)
      (inside : Inside data offset) (accepted : Accepted data offset) (same : Shows data offset e)
      (read : Readable e) (rest : Recovers data (offset + 4 + lengthAt data offset) entries) :
      Recovers data offset (e :: entries)

/-- From the cut on the reader comes to what has been appended. -/
def Unaffected (w : WAL) (x : RaftEntry) (k : Nat) (entries : List RaftEntry) : Prop :=
  Recovers (w.tornFile x k ++ entries.flatMap serializeEntry)
    (w.disk.walFiles.getD w.walSeq []).length entries

section
variable {data : Bytes} {offset : Nat} {entries : List RaftEntry}

theorem readRecords_of_framed (h : Framed data offset) :
    readRecords data offset = (deserializeEntry data offset).bind fun c =>
      (readRecords data (offset + 4 + lengthAt data offset)).map fun rest =>
        if 0 < c.index then c :: rest else rest := by
  rw [readRecords_eq_decoded, readRecords_eq_decoded, decoded_of_framed h]
  cases deserializeEntry data offset with
  | none => rfl
  | some c =>
    rw [Option.bind_some, Option.bind_some, Option.map_map, Option.map_map]
    congr 1
    funext rest
    simp only [Function.comp_apply, List.filter_cons, decide_eq_true_eq]

theorem Recovers.readRecords (h : Recovers data offset entries) (hfits : ∀ e ∈ entries, Fits e) :
    WAL.readRecords data offset = some (readable entries) := by
  induction h with
  | inStep stands last =>
    rw [readRecords_eq_decoded, decoded_records hfits stands, last, decoded_end, Option.map_some,
      Option.map_some, List.append_nil, filter_outcome]
  | stops stop unread =>
    rw [readRecords_eq_decoded, decoded_of_not_framed stop, readable_eq_nil_iff.mpr unread]
    rfl
  | refused framed inside refused _ ih =>
    obtain ⟨c, hc⟩ := Option.isSome_iff_exists.mp (isSome_deserializeEntry.mpr inside)
    have hzero : ¬ 0 < c.index := fun hpos => refused ((index_pos_iff_accepted hc).mp hpos)
    rw [readRecords_of_framed framed, hc, Option.bind_some, ih hfits, Option.map_some, if_neg hzero]
  | missed unread _ ih =>
    rw [ih (List.forall_mem_cons.mp hfits).2, readable_cons, if_neg unread]
  | shown framed inside accepted same read _ ih =>
    obtain ⟨he, hentries⟩ := List.forall_mem_cons.mp hfits
    obtain ⟨c, hc⟩ := Option.isSome_iff_exists.mp (isSome_deserializeEntry.mpr inside)
    rw [readRecords_of_framed framed, hc, Option.bind_some, ih hentries, Option.map_some,
      if_pos ((index_pos_iff_accepted hc).mpr accepted), readable_cons, if_pos read,
      (eq_persisted_iff_shows hc accepted he).mpr same]

theorem Recovers.missed_all {skipped : List RaftEntry} (hskipped : ∀ e ∈ skipped, ¬ Readable e)
    (h : Recovers data offset entries) : Recovers data offset (skipped ++ entries) := by
  induction skipped with
  | nil => exact h
  | cons e skipped ih =>
    obtain ⟨he, hothers⟩ := List.forall_mem_cons.mp hskipped
    exact .missed he (ih hothers)

theorem exists_of_readable_eq_cons {c : RaftEntry} {rest : List RaftEntry}
    (h : readable entries = c :: rest) :
    ∃ skipped e others, entries = skipped ++ e :: others ∧ (∀ y ∈ skipped, ¬ Readable y) ∧
      Readable e ∧ persisted e = c ∧ readable others = rest := by
  obtain ⟨e, read, hfilter, rfl, rfl⟩ := List.map_eq_cons_iff.mp h
  obtain ⟨skipped, others, rfl, hskipped, he, rfl⟩ := List.filter_eq_cons_iff.mp hfilter
  exact ⟨skipped, e, others, rfl, fun y hy hread => hskipped y hy (decide_eq_true hread),
    of_decide_eq_true he, rfl, rfl⟩

/-- The reader yields the readable ones of the entries in no other way. -/
theorem recovers_of_readRecords (hfits : ∀ e ∈ entries, Fits e)
    (h : readRecords data offset = some (readable entries)) : Recovers data offset entries := by
  induction hn : data.length - offset using Nat.strong_induction_on generalizing offset entries with
  | h n ih =>
    subst hn
    by_cases hframed : Framed data offset
    swap
    · rw [readRecords_eq_decoded, decoded_of_not_framed hframed, Option.map_some,
        Option.some.injEq] at h
      exact .stops hframed (readable_eq_nil_iff.mp h.symm)
    have hless : data.length - (offset + 4 + lengthAt data offset) < data.length - offset := by
      have := hframed.1
      omega
    rw [readRecords_of_framed hframed, Option.bind_eq_some_iff] at h
    obtain ⟨c, hc, hmap⟩ := h
    obtain ⟨rest, hrest, hlist⟩ := Option.map_eq_some_iff.mp hmap
    have hinside := isSome_deserializeEntry.mp (Option.isSome_of_eq_some hc)
    by_cases hpos : 0 < c.index
    · rw [if_pos hpos] at hlist
      obtain ⟨skipped, e, others, rfl, hskipped, he, rfl, rfl⟩ := exists_of_readable_eq_cons hlist.symm
      obtain ⟨heFits, hothers⟩ := List.forall_mem_cons.mp (List.forall_mem_append.mp hfits).2
      have haccepted := (index_pos_iff_accepted hc).mp hpos
      have hshows := (eq_persisted_iff_shows hc haccepted heFits).mp rfl
      have hnext := ih _ hless hothers hrest rfl
      exact .missed_all hskipped (.shown hframed hinside haccepted hshows he hnext)
    · rw [if_neg hpos] at hlist
      have hrefused := fun hacc => hpos ((index_pos_iff_accepted hc).mpr hacc)
      have hnext := ih _ hless hfits (hrest.trans (congrArg some hlist)) rfl
      exact .refused hframed hinside hrefused hnext

end

section
variable {w : WAL} {records entries : List RaftEntry} {x : RaftEntry} {k : Nat}

/-- A crash during `AppendEntries` leaves such a file. -/
theorem appendEntriesPartly_eq (hx : ¬ (x.index ≤ w.lastIndex ∧ w.lastIndex > 0)) :
    w.appendEntriesPartly [x] k = w.withFile (w.tornFile x k) := by
  have hafter : (w.appendEntries [x]).disk.walFiles.getD w.walSeq [] =
      w.disk.walFiles.getD w.walSeq [] ++ serializeEntry x := by
    rw [appendEntries, List.foldl_cons, List.foldl_nil, appendEntry, if_neg hx]
    exact OrderedMap.getD_insert_self _ _ _ _
  unfold appendEntriesPartly withFile tornFile
  rw [hafter]
  dsimp only
  rw [List.take_length_add_append]

/-- What is read from an opened log after an append. -/
theorem readAllEntries_appended {opened : WAL} {file : Bytes} (hseq : opened.walSeq = w.walSeq)
    (hlast : opened.lastIndex = 0) (hfile : opened.disk.walFiles.get? w.walSeq = some file)
    (holder : ∀ seq < w.walSeq,
      opened.disk.walFiles.get? seq = w.disk.walFiles.get? seq) :
    (opened.appendEntries entries).readAllEntries.map Prod.fst =
      ((List.range w.walSeq).mapM (readFile w.disk)).bind fun older =>
        (readRecords (file ++ (accepted 0 entries).flatMap serializeEntry) 0).map fun newest =>
          older.flatten ++ newest := by
  rw [← hseq] at hfile
  have hnewest := appendEntries_file hfile entries
  rw [hlast] at hnewest
  have hcurrent : readFile (opened.appendEntries entries).disk w.walSeq =
      readRecords (file ++ (accepted 0 entries).flatMap serializeEntry) 0 := by
    rw [readFile, ← hseq, hnewest]
  have hothers : ∀ seq < w.walSeq, (opened.appendEntries entries).disk.walFiles.get? seq =
      w.disk.walFiles.get? seq := fun seq hlt => by
    rw [get?_appendEntries_ne entries (by omega), holder seq hlt]
  rw [readAllEntries_fst, appendEntries_walSeq, hseq, hcurrent, mapM_readFile_congr hothers]

/-- What is read after a torn write depends on the bytes from the cut on alone. -/
theorem appendsCleanly_iff_unaffected (h : Tidy w) (hfits : ∀ e ∈ entries, Fits e) :
    AppendsCleanly w x k entries ↔ Unaffected w x k (accepted 0 entries) := by
  obtain ⟨records, hrecords⟩ := h.whole w.walSeq h.current
  have haccepted : ∀ e ∈ accepted 0 entries, Fits e := fun e he => hfits e (mem_of_mem_accepted he)
  obtain ⟨hseq, hget⟩ := h.openDir_withFile (w.tornFile x k)
  obtain ⟨hseq', hget'⟩ := openDir_of_newest h.current h.newest
  have hcurrent : w.disk.walFiles.getD w.walSeq [] = records.flatMap serializeEntry := by
    rw [OrderedMap.getD, hrecords.file, Option.getD_some]
  have htorn : (openDir (w.withFile (w.tornFile x k))).disk.walFiles.get? w.walSeq =
      some (w.tornFile x k) := by
    rw [hget, if_pos rfl]
  have hclean : (openDir w.disk).disk.walFiles.get? w.walSeq =
      some (records.flatMap serializeEntry) := (hget' _).trans hrecords.file
  rw [AppendsCleanly, readAllEntries_appended hseq rfl htorn fun seq hlt => by
    rw [hget, if_neg (by omega)],
    readAllEntries_appended hseq' rfl hclean fun seq _ => hget' seq]
  obtain ⟨older, holder, _⟩ := h.older w.walSeq
  -- without the torn bytes
  have hproper : ∀ e ∈ records ++ accepted 0 entries, Fits e :=
    List.forall_mem_append.mpr ⟨hrecords.fits, haccepted⟩
  have hall := readRecords_records hproper
  rw [List.flatMap_append, readable_append] at hall
  -- with them
  obtain ⟨file, hfile⟩ :
      ∃ file, file = w.tornFile x k ++ (accepted 0 entries).flatMap serializeEntry := ⟨_, rfl⟩
  have hfront : StandsAt file 0 (records.flatMap serializeEntry) := by
    refine ⟨[], (serializeEntry x).take k ++ (accepted 0 entries).flatMap serializeEntry, ?_, rfl⟩
    rw [hfile, tornFile, hcurrent, List.append_assoc, List.nil_append]
  have hread : readRecords file 0 =
      (readRecords file (records.flatMap serializeEntry).length).map (readable records ++ ·) := by
    rw [readRecords_eq_decoded, readRecords_eq_decoded, decoded_records hrecords.fits hfront,
      Nat.zero_add, Option.map_map, Option.map_map]
    congr 1
    funext rest
    rw [Function.comp_apply, List.filter_append, filter_outcome, Function.comp_apply]
  rw [Unaffected, ← hfile, hcurrent, holder, hall, Option.bind_some, Option.bind_some, hread,
    Option.map_map, Option.map_some, Option.map_eq_some_iff]
  constructor
  · rintro ⟨l, hl, heq⟩
    rw [Function.comp_apply, List.append_right_inj, List.append_right_inj] at heq
    exact recovers_of_readRecords haccepted (hl.trans (congrArg some heq))
  · intro hrecovers
    exact ⟨_, hrecovers.readRecords haccepted, rfl⟩

/-- Where the reader stops at the cut, nothing that has been appended is read. -/
theorem unaffected_iff_of_not_framed (hfits : ∀ e ∈ entries, Fits e)
    (hstop : ¬ Framed (w.tornFile x k ++ entries.flatMap serializeEntry)
      (w.disk.walFiles.getD w.walSeq []).length) :
    Unaffected w x k entries ↔ ∀ e ∈ entries, ¬ Readable e := by
  constructor
  · intro h
    have hread := h.readRecords hfits
    rw [readRecords_eq_decoded, decoded_of_not_framed hstop, Option.map_some, Option.some.injEq]
      at hread
    exact readable_eq_nil_iff.mp hread.symm
  · exact .stops hstop

/-- A crash before the first byte does no harm. -/
theorem unaffected_zero : Unaffected w x 0 entries := by
  refine .inStep ⟨w.disk.walFiles.getD w.walSeq [], [], ?_, rfl⟩ ?_
  · rw [tornFile, List.take_zero, List.append_nil, List.append_nil]
  · rw [tornFile, List.take_zero, List.append_nil, List.length_append]

/-- A torn record is not read as anything. -/
theorem unaffected_nil (hx : Fits x) (hk : k < (serializeEntry x).length) :
    Unaffected w x k [] := by
  refine .stops (fun hframed => ?_) (by simp)
  rw [List.flatMap_nil, List.append_nil] at hframed
  obtain ⟨hle, _, hend⟩ := hframed
  obtain ⟨n, hn⟩ : ∃ n, 4 + n = (serializeEntry x).length :=
    ⟨(serializeEntry x).length - 4, by have := length_serializeEntry x; omega⟩
  have hshort := hx.length
  rw [tornFile, List.length_append, List.length_take_of_le hk.le] at hle hend
  -- the length field is whole, and counts the bytes that are missing
  have hstands : StandsAt (w.tornFile x k) (w.disk.walFiles.getD w.walSeq []).length (writeU32 n) := by
    have htorn : StandsAt (w.tornFile x k) (w.disk.walFiles.getD w.walSeq []).length
        ((serializeEntry x).take k) := ⟨_, [], by rw [List.append_nil, tornFile], rfl⟩
    have hfour := htorn.take 4
    rwa [List.take_take, Nat.min_eq_left (by omega), take_serializeEntry hn] at hfour
  have hlength := lengthAt_of hstands (by omega)
  rw [tornFile] at hlength
  omega

/-- Entries appended behind a torn record are read as if it were not there exactly when the reader,
following the length fields from the cut on, comes to their records. -/
theorem torn_write_iff (h : Run WAL.call (fun _ => Call.Fits) (openDir {}) w)
    (hfits : ∀ e ∈ entries, Fits e) :
    AppendsCleanly w x k entries ↔ Unaffected w x k (accepted 0 entries) :=
  appendsCleanly_iff_unaffected (tidy_run h) hfits

end

/-- A put whose record is as long as the length field and the record of another one. -/
def widePut : RaftEntry := { plainPut with value := [0, 0, 0, 0] }

def nextPlainPut : RaftEntry := { plainPut with index := 2 }

def thirdLuckyPut : RaftEntry := { plainPut with index := 3, leaseId := 0x4ab0eb5900000000 }

theorem fits_nextPuts : ∀ e ∈ [nextPlainPut, thirdLuckyPut], Fits e := by
  have hplain : Fits nextPlainPut := fits_put (by decide) (by decide)
  have hlucky : Fits thirdLuckyPut := fits_put (by decide) (by decide)
  simpa using And.intro hplain hlucky

/-- The torn length field counts the record of an entry that cannot be read, and the reader goes on
with the next one. -/
theorem torn_write_iff_widePut :
    AppendsCleanly (openDir {}) widePut 4 [nextPlainPut, thirdLuckyPut] ∧ Readable thirdLuckyPut := by
  obtain ⟨file, hfile⟩ : ∃ file, file = (openDir {}).tornFile widePut 4 ++
      [nextPlainPut, thirdLuckyPut].flatMap serializeEntry := ⟨_, rfl⟩
  have hlength : lengthAt file 0 = 42 := by
    rw [hfile]
    decide +kernel
  have hthird : Recovers file (0 + 4 + lengthAt file 0) [thirdLuckyPut] := by
    rw [hlength, hfile]
    exact .inStep ⟨(serializeEntry widePut).take 4 ++ serializeEntry nextPlainPut, [], rfl, rfl⟩ rfl
  have hunaffected : Unaffected (openDir {}) widePut 4 [nextPlainPut, thirdLuckyPut] := by
    subst hfile
    exact .refused (by decide +kernel) (by decide +kernel) (by decide +kernel)
      (.missed (by decide +kernel) hthird)
  exact ⟨(torn_write_iff .start fits_nextPuts).mpr hunaffected, by decide +kernel⟩

def longPut : RaftEntry := { plainPut with value := List.replicate 100 0 }

/-- Only the length field of a record has been written, and the next entry is lost. -/
theorem torn_write_loses_entry : ¬ AppendsCleanly (openDir {}) longPut 4 [nextLuckyPut] := by
  have hfits : ∀ e ∈ [nextLuckyPut], Fits e := fun e he =>
    fits_luckyPuts e (List.mem_cons_of_mem _ he)
  have hstop : ¬ Framed ((openDir {}).tornFile longPut 4 ++ [nextLuckyPut].flatMap serializeEntry)
      ((openDir {}).disk.walFiles.getD (openDir {}).walSeq []).length := by decide +kernel
  intro h
  have hunaffected := (appendsCleanly_iff_unaffected tidy_fresh hfits).mp h
  have hnone := (unaffected_iff_of_not_framed hfits hstop).mp hunaffected
  exact hnone nextLuckyPut List.mem_cons_self readable_nextLuckyPut

end WAL
end MyEtcd
