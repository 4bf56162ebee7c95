import MyEtcd.Library.Execution
import MyEtcd.Wal.RoundTrip

/-! A log over any run of its operations.
Its files stay sequences of whole records, and every read is the readable ones in the order of the
files. -/
namespace MyEtcd
open Library

namespace WAL

/-- What `AppendEntries` writes of a list when the last index is `last`. -/
def accepted : Nat → List RaftEntry → List RaftEntry
  | _, [] => []
  | last, e :: rest =>
    if e.index ≤ last ∧ last > 0 then accepted last rest else e :: accepted e.index rest

theorem mem_of_mem_accepted {last : Nat} {entries : List RaftEntry} {e : RaftEntry}
    (h : e ∈ accepted last entries) : e ∈ entries := by
  induction entries generalizing last with
  | nil => exact h
  | cons x rest ih =>
    rw [accepted] at h
    split_ifs at h
    · exact List.mem_cons_of_mem _ (ih h)
    · rcases List.mem_cons.mp h with rfl | h
      · exact List.mem_cons_self
      · exact List.mem_cons_of_mem _ (ih h)

/-- The file under a sequence number consists of these records. -/
structure Holds (disk : Disk) (seq : Nat) (records : List RaftEntry) : Prop where
  file : disk.walFiles.get? seq = some (records.flatMap serializeEntry)
  fits : ∀ e ∈ records, Fits e

/-- The log's files are whole records, and it writes to the newest one. -/
structure Tidy (w : WAL) : Prop where
  whole : ∀ seq ∈ w.disk.walFiles.keys, ∃ records, Holds w.disk seq records
  newest : ∀ seq ∈ w.disk.walFiles.keys, seq ≤ w.walSeq
  current : w.walSeq ∈ w.disk.walFiles.keys

section
variable {w w' : WAL} {records entries : List RaftEntry}

@[simp] theorem appendEntry_walSeq (w : WAL) (e : RaftEntry) : (w.appendEntry e).walSeq = w.walSeq := by
  unfold appendEntry
  split_ifs <;> rfl

@[simp] theorem appendEntries_walSeq (w : WAL) (entries : List RaftEntry) :
    (w.appendEntries entries).walSeq = w.walSeq := by
  induction entries generalizing w with
  | nil => rfl
  | cons e rest ih => rw [appendEntries, List.foldl_cons, ← appendEntries, ih, appendEntry_walSeq]

theorem accepted_cons (w : WAL) (e : RaftEntry) (rest : List RaftEntry) :
    accepted w.lastIndex (e :: rest) =
      accepted w.lastIndex [e] ++ accepted (w.appendEntry e).lastIndex rest := by
  unfold appendEntry
  by_cases hskip : e.index ≤ w.lastIndex ∧ w.lastIndex > 0
  · simp [accepted, hskip]
  · simp only [accepted, if_neg hskip, List.singleton_append]

/-- What is accepted is written behind what the current file holds. -/
theorem appendEntries_file {file : Bytes} (h : w.disk.walFiles.get? w.walSeq = some file)
    (entries : List RaftEntry) :
    (w.appendEntries entries).disk.walFiles.get? w.walSeq =
      some (file ++ (accepted w.lastIndex entries).flatMap serializeEntry) := by
  induction entries generalizing w file with
  | nil =>
    rw [accepted, List.flatMap_nil, List.append_nil]
    exact h
  | cons e rest ih =>
    have hfirst : (w.appendEntry e).disk.walFiles.get? w.walSeq =
        some (file ++ (accepted w.lastIndex [e]).flatMap serializeEntry) := by
      rw [appendEntry, accepted]
      split_ifs
      · rw [accepted, List.flatMap_nil, List.append_nil, h]
      · rw [write, OrderedMap.get?_insert_self, OrderedMap.getD, h, Option.getD_some, accepted,
          List.flatMap_singleton]
    rw [← appendEntry_walSeq w e] at hfirst ⊢
    rw [accepted_cons, List.flatMap_append, ← List.append_assoc]
    exact ih hfirst

theorem Holds.appendEntries (h : Holds w.disk w.walSeq records) (hfits : ∀ e ∈ entries, Fits e) :
    Holds (w.appendEntries entries).disk w.walSeq (records ++ accepted w.lastIndex entries) := by
  refine ⟨?_, fun e he => ?_⟩
  · rw [appendEntries_file h.file, List.flatMap_append]
  · rcases List.mem_append.mp he with he | he
    · exact h.fits e he
    · exact hfits e (mem_of_mem_accepted he)

theorem get?_appendEntries_ne (entries : List RaftEntry) {seq : Nat} (h : seq ≠ w.walSeq) :
    (w.appendEntries entries).disk.walFiles.get? seq = w.disk.walFiles.get? seq := by
  induction entries generalizing w with
  | nil => rfl
  | cons e rest ih =>
    rw [WAL.appendEntries, List.foldl_cons, ← WAL.appendEntries, ih (by rwa [appendEntry_walSeq]),
      WAL.appendEntry]
    split_ifs
    · rfl
    · exact OrderedMap.get?_insert_ne _ _ h

end

def readFile (disk : Disk) (seq : Nat) : Option (List RaftEntry) :=
  match disk.walFiles.get? seq with
  | none => some []
  | some data => readRecords data 0

theorem readAllEntries_walSeq {w w' : WAL} {entries : List RaftEntry}
    (h : w.readAllEntries = some (entries, w')) : w'.walSeq = w.walSeq := by
  obtain ⟨_, _, heq⟩ := Option.bind_eq_some_iff.mp h
  rw [← (Prod.mk.inj (Option.some.inj heq)).2]

/-- All files are read in order, the current one last. -/
theorem readAllEntries_fst (w : WAL) :
    w.readAllEntries.map Prod.fst =
      ((List.range w.walSeq).mapM (readFile w.disk)).bind fun older =>
        (readFile w.disk w.walSeq).map fun newest => older.flatten ++ newest := by
  have hfiles : w.readAllEntries.map Prod.fst =
      ((List.range (w.walSeq + 1)).mapM (readFile w.disk)).map List.flatten := by
    unfold readAllEntries
    rw [Option.bind_eq_bind, Option.map_bind]
    exact (Option.map_eq_bind ..).symm
  rw [hfiles, List.range_succ, List.mapM_append]
  cases (List.range w.walSeq).mapM (readFile w.disk) with
  | none => rfl
  | some older =>
    simp only [List.mapM_cons, List.mapM_nil, Option.bind_eq_bind, Option.bind_some]
    cases readFile w.disk w.walSeq with
    | none => rfl
    | some newest => simp

theorem Holds.readFile {disk : Disk} {seq : Nat} {records : List RaftEntry}
    (h : Holds disk seq records) : WAL.readFile disk seq = some (readable records) := by
  unfold WAL.readFile
  rw [h.file]
  exact readRecords_records h.fits

/-- An entry whose record is read back as it is. -/
structure Settled (e : RaftEntry) : Prop where
  fits : Fits e
  readable : Readable e
  whole : persisted e = e

theorem Holds.settled {disk : Disk} {seq : Nat} {records : List RaftEntry}
    (h : Holds disk seq records) : ∀ e ∈ readable records, Settled e := by
  intro e he
  obtain ⟨x, hx, rfl⟩ := List.mem_map.mp he
  obtain ⟨hmem, hread⟩ := List.mem_filter.mp hx
  have hread := of_decide_eq_true hread
  refine ⟨(h.fits x hmem).persisted, ?_, ?_⟩
  · rw [Readable, persisted_index, ChecksumAgrees, fields_persisted]
    exact hread
  · unfold persisted
    split_ifs <;> rfl

theorem readable_of_settled {entries : List RaftEntry} (h : ∀ e ∈ entries, Settled e) :
    readable entries = entries := by
  rw [readable_eq_map_iff.mpr fun e he => (h e he).readable]
  exact (List.map_congr_left fun e he => (h e he).whole).trans (List.map_id' entries)

section
variable {w w' : WAL} {entries : List RaftEntry}

theorem Tidy.readFile (h : Tidy w) (seq : Nat) :
    ∃ entries, WAL.readFile w.disk seq = some entries ∧ ∀ e ∈ entries, Settled e := by
  by_cases hseq : seq ∈ w.disk.walFiles.keys
  · obtain ⟨records, hrecords⟩ := h.whole seq hseq
    exact ⟨_, hrecords.readFile, hrecords.settled⟩
  · have hnone : w.disk.walFiles.get? seq = none := by
      rwa [OrderedMap.mem_keys_iff, Bool.not_eq_true, Option.isSome_eq_false_iff,
        Option.isNone_iff_eq_none] at hseq
    refine ⟨[], ?_, by simp⟩
    rw [WAL.readFile, hnone]

theorem Tidy.older (h : Tidy w) (n : Nat) :
    ∃ older : List (List RaftEntry), (List.range n).mapM (WAL.readFile w.disk) = some older ∧
      ∀ e ∈ older.flatten, Settled e := by
  induction n with
  | zero => exact ⟨[], rfl, by simp⟩
  | succ n ih =>
    obtain ⟨older, holder, hsettled⟩ := ih
    obtain ⟨newest, hnewest, hsettled'⟩ := h.readFile n
    refine ⟨older ++ [newest], ?_, fun e he => ?_⟩
    · rw [List.range_succ, List.mapM_append, holder]
      simp [hnewest]
    · rw [List.flatten_append, List.flatten_singleton] at he
      rcases List.mem_append.mp he with he | he
      · exact hsettled e he
      · exact hsettled' e he

/-- Reading a tidy log yields what its older files hold and the readable records of the current
one. -/
theorem Tidy.read (h : Tidy w) :
    ∃ older records, Holds w.disk w.walSeq records ∧
      w.readAllEntries.map Prod.fst = some (older ++ readable records) ∧
      ∀ e ∈ older ++ readable records, Settled e := by
  obtain ⟨older, holder, hsettled⟩ := h.older w.walSeq
  obtain ⟨records, hrecords⟩ := h.whole w.walSeq h.current
  refine ⟨older.flatten, records, hrecords, ?_, fun e he => ?_⟩
  · rw [readAllEntries_fst, holder, hrecords.readFile]
    rfl
  · rcases List.mem_append.mp he with he | he
    · exact hsettled e he
    · exact hrecords.settled e he

theorem mapM_readFile_congr {a b : Disk} {n : Nat}
    (h : ∀ seq < n, a.walFiles.get? seq = b.walFiles.get? seq) :
    (List.range n).mapM (WAL.readFile a) = (List.range n).mapM (WAL.readFile b) := by
  induction n with
  | zero => rfl
  | succ n ih =>
    have hlast : WAL.readFile a n = WAL.readFile b n := by
      rw [WAL.readFile, h n (Nat.lt_succ_self n), ← WAL.readFile]
    rw [List.range_succ, List.mapM_append, List.mapM_append,
      ih fun seq hseq => h seq (Nat.lt_succ_of_lt hseq)]
    simp only [List.mapM_cons, List.mapM_nil, hlast]

theorem mapM_readFile_missing {disk : Disk} {n : Nat}
    (h : ∀ seq < n, disk.walFiles.get? seq = none) :
    (List.range n).mapM (WAL.readFile disk) = some (List.replicate n []) := by
  induction n with
  | zero => rfl
  | succ n ih =>
    have hlast : WAL.readFile disk n = some [] := by
      rw [WAL.readFile, h n (Nat.lt_succ_self n)]
    rw [List.range_succ, List.mapM_append, ih fun seq hseq => h seq (Nat.lt_succ_of_lt hseq),
      List.replicate_succ']
    simp [hlast]

/-- A tidy log's directory after the older files have been replaced by a new one. -/
def rewritten (disk : Disk) (seq : Nat) (kept : List RaftEntry) : Disk :=
  { disk with
    walFiles := (removeFiles disk.walFiles seq).insert (seq + 1) (kept.flatMap serializeEntry) }

theorem get?_rewritten (disk : Disk) (newest : Nat) (kept : List RaftEntry) (seq : Nat) :
    (rewritten disk newest kept).walFiles.get? seq =
      if seq = newest + 1 then some (kept.flatMap serializeEntry)
      else if seq < newest then none else disk.walFiles.get? seq := by
  rw [rewritten, OrderedMap.get?_insert, removeFiles, OrderedMap.get?_foldl_erase]
  simp only [List.mem_range]

theorem truncateFrom_of_read (idx : Nat) (hread : w.readAllEntries.map Prod.fst = some entries) :
    ∃ w', w.truncateFrom idx = some w' ∧ w'.walSeq = w.walSeq + 1 ∧
      w'.disk = rewritten w.disk w.walSeq (entries.filter fun e => e.index ≥ idx) := by
  obtain ⟨⟨_, read⟩, hall, rfl⟩ := Option.map_eq_some_iff.mp hread
  have hdisk : read.disk = w.disk := readAllEntries_disk hall
  have hseq : read.walSeq = w.walSeq := readAllEntries_walSeq hall
  rw [WAL.truncateFrom, hall, Option.bind_eq_bind, Option.bind_some]
  dsimp only
  rw [hdisk, hseq]
  exact ⟨_, rfl, rfl, rfl⟩

/-- Truncating a tidy log keeps the entries it should keep, behind the readable records of the file
that was the current one. -/
theorem Tidy.truncateFrom (h : Tidy w) {records : List RaftEntry} (idx : Nat)
    (hrecords : Holds w.disk w.walSeq records)
    (hread : w.readAllEntries.map Prod.fst = some entries) (hsettled : ∀ e ∈ entries, Settled e) :
    ∃ w', w.truncateFrom idx = some w' ∧ Tidy w' ∧
      w'.readAllEntries.map Prod.fst =
        some (readable records ++ entries.filter fun e => e.index ≥ idx) := by
  obtain ⟨w', htruncate, hseq, hdisk⟩ := truncateFrom_of_read idx hread
  generalize hkept : entries.filter (fun e => e.index ≥ idx) = kept at hdisk ⊢
  have hsettled' : ∀ e ∈ kept, Settled e := fun e he =>
    hsettled e (List.mem_filter.mp (hkept ▸ he)).1
  have hget (seq : Nat) := hdisk ▸ get?_rewritten w.disk w.walSeq kept seq
  have hnew : Holds w'.disk w'.walSeq kept := by
    refine ⟨?_, fun e he => (hsettled' e he).fits⟩
    rw [hget, hseq, if_pos rfl]
  have hold : Holds w'.disk w.walSeq records := by
    refine ⟨?_, hrecords.fits⟩
    rw [hget, if_neg (by omega), if_neg (by omega), hrecords.file]
  have hkeys (seq : Nat) (hmem : seq ∈ w'.disk.walFiles.keys) :
      seq = w'.walSeq ∨ seq = w.walSeq := by
    rw [OrderedMap.mem_keys_iff, hget] at hmem
    split_ifs at hmem with hself hless
    · exact .inl (hself.trans hseq.symm)
    · cases hmem
    · have := h.newest seq ((OrderedMap.mem_keys_iff _ _).mpr hmem)
      exact .inr (by omega)
  refine ⟨w', htruncate, ⟨fun seq hmem => ?_, fun seq hmem => ?_, ?_⟩, ?_⟩
  · rcases hkeys seq hmem with rfl | rfl
    · exact ⟨kept, hnew⟩
    · exact ⟨records, hold⟩
  · have := hkeys seq hmem
    omega
  · rw [OrderedMap.mem_keys_iff, hnew.file]
    rfl
  · have hmissing : ∀ seq < w.walSeq, w'.disk.walFiles.get? seq = none := by
      intro seq hlt
      rw [hget, if_neg (by omega), if_pos hlt]
    have holder := mapM_readFile_missing hmissing
    rw [readAllEntries_fst, hseq, List.range_succ, List.mapM_append, holder]
    rw [← hseq, hnew.readFile, readable_of_settled hsettled']
    simp [hold.readFile]

theorem Tidy.appendEntries (h : Tidy w) (hfits : ∀ e ∈ entries, Fits e) :
    Tidy (w.appendEntries entries) := by
  obtain ⟨records, hrecords⟩ := h.whole w.walSeq h.current
  have hnew := hrecords.appendEntries hfits
  have hkeys (seq : Nat) : seq ∈ (w.appendEntries entries).disk.walFiles.keys ↔
      seq ∈ w.disk.walFiles.keys := by
    by_cases hseq : seq = w.walSeq
    · rw [hseq, OrderedMap.mem_keys_iff, hnew.file]
      exact iff_of_true rfl h.current
    · rw [OrderedMap.mem_keys_iff, get?_appendEntries_ne entries hseq, ← OrderedMap.mem_keys_iff]
  refine ⟨fun seq hmem => ?_, fun seq hmem => ?_, ?_⟩
  · by_cases hseq : seq = w.walSeq
    · exact ⟨_, hseq ▸ hnew⟩
    · obtain ⟨others, hothers⟩ := h.whole seq ((hkeys seq).mp hmem)
      refine ⟨others, ?_, hothers.fits⟩
      rw [get?_appendEntries_ne entries hseq, hothers.file]
  · rw [appendEntries_walSeq]
    exact h.newest seq ((hkeys seq).mp hmem)
  · rw [appendEntries_walSeq]
    exact (hkeys _).mpr h.current

/-- A file that is there stays as it is when the directory is opened. -/
theorem Holds.openDir {disk : Disk} {seq : Nat} {records : List RaftEntry}
    (h : Holds disk seq records) : Holds (WAL.openDir disk).disk seq records := by
  refine ⟨?_, h.fits⟩
  rw [WAL.openDir, OrderedMap.get?_insert, OrderedMap.getD]
  split_ifs with hseq
  · rw [← hseq, h.file, Option.getD_some]
  · exact h.file

/-- Opening a directory picks the newest of its files. -/
theorem Tidy.openDir {disk : Disk}
    (h : ∀ seq ∈ disk.walFiles.keys, ∃ records, Holds disk seq records) :
    Tidy (WAL.openDir disk) := by
  have hmax (seq : Nat) (hmem : seq ∈ disk.walFiles.keys) : seq ≤ (WAL.openDir disk).walSeq :=
    (OrderedMap.foldl_max_le_iff.mp (le_refl (disk.walFiles.keys.foldl max 0))).2 seq hmem
  have hkeys (seq : Nat) : seq ∈ (WAL.openDir disk).disk.walFiles.keys ↔
      seq = (WAL.openDir disk).walSeq ∨ seq ∈ disk.walFiles.keys :=
    OrderedMap.mem_keys_insert _ _ _ _
  refine ⟨fun seq hmem => ?_, fun seq hmem => ?_, (hkeys _).mpr (.inl rfl)⟩
  · by_cases hold : seq ∈ disk.walFiles.keys
    · obtain ⟨records, hrecords⟩ := h seq hold
      exact ⟨records, hrecords.openDir⟩
    · have hself : seq = (WAL.openDir disk).walSeq := ((hkeys seq).mp hmem).resolve_right hold
      have hnone : disk.walFiles.get? seq = none := by
        rwa [OrderedMap.mem_keys_iff, Bool.not_eq_true, Option.isSome_eq_false_iff,
          Option.isNone_iff_eq_none] at hold
      refine ⟨[], ?_, by simp⟩
      rw [WAL.openDir, OrderedMap.get?_insert, OrderedMap.getD]
      dsimp only [WAL.openDir] at hself
      rw [if_pos hself, ← hself, hnone]
      rfl
  · rcases (hkeys seq).mp hmem with rfl | hmem
    · exact le_rfl
    · exact hmax seq hmem

/-- Opening a directory that has files leaves them all, and writes to the newest one. -/
theorem openDir_of_newest {disk : Disk} {newest : Nat} (hmem : newest ∈ disk.walFiles.keys)
    (hle : ∀ seq ∈ disk.walFiles.keys, seq ≤ newest) :
    (WAL.openDir disk).walSeq = newest ∧
      ∀ seq, (WAL.openDir disk).disk.walFiles.get? seq = disk.walFiles.get? seq := by
  have hseq : disk.walFiles.keys.foldl max 0 = newest :=
    le_antisymm (OrderedMap.foldl_max_le_iff.mpr ⟨Nat.zero_le _, hle⟩)
      ((OrderedMap.foldl_max_le_iff.mp le_rfl).2 newest hmem)
  refine ⟨hseq, fun seq => ?_⟩
  obtain ⟨file, hfile⟩ := Option.isSome_iff_exists.mp ((OrderedMap.mem_keys_iff _ _).mp hmem)
  rw [WAL.openDir, OrderedMap.get?_insert, OrderedMap.getD, hseq]
  split_ifs with heq
  · rw [heq, hfile, Option.getD_some]
  · rfl

def withFile (w : WAL) (file : Bytes) : Disk :=
  { w.disk with walFiles := w.disk.walFiles.insert w.walSeq file }

theorem Tidy.openDir_withFile (h : Tidy w) (file : Bytes) :
    (WAL.openDir (w.withFile file)).walSeq = w.walSeq ∧
      ∀ seq, (WAL.openDir (w.withFile file)).disk.walFiles.get? seq =
        if seq = w.walSeq then some file else w.disk.walFiles.get? seq := by
  have hkeys (seq : Nat) : seq ∈ (w.withFile file).walFiles.keys ↔
      seq = w.walSeq ∨ seq ∈ w.disk.walFiles.keys := OrderedMap.mem_keys_insert _ _ _ _
  obtain ⟨hopen, hget⟩ := openDir_of_newest ((hkeys w.walSeq).mpr (.inl rfl)) fun seq hmem => by
    rcases (hkeys seq).mp hmem with rfl | hmem
    · exact le_rfl
    · exact h.newest seq hmem
  refine ⟨hopen, fun seq => ?_⟩
  rw [hget, withFile, OrderedMap.get?_insert]

/-- The operations of a log, and opening its directory again. -/
inductive Call where
  | appendEntries (entries : List RaftEntry)
  | truncateFrom (idx : Nat)
  | readAllEntries
  | reopen

def call (w : WAL) : Call → Option WAL
  | .appendEntries entries => some (w.appendEntries entries)
  | .truncateFrom idx => w.truncateFrom idx
  | .readAllEntries => w.readAllEntries.map Prod.snd
  | .reopen => some (openDir w.disk)

def Call.Fits : Call → Prop
  | .appendEntries entries => ∀ e ∈ entries, WAL.Fits e
  | _ => True

theorem holds_fresh : Holds (openDir {}).disk 0 [] := ⟨rfl, by simp⟩

theorem tidy_fresh : Tidy (openDir {}) := .openDir fun _ h => by cases h

theorem Tidy.call {c : Call} (h : Tidy w) (hc : c.Fits) (hcall : w.call c = some w') : Tidy w' := by
  cases c with
  | appendEntries entries => exact Option.some.inj hcall ▸ h.appendEntries hc
  | truncateFrom idx =>
    obtain ⟨_, records, hrecords, hread, hsettled⟩ := h.read
    obtain ⟨done, htruncate, htidy, _⟩ := h.truncateFrom idx hrecords hread hsettled
    obtain rfl := Option.some.inj (htruncate.symm.trans hcall)
    exact htidy
  | readAllEntries =>
    obtain ⟨⟨_, read⟩, hread, rfl⟩ := Option.map_eq_some_iff.mp hcall
    have hdisk : read.disk = w.disk := readAllEntries_disk hread
    have hseq : read.walSeq = w.walSeq := readAllEntries_walSeq hread
    exact ⟨hdisk ▸ h.whole, hdisk ▸ hseq ▸ h.newest, hdisk ▸ hseq ▸ h.current⟩
  | reopen => exact Option.some.inj hcall ▸ .openDir h.whole

theorem tidy_run (h : Run WAL.call (fun _ => Call.Fits) (openDir {}) w) : Tidy w :=
  h.invariant (fun htidy hc hcall => htidy.call hc hcall) tidy_fresh

theorem run_appendEntries (hfits : ∀ e ∈ entries, Fits e) :
    Run WAL.call (fun _ => Call.Fits) (openDir {}) ((openDir {}).appendEntries entries) :=
  .next (a := .appendEntries entries) .start hfits rfl

end

/-- A put at the next index whose checksums agree as well. -/
def nextLuckyPut : RaftEntry := { plainPut with index := 2, leaseId := 0x52cca38400000000 }

theorem fits_luckyPuts : ∀ e ∈ [luckyPut, nextLuckyPut], Fits e := by
  have hnext : Fits nextLuckyPut := fits_put (by decide) (by decide)
  simpa using And.intro fits_luckyPut hnext

theorem readable_nextLuckyPut : Readable nextLuckyPut := by decide +kernel

end WAL
end MyEtcd
