import MyEtcd.Wal.Record

/-! The write-ahead log on disk: appending entries and reading them all back.
Writes are taken to succeed, and a file is the list of its bytes. -/
namespace MyEtcd
open Library

/-- What a server finds in its data directory, the log files under their sequence numbers and the
snapshots under the index in their names. -/
structure Disk where
  walFiles : OrderedMap Nat Bytes := ∅
  hardState : Option Bytes := none
  snapshots : OrderedMap Nat Bytes := ∅

structure WAL where
  disk : Disk
  walSeq : Nat := 0
  lastIndex : Nat := 0

namespace WAL

/-- Open the file with the largest sequence number, and create it if there is none. -/
def openDir (disk : Disk) : WAL :=
  let seq := disk.walFiles.keys.foldl max 0
  { disk := { disk with walFiles := disk.walFiles.insert seq (disk.walFiles.getD seq []) }
    walSeq := seq }

def write (w : WAL) (data : Bytes) : WAL :=
  { w with disk := { w.disk with
      walFiles := w.disk.walFiles.insert w.walSeq (w.disk.walFiles.getD w.walSeq [] ++ data) } }

/-- One round of `AppendEntries`: an index that is not larger than the last one is skipped. -/
def appendEntry (w : WAL) (entry : RaftEntry) : WAL :=
  if entry.index ≤ w.lastIndex ∧ w.lastIndex > 0 then w
  else { w.write (serializeEntry entry) with lastIndex := entry.index }

def appendEntries (w : WAL) (entries : List RaftEntry) : WAL := entries.foldl appendEntry w

/-- The entries of the records in a file from `offset` on. Records whose entry comes out with index
zero are passed over. The source takes `4 + len` as a 32-bit sum, which is that of the numbers as long
as `len` is below `2 ^ 32 - 4`; a larger one passes only in a file of 4 GiB. -/
def readRecords (data : Bytes) (offset : Nat) : Option (List RaftEntry) :=
  if offset + 4 ≤ data.length then do
    let (len, _) ← readU32 data offset
    if len = 0 ∨ offset + 4 + len > data.length then some []
    else
      let entry ← deserializeEntry data offset
      let rest ← readRecords data (offset + 4 + len)
      some (if entry.index > 0 then entry :: rest else rest)
  else some []
termination_by data.length - offset

/-- `ReadAllEntriesUnlocked`: all files in order, a missing one counting as empty. -/
def readAllEntries (w : WAL) : Option (List RaftEntry × WAL) := do
  let files ← (List.range (w.walSeq + 1)).mapM fun seq =>
    match w.disk.walFiles.get? seq with
    | none => some []
    | some data => readRecords data 0
  let entries := files.flatten
  some (entries, { w with lastIndex := entries.foldl (fun m e => max m e.index) w.lastIndex })

/-- A log of one file is what stands in that file. -/
theorem readAllEntries_of_file {w : WAL} {data : Bytes} (hseq : w.walSeq = 0)
    (hfile : w.disk.walFiles.get? 0 = some data) :
    w.readAllEntries = (readRecords data 0).map fun entries =>
      (entries, { w with lastIndex := entries.foldl (fun m e => max m e.index) w.lastIndex }) := by
  simp only [readAllEntries, hseq, hfile, Nat.zero_add, List.range_one, List.mapM_cons,
    List.mapM_nil, Option.bind_eq_bind, Option.pure_def]
  cases readRecords data 0 with
  | none => rfl
  | some entries => simp

/-- A directory without files of the log has no entries. -/
theorem readAllEntries_openDir_empty {disk : Disk} (h : disk.walFiles = ∅) :
    (openDir disk).readAllEntries = some ([], openDir disk) := by
  have hempty : readRecords [] 0 = some [] := by
    unfold readRecords
    rfl
  have hseq : (openDir disk).walSeq = 0 := by
    rw [openDir, h]
    rfl
  have hfile : (openDir disk).disk.walFiles.get? 0 = some [] := by
    rw [openDir, h]
    rfl
  rw [readAllEntries_of_file hseq hfile, hempty]
  rfl

def removeFiles (files : OrderedMap Nat Bytes) (n : Nat) : OrderedMap Nat Bytes :=
  (List.range n).foldl OrderedMap.erase files

/-- Keep the entries from `idx` on, in a new file. The current file stays where it is. -/
def truncateFrom (w : WAL) (idx : Nat) : Option WAL := do
  let (entries, w) ← w.readAllEntries
  let kept := entries.filter fun e => e.index ≥ idx
  let files := removeFiles w.disk.walFiles w.walSeq
  let seq := w.walSeq + 1
  some {
    disk := { w.disk with walFiles := files.insert seq (kept.flatMap serializeEntry) }
    walSeq := seq
    lastIndex := (kept.getLast?.map RaftEntry.index).getD (predIndex idx) }

/-- The file is written aside and renamed. -/
def saveHardState (w : WAL) (state : RaftHardState) : WAL :=
  { w with disk := { w.disk with hardState := some (writeU64 state.currentTerm ++
      (writeU64 (state.votedFor.getD 0) ++ writeU64 state.commitIndex)) } }

def loadHardState (disk : Disk) : Option RaftHardState := do
  let data ← disk.hardState
  let (currentTerm, offset) ← readU64 data 0
  let (voted, offset) ← readU64 data offset
  let (commitIndex, _) ← readU64 data offset
  some { currentTerm, votedFor := if voted = 0 then none else some voted, commitIndex }

/-- The files when only `n` bytes of the new records have been written. -/
def appendEntriesPartly (w : WAL) (entries : List RaftEntry) (n : Nat) : Disk :=
  let before := w.disk.walFiles.getD w.walSeq []
  let after := (w.appendEntries entries).disk.walFiles.getD w.walSeq []
  { w.disk with walFiles := w.disk.walFiles.insert w.walSeq (after.take (before.length + n)) }

/-- The files when `TruncateFrom` has removed `n` files, or all of them and has written some bytes
of the new one. -/
def truncateFromPartly (w : WAL) (idx n : Nat) : Option Disk := do
  if n ≤ w.walSeq then some { w.disk with walFiles := removeFiles w.disk.walFiles n }
  else
    let done ← w.truncateFrom idx
    let data := done.disk.walFiles.getD done.walSeq []
    some { done.disk with
      walFiles := done.disk.walFiles.insert done.walSeq (data.take (n - w.walSeq - 1)) }

theorem foldl_appendEntries (batches : List (List RaftEntry)) :
    batches.foldl appendEntries (openDir {}) = (openDir {}).appendEntries batches.flatten := by
  rw [appendEntries, List.foldl_flatten]
  rfl

@[simp] theorem appendEntries_snapshots (w : WAL) (entries : List RaftEntry) :
    (w.appendEntries entries).disk.snapshots = w.disk.snapshots := by
  induction entries generalizing w with
  | nil => rfl
  | cons e rest ih =>
    rw [appendEntries, List.foldl_cons, ← appendEntries, ih, appendEntry]
    split_ifs
    · rfl
    · rfl

theorem readAllEntries_disk {w w' : WAL} {entries : List RaftEntry}
    (h : w.readAllEntries = some (entries, w')) : w'.disk = w.disk := by
  obtain ⟨_, _, heq⟩ := Option.bind_eq_some_iff.mp h
  obtain ⟨_, rfl⟩ := Prod.mk.inj (Option.some.inj heq)
  rfl

theorem truncateFrom_snapshots {w w' : WAL} {idx : Nat} (h : w.truncateFrom idx = some w') :
    w'.disk.snapshots = w.disk.snapshots := by
  obtain ⟨⟨_, read⟩, hread, heq⟩ := Option.bind_eq_some_iff.mp h
  obtain rfl := Option.some.inj heq
  have hdisk : read.disk = w.disk := readAllEntries_disk hread
  dsimp only
  rw [hdisk]

theorem truncateFromPartly_snapshots {w : WAL} {idx n : Nat} {disk : Disk}
    (h : w.truncateFromPartly idx n = some disk) : disk.snapshots = w.disk.snapshots := by
  unfold truncateFromPartly at h
  split_ifs at h
  · obtain rfl := Option.some.inj h
    rfl
  · obtain ⟨_, hdone, heq⟩ := Option.bind_eq_some_iff.mp h
    obtain rfl := Option.some.inj heq
    exact truncateFrom_snapshots hdone

/-- The log consists of one file with the records of these entries. -/
structure Contains (w : WAL) (entries : List RaftEntry) : Prop where
  seq : w.walSeq = 0
  file : w.disk.walFiles.get? 0 = some (entries.flatMap serializeEntry)
  last : w.lastIndex = (entries.getLast?.map RaftEntry.index).getD 0

instance (w : WAL) (entries : List RaftEntry) : Decidable (Contains w entries) :=
  decidable_of_iff (_ ∧ _ ∧ _) ⟨fun h => ⟨h.1, h.2.1, h.2.2⟩, fun h => ⟨h.seq, h.file, h.last⟩⟩

theorem contains_openDir : Contains (openDir {}) [] := ⟨rfl, rfl, rfl⟩

theorem Contains.appendEntry {w : WAL} {entries : List RaftEntry} (h : Contains w entries)
    {e : RaftEntry} (hlater : ∀ x ∈ entries, x.index < e.index) :
    Contains (w.appendEntry e) (entries ++ [e]) := by
  have hwritten : ¬ (e.index ≤ w.lastIndex ∧ w.lastIndex > 0) := by
    rw [h.last]
    cases hlast : entries.getLast? with
    | none => simp
    | some x =>
      have := hlater x (List.mem_of_getLast? hlast)
      simp only [Option.map_some, Option.getD_some]
      omega
  rw [WAL.appendEntry, if_neg hwritten]
  refine ⟨h.seq, ?_, by simp⟩
  have hold : w.disk.walFiles.getD 0 [] = entries.flatMap serializeEntry := by
    rw [OrderedMap.getD, h.file, Option.getD_some]
  simp only [write, h.seq, hold, OrderedMap.get?_insert_self, List.flatMap_append,
    List.flatMap_singleton]

/-- Entries with growing indices are all written. -/
theorem Contains.appendEntries {w : WAL} {done entries : List RaftEntry} (h : Contains w done)
    (hgrow : (done ++ entries).Pairwise fun a b => a.index < b.index) :
    Contains (w.appendEntries entries) (done ++ entries) := by
  induction entries generalizing w done with
  | nil => rwa [List.append_nil]
  | cons e rest ih =>
    have hlater : ∀ x ∈ done, x.index < e.index := fun x hx =>
      (List.pairwise_append.mp hgrow).2.2 x hx e List.mem_cons_self
    have hsplit : done ++ e :: rest = (done ++ [e]) ++ rest := by simp
    rw [hsplit] at hgrow ⊢
    exact ih (h.appendEntry hlater) hgrow

end WAL
end MyEtcd
