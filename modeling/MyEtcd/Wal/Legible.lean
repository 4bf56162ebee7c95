import MyEtcd.Wal.Frames

/-! Log files that consist of whole records, over any number of files.
Appending and truncating leave such files behind, and what is read from them has a record there. -/
namespace MyEtcd
open Library

namespace WAL

/-- A record of the entry stands in one of the log files. -/
def Recorded (disk : Disk) (e : RaftEntry) : Prop :=
  ∃ (seq : Nat) (records : List RaftEntry),
    disk.walFiles.get? seq = some (records.flatMap serializeEntry) ∧ e ∈ records

/-- Every log file is a sequence of records of proper entries. -/
def Legible (disk : Disk) : Prop :=
  ∀ seq file, disk.walFiles.get? seq = some file → ∃ records : List RaftEntry,
    file = records.flatMap serializeEntry ∧ ∀ e ∈ records, Fits e ∧ 0 < e.index

variable {w w' : WAL} {e : RaftEntry}

theorem Legible.current (h : Legible w.disk) (seq : Nat) :
    ∃ records : List RaftEntry,
    w.disk.walFiles.getD seq [] = records.flatMap serializeEntry ∧
      ∀ e ∈ records, Fits e ∧ 0 < e.index := by
  rw [OrderedMap.getD]
  cases hfile : w.disk.walFiles.get? seq with
  | none => exact ⟨[], rfl, fun e he => by cases he⟩
  | some file => exact h seq file hfile

theorem Legible.appendEntry (h : Legible w.disk) (he : Fits e ∧ 0 < e.index) :
    Legible (w.appendEntry e).disk := by
  unfold WAL.appendEntry
  split_ifs
  · exact h
  obtain ⟨records, hrecords, hproper⟩ := h.current w.walSeq
  intro seq file hfile
  rw [write, OrderedMap.get?_insert] at hfile
  split_ifs at hfile
  · refine ⟨records ++ [e], ?_, fun x hx => ?_⟩
    · rw [← Option.some.inj hfile, hrecords, List.flatMap_append, List.flatMap_singleton]
    · rcases List.mem_append.mp hx with hx | hx
      · exact hproper x hx
      · obtain rfl := List.mem_singleton.mp hx
        exact he
  · exact h seq file hfile

theorem Recorded.appendEntry (h : Recorded w.disk e) (x : RaftEntry) :
    Recorded (w.appendEntry x).disk e := by
  unfold WAL.appendEntry
  split_ifs
  · exact h
  obtain ⟨seq, records, hfile, he⟩ := h
  by_cases hseq : seq = w.walSeq
  · refine ⟨seq, records ++ [x], ?_, List.mem_append_left _ he⟩
    rw [write, hseq, OrderedMap.get?_insert_self, OrderedMap.getD, ← hseq, hfile, Option.getD_some,
      List.flatMap_append, List.flatMap_singleton]
  · refine ⟨seq, records, ?_, he⟩
    rw [write, OrderedMap.get?_insert_ne _ _ hseq]
    exact hfile

theorem Legible.appendEntries {entries : List RaftEntry} (h : Legible w.disk)
    (hproper : ∀ e ∈ entries, Fits e ∧ 0 < e.index) : Legible (w.appendEntries entries).disk := by
  induction entries generalizing w with
  | nil => exact h
  | cons e rest ih =>
    exact ih (h.appendEntry (hproper e List.mem_cons_self))
      fun x hx => hproper x (List.mem_cons_of_mem _ hx)

theorem Recorded.appendEntries (h : Recorded w.disk e) (entries : List RaftEntry) :
    Recorded (w.appendEntries entries).disk e := by
  induction entries generalizing w with
  | nil => exact h
  | cons x rest ih => exact ih (h.appendEntry x)

theorem Legible.recorded (h : Legible w.disk) (hlater : w.lastIndex < e.index) :
    Recorded (w.appendEntry e).disk e := by
  obtain ⟨records, hrecords, _⟩ := h.current w.walSeq
  rw [WAL.appendEntry, if_neg (by omega)]
  refine ⟨w.walSeq, records ++ [e], ?_, List.mem_append_right _ (List.mem_singleton_self e)⟩
  rw [write, OrderedMap.get?_insert_self, hrecords, List.flatMap_append, List.flatMap_singleton]

/-- Entries with growing indices that come after the last one are all written. -/
theorem Legible.recorded_appendEntries {entries : List RaftEntry} (h : Legible w.disk)
    (hproper : ∀ e ∈ entries, Fits e ∧ 0 < e.index)
    (hgrow : entries.Pairwise fun a b => a.index < b.index)
    (hlater : ∀ e ∈ entries, w.lastIndex < e.index) :
    ∀ e ∈ entries, Recorded (w.appendEntries entries).disk e := by
  induction entries generalizing w with
  | nil => exact fun e he => by cases he
  | cons x rest ih =>
    obtain ⟨hfirst, hrest⟩ := List.pairwise_cons.mp hgrow
    have hx := hlater x List.mem_cons_self
    have hlast : (w.appendEntry x).lastIndex = x.index := by
      rw [WAL.appendEntry, if_neg (by omega)]
    intro e he
    rcases List.mem_cons.mp he with rfl | he
    · exact (h.recorded hx).appendEntries rest
    · exact ih (h.appendEntry (hproper x List.mem_cons_self))
        (fun y hy => hproper y (List.mem_cons_of_mem _ hy)) hrest
        (fun y hy => hlast ▸ hfirst y hy) e he

theorem lastIndex_appendEntries_lt {entries : List RaftEntry} {bound : Nat}
    (hlast : w.lastIndex < bound) (hbelow : ∀ e ∈ entries, e.index < bound) :
    (w.appendEntries entries).lastIndex < bound := by
  induction entries generalizing w with
  | nil => exact hlast
  | cons x rest ih =>
    refine ih ?_ fun e he => hbelow e (List.mem_cons_of_mem _ he)
    rw [WAL.appendEntry]
    split_ifs
    · exact hlast
    · exact hbelow x List.mem_cons_self

theorem Legible.openDir {disk : Disk} (h : Legible disk) : Legible (WAL.openDir disk).disk := by
  obtain ⟨records, hrecords, hproper⟩ :=
    Legible.current (w := { disk }) h (disk.walFiles.keys.foldl max 0)
  intro seq file hfile
  rw [WAL.openDir, OrderedMap.get?_insert] at hfile
  split_ifs at hfile
  · exact ⟨records, (Option.some.inj hfile).symm.trans hrecords, hproper⟩
  · exact h seq file hfile

private theorem exists_of_mapM {l : List Nat} {f : Nat → Option (List RaftEntry)}
    {r : List (List RaftEntry)} (h : l.mapM f = some r) : ∀ y ∈ r, ∃ seq, f seq = some y := by
  induction l generalizing r with
  | nil =>
    obtain rfl : [] = r := Option.some.inj h
    exact fun y hy => by cases hy
  | cons a rest ih =>
    rw [List.mapM_cons] at h
    obtain ⟨first, hfirst, h⟩ := Option.bind_eq_some_iff.mp h
    obtain ⟨others, hothers, h⟩ := Option.bind_eq_some_iff.mp h
    obtain rfl := Option.some.inj h
    intro y hy
    rcases List.mem_cons.mp hy with rfl | hy
    · exact ⟨a, hfirst⟩
    · exact ih hothers y hy

theorem Legible.read {entries : List RaftEntry} (h : Legible w.disk)
    (hread : w.readAllEntries = some (entries, w')) :
    ∀ e ∈ entries, Recorded w.disk e ∧ Fits e ∧ 0 < e.index := by
  obtain ⟨files, hfiles, heq⟩ := Option.bind_eq_some_iff.mp hread
  obtain ⟨rfl, _⟩ := Prod.mk.inj (Option.some.inj heq)
  intro e he
  obtain ⟨file, hfile, he⟩ := List.mem_flatten.mp he
  obtain ⟨seq, hseq⟩ := exists_of_mapM hfiles file hfile
  cases hdata : w.disk.walFiles.get? seq with
  | none =>
    rw [hdata] at hseq
    obtain rfl := Option.some.inj hseq
    cases he
  | some data =>
    rw [hdata] at hseq
    obtain ⟨records, rfl, hproper⟩ := h seq data hdata
    have hrecords := readRecords_records fun e he => (hproper e he).1
    obtain rfl := Option.some.inj (hrecords.symm.trans hseq)
    obtain ⟨x, hx, rfl⟩ := List.mem_map.mp he
    have hmem := (List.mem_filter.mp hx).1
    obtain ⟨hfits, hpos⟩ := hproper x hmem
    refine ⟨⟨seq, records.map persisted, ?_, List.mem_map.mpr ⟨x, hmem, rfl⟩⟩, hfits.persisted,
      by rwa [persisted_index]⟩
    rw [hdata, List.flatMap_map]
    exact congrArg some (List.flatMap_congr fun e _ => (serializeEntry_persisted e).symm)

theorem Legible.truncateFrom {idx : Nat} (h : Legible w.disk) (ht : w.truncateFrom idx = some w') :
    Legible w'.disk := by
  obtain ⟨⟨entries, read⟩, hread, heq⟩ := Option.bind_eq_some_iff.mp ht
  obtain rfl := Option.some.inj heq
  have hproper := h.read hread
  intro seq file hfile
  dsimp only at hfile
  rw [readAllEntries_disk hread, OrderedMap.get?_insert] at hfile
  split_ifs at hfile
  · refine ⟨_, (Option.some.inj hfile).symm, fun e he => ?_⟩
    exact (hproper e (List.mem_filter.mp he).1).2
  · rw [removeFiles, OrderedMap.get?_foldl_erase] at hfile
    split_ifs at hfile
    exact h seq file hfile

end WAL
end MyEtcd
