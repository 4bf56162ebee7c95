import MyEtcd.Wal.Runs

/-! Truncating the log. The file that was the current one stays behind, and its records are read
again in front of what was kept. -/
namespace MyEtcd
open Library

namespace WAL
variable {w : WAL} {records : List RaftEntry}

/-- Truncating leaves exactly the entries from `idx` on, in the order they had. -/
def TruncatesExactly (w : WAL) (idx : Nat) : Prop :=
  ∃ w', w.truncateFrom idx = some w' ∧
    w'.readAllEntries.map Prod.fst =
      w.readAllEntries.map fun read => read.1.filter fun e => e.index ≥ idx

theorem Tidy.truncatesExactly_iff (h : Tidy w) (hrecords : Holds w.disk w.walSeq records)
    (idx : Nat) : TruncatesExactly w idx ↔ ∀ e ∈ records, ¬ Readable e := by
  obtain ⟨older, records', hrecords', hread, hsettled⟩ := h.read
  have hsame : readable records' = readable records :=
    Option.some.inj (hrecords'.readFile.symm.trans hrecords.readFile)
  rw [hsame] at hread hsettled
  obtain ⟨w', htruncate, _, hread'⟩ := h.truncateFrom idx hrecords hread hsettled
  have hbefore : (w.readAllEntries.map fun read => read.1.filter fun e => e.index ≥ idx) =
      some ((older ++ readable records).filter fun e => e.index ≥ idx) := by
    rw [← Option.map_some, ← hread, Option.map_map]
    rfl
  rw [← readable_eq_nil_iff, TruncatesExactly, hbefore]
  constructor
  · rintro ⟨w'', htruncate', hexact⟩
    obtain rfl := Option.some.inj (htruncate.symm.trans htruncate')
    exact List.self_eq_append_left.mp (Option.some.inj (hread'.symm.trans hexact)).symm
  · intro hnil
    refine ⟨w', htruncate, ?_⟩
    rw [hread', hnil, List.nil_append]

/-- In every log that appending, truncating, reading and reopening can leave, truncation is exact
just when the current file holds no record that is read back. -/
theorem truncation_exact_iff (h : Run WAL.call (fun _ => Call.Fits) (openDir {}) w) :
    ∃ records, Holds w.disk w.walSeq records ∧
      ∀ idx, TruncatesExactly w idx ↔ ∀ e ∈ records, ¬ Readable e := by
  have htidy := tidy_run h
  obtain ⟨records, hrecords⟩ := htidy.whole w.walSeq htidy.current
  exact ⟨records, hrecords, fun idx => htidy.truncatesExactly_iff hrecords idx⟩

/-- A log with one entry in its older file and none in the current one is truncated exactly. -/
theorem truncation_exact_older :
    ∃ w, Run WAL.call (fun _ => Call.Fits) (openDir {}) w ∧
      w.readAllEntries.map Prod.fst = some [luckyPut] ∧ TruncatesExactly w 1 := by
  have hfits : ∀ e ∈ [luckyPut], Fits e := by simpa using fits_luckyPut
  have hrun := run_appendEntries hfits
  have htidy := tidy_run hrun
  have hholds : Holds ((openDir {}).appendEntries [luckyPut]).disk 0 [luckyPut] :=
    holds_fresh.appendEntries hfits
  have hreadable : readable [luckyPut] = [luckyPut] :=
    readable_eq_map_iff.mpr (by simpa using readable_luckyPut)
  have hread : ((openDir {}).appendEntries [luckyPut]).readAllEntries.map Prod.fst =
      some [luckyPut] := by
    rw [readAllEntries_of_file rfl hholds.file, readRecords_records hfits, hreadable]
    rfl
  have hsettled : ∀ e ∈ [luckyPut], Settled e := by
    simpa using ⟨fits_luckyPut, readable_luckyPut, rfl⟩
  obtain ⟨w, htruncate, _, hread'⟩ := htidy.truncateFrom 2 hholds hread hsettled
  obtain ⟨_, htruncate', hseq, hdisk⟩ := truncateFrom_of_read 2 hread
  obtain rfl := Option.some.inj (htruncate.symm.trans htruncate')
  have hrun' : Run WAL.call (fun _ => Call.Fits) (openDir {}) w :=
    .next (a := Call.truncateFrom 2) hrun trivial htruncate
  obtain ⟨records, hrecords, hexact⟩ := truncation_exact_iff hrun'
  refine ⟨w, hrun', ?_, (hexact 1).mpr ?_⟩
  · rw [hread', hreadable]
    rfl
  · -- the new file is empty
    have hfile := hrecords.file
    rw [hdisk, get?_rewritten, hseq, if_pos rfl, Option.some.injEq] at hfile
    have hempty := List.flatMap_eq_nil_iff.mp hfile.symm
    intro e he
    have hlength := length_serializeEntry e
    rw [hempty e he, List.length_nil] at hlength
    omega

/-- An entry that can be read is still there when the log has been truncated behind it. -/
theorem truncation_not_exact :
    ¬ ∀ w, Run WAL.call (fun _ => Call.Fits) (openDir {}) w → ∀ idx, TruncatesExactly w idx := by
  intro h
  have hfits : ∀ e ∈ [luckyPut], Fits e := by simpa using fits_luckyPut
  have hrun := run_appendEntries hfits
  have hrecords : Holds ((openDir {}).appendEntries [luckyPut]).disk 0 [luckyPut] :=
    holds_fresh.appendEntries hfits
  have hnone := ((tidy_run hrun).truncatesExactly_iff hrecords 2).mp (h _ hrun 2)
  exact hnone luckyPut List.mem_cons_self readable_luckyPut

end WAL
end MyEtcd
