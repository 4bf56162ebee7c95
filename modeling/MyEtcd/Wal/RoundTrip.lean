import MyEtcd.Wal.Frames

/-! Entries written to a fresh log and read back. The two checksums decide which of them return. -/
namespace MyEtcd
open Library

namespace WAL

/-- What is read back from a log of one file. -/
theorem Contains.readAllEntries {w : WAL} {entries : List RaftEntry} (h : Contains w entries)
    (hfits : ∀ e ∈ entries, Fits e) : w.readAllEntries.map Prod.fst = some (readable entries) := by
  rw [readAllEntries_of_file h.seq h.file, readRecords_records hfits]
  rfl

/-- Entries with positive growing indices come back from a fresh log, in whatever batches they were
written, exactly when the two checksums agree on every one of them. -/
theorem round_trip (batches : List (List RaftEntry)) (hfits : ∀ e ∈ batches.flatten, Fits e)
    (hpos : ∀ e ∈ batches.flatten, 0 < e.index)
    (hgrow : batches.flatten.Pairwise fun a b => a.index < b.index) :
    (batches.foldl appendEntries (openDir {})).readAllEntries.map Prod.fst =
        some (batches.flatten.map persisted) ↔
      ∀ e ∈ batches.flatten, ChecksumAgrees e := by
  have h : Contains ((openDir {}).appendEntries batches.flatten) ([] ++ batches.flatten) :=
    contains_openDir.appendEntries hgrow
  rw [foldl_appendEntries, h.readAllEntries hfits, List.nil_append, Option.some.injEq,
    readable_eq_map_iff]
  exact forall₂_congr fun e he => and_iff_right (hpos e he)

def plainPut : RaftEntry := { term := 1, index := 1 }

/-- A put with a lease id that happens to make both checksums equal. -/
def luckyPut : RaftEntry := { plainPut with leaseId := 0x7a487ae300000000 }

/-- A membership change with an address that happens to make both checksums equal. -/
def luckyConfChange : RaftEntry :=
  { term := 1, index := 2, type := .confChange,
    confChange := { type := .addNode, nodeId := 2, peerAddr := [128, 96, 149, 224] } }

theorem fits_put {index : Nat} {lease : Int} (hindex : index < 2 ^ 64)
    (hlease : -2 ^ 63 ≤ lease ∧ lease < 2 ^ 63) :
    Fits { plainPut with index, leaseId := lease } where
  term := by simp [plainPut]
  index := hindex
  lease := hlease
  nodeId := by simp [plainPut]
  length := by
    rw [length_serializeEntry]
    simp [fields, plainPut, writeStr]

theorem fits_plainPut : Fits plainPut := fits_put (by decide) (by decide)

theorem fits_luckyPut : Fits luckyPut := fits_put (by decide) (by decide)

theorem fits_luckyConfChange : Fits luckyConfChange where
  term := by decide
  index := by decide
  lease := by decide
  nodeId := by decide
  length := by
    rw [length_serializeEntry]
    decide

theorem not_readable_plainPut : ¬ Readable plainPut := by decide +kernel

theorem readable_luckyPut : Readable luckyPut := by decide +kernel

theorem readable_luckyConfChange : Readable luckyConfChange := by decide +kernel

/-- A written entry does not come back. -/
theorem entry_lost :
    ((openDir {}).appendEntries [plainPut]).readAllEntries.map Prod.fst = some [] := by
  have hcontains : Contains ((openDir {}).appendEntries [plainPut]) ([] ++ [plainPut]) :=
    contains_openDir.appendEntries (List.pairwise_singleton _ _)
  have hnone : readable [plainPut] = [] :=
    readable_eq_nil_iff.mpr (by simpa using not_readable_plainPut)
  rw [hcontains.readAllEntries (by simpa using fits_plainPut), List.nil_append, hnone]

theorem round_trip_lucky :
    ([[luckyPut], [luckyConfChange]].foldl appendEntries (openDir {})).readAllEntries.map Prod.fst =
      some [luckyPut, luckyConfChange] := by
  refine (round_trip [[luckyPut], [luckyConfChange]] ?_ (by decide) (by decide)).mpr ?_
  · simpa using And.intro fits_luckyPut fits_luckyConfChange
  · simpa using And.intro readable_luckyPut.2 readable_luckyConfChange.2

end WAL
end MyEtcd
