import MyEtcd.Storage.Backend

/-! What loading a file does to a backend: it puts the pairs of the file over what is there.
For pairs within the limits of the loader the file stands for the backend that was flushed. -/
namespace MyEtcd
open Library

namespace Backend

/-- The pairs that the loader takes. -/
structure Loadable (e : Bytes × Bytes) : Prop where
  key : 0 < e.1.length ∧ e.1.length ≤ kMaxKeyLen
  value : e.2.length ≤ kMaxValueLen

/-- The loader reads the same pairs whatever they are put over, each of them within its limits. -/
theorem loadPairs_eq_putAll (file : Bytes) (offset : Nat) :
    ∃ l, (∀ e ∈ l, Loadable e) ∧ ∀ b : Backend, loadPairs file offset b = b.putAll l := by
  induction hn : file.length - offset using Nat.strongRecOn generalizing offset with
  | ind n ih =>
    by_cases hmore : offset + 4 ≤ file.length ∧
        ¬ (readU32 file offset = 0 ∨ readU32 file offset > kMaxKeyLen ∨
          offset + 4 + readU32 file offset > file.length) ∧
        ¬ offset + 4 + readU32 file offset + 4 > file.length ∧
        ¬ (readU32 file (offset + 4 + readU32 file offset) > kMaxValueLen ∨
          offset + 4 + readU32 file offset + 4 +
            readU32 file (offset + 4 + readU32 file offset) > file.length)
    · obtain ⟨hfits, hkey, hlen, hvalue⟩ := hmore
      obtain ⟨l, hloadable, hl⟩ := ih _ (by omega) (offset + 4 + readU32 file offset + 4 +
        readU32 file (offset + 4 + readU32 file offset)) rfl
      refine ⟨((file.drop (offset + 4)).take (readU32 file offset),
        (file.drop (offset + 4 + readU32 file offset + 4)).take
          (readU32 file (offset + 4 + readU32 file offset))) :: l,
        List.forall_mem_cons.mpr ⟨⟨?_, ?_⟩, hloadable⟩, fun b => ?_⟩
      · rw [List.length_take, List.length_drop]
        omega
      · rw [List.length_take, List.length_drop]
        omega
      · rw [loadPairs, if_pos hfits]
        dsimp only
        rw [if_neg hkey, if_neg hlen, if_neg hvalue, hl]
        rfl
    · refine ⟨[], by simp, fun b => ?_⟩
      rw [loadPairs]
      dsimp only
      split_ifs with hfits hkey hlen hvalue
      · rfl
      · rfl
      · rfl
      · exact absurd ⟨hfits, hkey, hlen, hvalue⟩ hmore
      · rfl

/-- Loading a file hides what was there under the keys of the file, and nothing else. -/
theorem get_loadFromDisk (b : Backend) (file : Option Bytes) (key : Bytes) :
    (b.loadFromDisk file).get key = ((Backend.loadFromDisk {} file).get key).or (b.get key) := by
  cases file with
  | none => rfl
  | some file =>
    obtain ⟨l, _, hl⟩ := loadPairs_eq_putAll file 8
    unfold loadFromDisk
    dsimp only
    split_ifs
    · rfl
    · rfl
    · rfl
    · rw [hl, hl, get_putAll]

def pairBytes (e : Bytes × Bytes) : Bytes :=
  writeU32 e.1.length ++ (e.1 ++ (writeU32 e.2.length ++ e.2))

theorem readU32_of {file : Bytes} {offset n : Nat} (h : StandsAt file offset (writeU32 n))
    (hn : n < 2 ^ 32) : readU32 file offset = n := by
  have hbytes := h.bytesAt
  rw [writeU32, length_toLittleEndian, bytesAt] at hbytes
  obtain ⟨_, hbytes⟩ := Option.ite_none_right_eq_some.mp hbytes
  rw [readU32, Option.some.inj hbytes, ofLittleEndian_toLittleEndian (by omega)]

private theorem piece_of {file : Bytes} {offset : Nat} {piece : Bytes}
    (h : StandsAt file offset piece) : (file.drop offset).take piece.length = piece := by
  have hbytes := h.bytesAt
  exact Option.some.inj (Option.ite_none_right_eq_some.mp hbytes).2

/-- The pairs up to the end of the file are loaded in the order in which they stand. -/
theorem loadPairs_of {file : Bytes} {offset : Nat} {entries : List (Bytes × Bytes)}
    (h : StandsAt file offset (entries.flatMap pairBytes))
    (hend : file.length = offset + (entries.flatMap pairBytes).length)
    (hentries : ∀ e ∈ entries, Loadable e) (b : Backend) :
    loadPairs file offset b = b.putAll entries := by
  induction entries generalizing offset b with
  | nil =>
    rw [loadPairs, if_neg (by rw [hend]; simp)]
    rfl
  | cons e rest ih =>
    obtain ⟨⟨hpos, hkeyLen⟩, hvalueLen⟩ := hentries e List.mem_cons_self
    have hlimits : kMaxKeyLen < 2 ^ 32 ∧ kMaxValueLen < 2 ^ 32 := by decide
    have hu32 (n : Nat) : (writeU32 n).length = 4 := length_toLittleEndian 4 n
    rw [List.flatMap_cons] at h hend
    obtain ⟨hpair, hrest⟩ := StandsAt.append.mp h
    obtain ⟨hlen, hpair⟩ := StandsAt.append.mp hpair
    obtain ⟨hkey, hpair⟩ := StandsAt.append.mp hpair
    obtain ⟨hvlen, hvalue⟩ := StandsAt.append.mp hpair
    rw [hu32] at hkey hvlen hvalue
    rw [hu32] at hvalue
    have hk := readU32_of hlen (by omega)
    have hv := readU32_of hvlen (by omega)
    have hfits := hvalue.fits
    have htotal : (pairBytes e).length = 4 + e.1.length + 4 + e.2.length := by
      simp only [pairBytes, List.length_append, hu32]
      omega
    rw [htotal] at hrest
    rw [List.length_append, htotal] at hend
    rw [loadPairs, if_pos (by omega)]
    dsimp only
    rw [hk, hv, if_neg (by omega), if_neg (by omega), if_neg (by omega), piece_of hkey,
      piece_of hvalue]
    have hnext : offset + 4 + e.1.length + 4 + e.2.length =
        offset + (4 + e.1.length + 4 + e.2.length) := by omega
    rw [hnext]
    exact ih hrest (by omega) (fun x hx => hentries x (List.mem_cons_of_mem _ hx)) _

/-- A file that was flushed is loaded as the backend it was flushed from. -/
theorem loadFromDisk_flushToDisk {b : Backend} (h : ∀ e ∈ b.store.entries, Loadable e) :
    Backend.loadFromDisk {} (some b.flushToDisk) = b := by
  have hu32 (n : Nat) : (writeU32 n).length = 4 := length_toLittleEndian 4 n
  have hflush : b.flushToDisk =
      writeU32 kMagic ++ (writeU32 kVersion ++ b.store.entries.flatMap pairBytes) := rfl
  have hstands : StandsAt b.flushToDisk 0 b.flushToDisk := ⟨[], [], by simp, rfl⟩
  nth_rewrite 2 [hflush] at hstands
  obtain ⟨hmagic, hstands⟩ := StandsAt.append.mp hstands
  obtain ⟨hversion, hpairs⟩ := StandsAt.append.mp hstands
  rw [hu32] at hversion hpairs
  rw [hu32] at hpairs
  have hlength : b.flushToDisk.length = 8 + (b.store.entries.flatMap pairBytes).length := by
    rw [hflush, List.length_append, List.length_append, hu32, hu32]
    omega
  rw [loadFromDisk, if_neg (by omega), readU32_of hmagic (by decide),
    readU32_of hversion (by decide), if_neg (by decide), if_neg (by decide),
    loadPairs_of hpairs (by omega) h, putAll_entries]

theorem mem_of_mem_putAll {l : List (Bytes × Bytes)} {e : Bytes × Bytes}
    (h : e ∈ (putAll {} l).store.entries) : e ∈ l := by
  induction l using List.reverseRecOn with
  | nil => cases h
  | append_singleton rest x ih =>
    rw [store_putAll, List.foldl_append, List.foldl_cons, List.foldl_nil, ← store_putAll,
      OrderedMap.mem_entries_iff, OrderedMap.get?_insert] at h
    split_ifs at h with hkey
    · exact List.mem_append_right _ (List.mem_singleton.mpr (Prod.ext hkey (Option.some.inj h).symm))
    · exact List.mem_append_left _ (ih ((OrderedMap.mem_entries_iff _ _ _).mpr h))

/-- Nothing comes out of a file that the loader does not take. -/
theorem loadable_of_loaded (file : Option Bytes) :
    ∀ e ∈ (Backend.loadFromDisk {} file).store.entries, Loadable e := by
  have hempty : ∀ e ∈ (∅ : OrderedMap Bytes Bytes).entries, Loadable e := fun e he => by cases he
  cases file with
  | none => exact hempty
  | some file =>
    obtain ⟨l, hloadable, hl⟩ := loadPairs_eq_putAll file 8
    unfold loadFromDisk
    dsimp only
    split_ifs
    · exact hempty
    · exact hempty
    · exact hempty
    · rw [hl]
      exact fun e he => hloadable e (mem_of_mem_putAll he)

/-- A store comes back from its file exactly when the loader takes all of its pairs. -/
theorem file_round_trip_iff (b : Backend) :
    Backend.loadFromDisk {} (some b.flushToDisk) = b ↔ ∀ e ∈ b.store.entries, Loadable e := by
  constructor
  · intro h
    have hloadable := loadable_of_loaded (some b.flushToDisk)
    rwa [h] at hloadable
  · exact loadFromDisk_flushToDisk

/-- The empty key stands first in the file, and the loader stops there. -/
theorem emptyKey_not_loaded :
    Backend.loadFromDisk {} (some ((Backend.put {} [] [1]).put [107] [2]).flushToDisk) ≠
      (Backend.put {} [] [1]).put [107] [2] := by
  intro h
  have hloadable := loadable_of_loaded (some ((Backend.put {} [] [1]).put [107] [2]).flushToDisk)
  rw [h] at hloadable
  have hkey := (hloadable ([], [1]) (by decide)).key
  exact absurd hkey.1 (by decide)

end Backend
end MyEtcd
