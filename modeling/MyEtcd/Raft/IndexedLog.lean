import MyEtcd.Library.Numbered
import MyEtcd.Raft.RaftLog

/-! The log as a list of entries with indices. The operations that add to an index are given once
more with the 64-bit arithmetic of the source; as long as no index reaches its end, nothing wraps. -/
namespace MyEtcd
open Library

/-- `i + 1` on an unsigned 64-bit index. -/
def succIndex (i : Nat) : Nat := (i + 1) % 2 ^ 64

theorem succIndex_of_lt {i : Nat} (h : i < 2 ^ 64 - 1) : succIndex i = i + 1 :=
  Nat.mod_eq_of_lt (by omega)

namespace RaftLog

def next (log : RaftLog) : Nat := log.firstIndex + log.entries.length

/-- Slots and indices agree, and no index is the last one of its type. -/
structure Indexed (log : RaftLog) : Prop where
  first : 1 ≤ log.firstIndex
  firstBelow : log.firstIndex < 2 ^ 64
  numbered : Aligned log
  below : ∀ e ∈ log.entries, e.index < 2 ^ 64 - 1

namespace Unsigned

def appendAll (log : RaftLog) (entries : List RaftEntry) : RaftLog :=
  match entries with
  | [] => log
  | front :: _ =>
    let expected :=
      match log.entries.getLast? with
      | none => log.firstIndex
      | some e => succIndex e.index
    if front.index ≠ expected then log
    else { log with entries := log.entries ++ entries }

def entriesFrom (log : RaftLog) (start : Nat) (limit : Nat) : List RaftEntry :=
  let start := if start < log.firstIndex then log.firstIndex else start
  if start > log.lastIndexUnsafe then []
  else
    let offset := start - log.firstIndex
    let stop :=
      if 0 < limit ∧ (offset + limit) % 2 ^ 64 < log.entries.length then (offset + limit) % 2 ^ 64
      else log.entries.length
    (log.entries.take stop).drop offset

def slice (log : RaftLog) (start stop : Nat) : List RaftEntry :=
  let start := if start < log.firstIndex then log.firstIndex else start
  let stop :=
    if stop > succIndex log.lastIndexUnsafe then succIndex log.lastIndexUnsafe else stop
  if start ≥ stop then []
  else (log.entries.take (stop - log.firstIndex)).drop (start - log.firstIndex)

def truncateTo (log : RaftLog) (idx : Nat) : RaftLog :=
  if idx < log.firstIndex then ⟨[], succIndex idx⟩
  else
    let keep := succIndex (idx - log.firstIndex)
    if keep ≥ log.entries.length then log
    else { log with entries := log.entries.take keep }

end Unsigned

namespace Indexed
variable {log : RaftLog}

theorem numbered_index (h : Indexed log) : Numbered RaftEntry.index log.firstIndex log.entries :=
  h.numbered

theorem next_le (h : Indexed log) : log.next ≤ 2 ^ 64 - 1 := by
  have hfirst := h.firstBelow
  rw [next]
  cases hlast : log.entries.getLast? with
  | none =>
    rw [List.getLast?_eq_none_iff.mp hlast, List.length_nil]
    omega
  | some e =>
    have hbelow := h.below e (List.mem_of_getLast? hlast)
    rw [List.getLast?_eq_getElem?] at hlast
    have hindex := h.numbered _ e hlast
    omega

theorem lastIndexUnsafe_succ (h : Indexed log) : log.lastIndexUnsafe + 1 = log.next :=
  h.numbered.lastIndexUnsafe_succ h.first

/-- Nothing wraps. -/
theorem appendAll_unsigned (h : Indexed log) (entries : List RaftEntry) :
    Unsigned.appendAll log entries = log.appendAll entries := by
  cases entries with
  | nil => rfl
  | cons front rest =>
    rw [Unsigned.appendAll, RaftLog.appendAll]
    cases hlast : log.entries.getLast? with
    | none => rfl
    | some e =>
      simp only [succIndex_of_lt (h.below e (List.mem_of_getLast? hlast))]

theorem entriesFrom_unsigned (log : RaftLog) (start : Nat) :
    Unsigned.entriesFrom log start 0 = log.entriesFrom start 0 := by
  simp only [Unsigned.entriesFrom, RaftLog.entriesFrom, Nat.lt_irrefl, false_and, if_false]

theorem slice_unsigned (h : Indexed log) (start stop : Nat) :
    Unsigned.slice log start stop = log.slice start stop := by
  have hnext := h.next_le
  have hsucc := h.lastIndexUnsafe_succ
  rw [Unsigned.slice, succIndex_of_lt (by omega), RaftLog.slice]

theorem truncateTo_unsigned (h : Indexed log) {idx : Nat} (hidx : idx < 2 ^ 64 - 1) :
    Unsigned.truncateTo log idx = log.truncateTo idx := by
  have := h.first
  rw [Unsigned.truncateTo, succIndex_of_lt hidx, succIndex_of_lt (by omega), RaftLog.truncateTo]

theorem entryAt_eq_some (h : Indexed log) {idx : Nat} {e : RaftEntry} :
    log.entryAt idx = some e ↔ e ∈ log.entries ∧ e.index = idx :=
  RaftLog.entryAt_eq_some.trans h.numbered_index.getElem?_iff

theorem slice_eq_filter (h : Indexed log) (start stop : Nat) :
    log.slice start stop = log.entries.filter fun e => start ≤ e.index ∧ e.index < stop := by
  have hsucc := h.lastIndexUnsafe_succ
  have hnext : log.next = log.firstIndex + log.entries.length := rfl
  have hstart : (if start < log.firstIndex then log.firstIndex else start) =
      max start log.firstIndex := by split_ifs <;> omega
  have hstop : (if stop > log.lastIndexUnsafe + 1 then log.lastIndexUnsafe + 1 else stop) =
      min stop log.next := by split_ifs <;> omega
  have hoffset : max start log.firstIndex - log.firstIndex = start - log.firstIndex := by omega
  have htake : log.entries.take (min stop log.next - log.firstIndex) =
      log.entries.take (stop - log.firstIndex) := by
    rw [List.take_eq_take_iff]
    omega
  rw [h.numbered_index.filter_range, RaftLog.slice, hstart, hstop, hoffset, htake]
  split_ifs with hnone
  · refine (List.drop_eq_nil_of_le ?_).symm
    rw [List.length_take]
    omega
  · rfl

theorem entriesFrom_eq_filter (h : Indexed log) (start : Nat) :
    log.entriesFrom start 0 = log.entries.filter fun e => start ≤ e.index := by
  rw [h.numbered.entriesFrom h.first, h.numbered_index.filter_ge]
  congr 1
  omega

theorem truncateTo (h : Indexed log) (idx : Nat) :
    Indexed (log.truncateTo idx) ∧
      (log.truncateTo idx).entries = log.entries.filter (fun e => e.index ≤ idx) ∧
      (log.truncateTo idx).next = min log.next (idx + 1) := by
  have hfilter : log.entries.filter (fun e => e.index ≤ idx) =
      log.entries.take (idx + 1 - log.firstIndex) := by
    rw [← h.numbered_index.filter_lt]
    simp only [Nat.lt_succ_iff]
  have hnext : log.next = log.firstIndex + log.entries.length := rfl
  have hnumbered := h.numbered.truncateTo idx
  have hmem : ∀ e ∈ (log.truncateTo idx).entries, e.index < 2 ^ 64 - 1 := fun e he =>
    h.below e (mem_truncateTo he)
  have hfirst := h.first
  have hbelow := h.firstBelow
  rw [hfilter]
  unfold RaftLog.truncateTo at hnumbered hmem ⊢
  dsimp only at hnumbered hmem ⊢
  split_ifs at hnumbered hmem ⊢ with hbefore hall
  · have hnone : idx + 1 - log.firstIndex = 0 := by omega
    refine ⟨⟨Nat.succ_pos idx, lt_of_le_of_lt hbefore hbelow, hnumbered, hmem⟩, ?_, ?_⟩
    · rw [hnone, List.take_zero]
    · rw [next, List.length_nil]
      dsimp only
      omega
  · refine ⟨h, (List.take_of_length_le (by omega)).symm, by omega⟩
  · have hkeep : idx - log.firstIndex + 1 = idx + 1 - log.firstIndex := by omega
    rw [hkeep] at hnumbered hmem ⊢
    refine ⟨⟨hfirst, hbelow, hnumbered, hmem⟩, rfl, ?_⟩
    rw [next, List.length_take]
    dsimp only
    omega

theorem truncateFrom (h : Indexed log) {idx : Nat} (hidx : idx < 2 ^ 64 - 1) :
    Indexed (log.truncateFrom idx) ∧
      (log.truncateFrom idx).entries = log.entries.filter (fun e => idx ≤ e.index) ∧
      (log.truncateFrom idx).next = max log.next idx := by
  have hnext : log.next = log.firstIndex + log.entries.length := rfl
  rw [h.numbered_index.filter_ge]
  unfold RaftLog.truncateFrom
  split_ifs with hbefore hall
  · refine ⟨h, ?_, by omega⟩
    rw [Nat.sub_eq_zero_of_le hbefore, List.drop_zero]
  · refine ⟨⟨by dsimp only; omega, by dsimp only; omega, aligned_empty idx, nofun⟩, ?_, ?_⟩
    · rw [List.drop_eq_nil_of_le hall]
    · rw [next, List.length_nil]
      dsimp only
      omega
  · have hdrop := Contiguous.drop h.numbered (idx - log.firstIndex)
    rw [Nat.add_sub_cancel' (by omega)] at hdrop
    refine ⟨⟨by dsimp only; omega, by dsimp only; omega, hdrop, fun e he => ?_⟩, rfl, ?_⟩
    · exact h.below e (List.mem_of_mem_drop he)
    · rw [next, List.length_drop]
      dsimp only
      omega

/-- A vector without gaps is appended behind the last entry, or not at all. -/
theorem appendAll (h : Indexed log) {entries : List RaftEntry} {start : Nat}
    (hentries : Contiguous start entries) (hbelow : ∀ e ∈ entries, e.index < 2 ^ 64 - 1) :
    Indexed (log.appendAll entries) ∧ log.appendAll entries =
      if start = log.next then { log with entries := log.entries ++ entries } else log := by
  have hnumbered := h.numbered.appendAll hentries
  have hmem : ∀ e ∈ (log.appendAll entries).entries, e.index < 2 ^ 64 - 1 := fun e he =>
    (mem_appendAll he).elim (h.below e) (hbelow e)
  split_ifs with hnext
  · have heq := h.numbered.appendAll_next (hnext ▸ hentries)
    rw [heq] at hnumbered hmem ⊢
    exact ⟨⟨h.first, h.firstBelow, hnumbered, hmem⟩, rfl⟩
  · rw [h.numbered.appendAll_refused hentries hnext]
    exact ⟨h, rfl⟩

end Indexed

/-- Every operation does on the entries what its name says of their indices. -/
theorem refines_indexed_list {log : RaftLog} (h : Indexed log) :
    (∀ idx, (∀ e, log.entryAt idx = some e ↔ e ∈ log.entries ∧ e.index = idx) ∧
      log.termAt idx = ((log.entryAt idx).map RaftEntry.term).getD 0) ∧
    (∀ start stop, Unsigned.slice log start stop =
      log.entries.filter fun e => start ≤ e.index ∧ e.index < stop) ∧
    (∀ start, Unsigned.entriesFrom log start 0 = log.entries.filter fun e => start ≤ e.index) ∧
    (∀ idx < 2 ^ 64 - 1, Indexed (Unsigned.truncateTo log idx) ∧
      (Unsigned.truncateTo log idx).entries = log.entries.filter (fun e => e.index ≤ idx) ∧
      (Unsigned.truncateTo log idx).next = min log.next (idx + 1)) ∧
    (∀ idx < 2 ^ 64 - 1, Indexed (log.truncateFrom idx) ∧
      (log.truncateFrom idx).entries = log.entries.filter (fun e => idx ≤ e.index) ∧
      (log.truncateFrom idx).next = max log.next idx) ∧
    ∀ entries start, Contiguous start entries → (∀ e ∈ entries, e.index < 2 ^ 64 - 1) →
      Indexed (Unsigned.appendAll log entries) ∧ Unsigned.appendAll log entries =
        if start = log.next then { log with entries := log.entries ++ entries } else log := by
  refine ⟨fun idx => ⟨fun e => h.entryAt_eq_some, termAt_eq_entryAt log idx⟩, fun start stop => ?_,
    fun start => ?_, fun idx hidx => ?_, fun idx hidx => h.truncateFrom hidx,
    fun entries start hentries hbelow => ?_⟩
  · rw [h.slice_unsigned, h.slice_eq_filter]
  · rw [Indexed.entriesFrom_unsigned, h.entriesFrom_eq_filter]
  · rw [h.truncateTo_unsigned hidx]
    exact h.truncateTo idx
  · rw [h.appendAll_unsigned]
    exact h.appendAll hentries hbelow

def compactedLog : RaftLog := ⟨[{ term := 1, index := 5 }, { term := 2, index := 6 }], 5⟩

theorem indexed_compactedLog : Indexed compactedLog where
  first := by decide
  firstBelow := by decide
  numbered := (contiguous_singleton rfl).append (contiguous_singleton rfl)
  below := by decide

theorem refines_indexed_list_compactedLog :
    Unsigned.slice compactedLog 6 9 = [{ term := 2, index := 6 }] ∧
      (Unsigned.truncateTo compactedLog 3).next = 4 := by
  obtain ⟨-, hslice, -, htruncate, -⟩ := refines_indexed_list indexed_compactedLog
  constructor
  · rw [hslice]
    rfl
  · rw [(htruncate 3 (by decide)).2.2]
    rfl

end RaftLog
end MyEtcd
