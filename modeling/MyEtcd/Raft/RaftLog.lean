import MyEtcd.Common.Types

/-! The in-memory Raft log: a vector of entries and the index of its first slot.
A read past the vector's end is undefined behaviour in the source; here it yields no entries. -/
namespace MyEtcd

structure RaftLog where
  entries : List RaftEntry := []
  firstIndex : Nat := 1
  deriving DecidableEq

namespace RaftLog

def lastIndex (log : RaftLog) : Nat :=
  match log.entries.getLast? with
  | none => 0
  | some e => e.index

def lastTerm (log : RaftLog) : Nat :=
  match log.entries.getLast? with
  | none => 0
  | some e => e.term

def termAt (log : RaftLog) (idx : Nat) : Nat :=
  if idx < log.firstIndex then 0
  else
    match log.entries[idx - log.firstIndex]? with
    | none => 0
    | some e => e.term

/-- `Append` of one entry, which looks at no index. -/
def append (log : RaftLog) (entry : RaftEntry) : RaftLog :=
  { log with entries := log.entries ++ [entry] }

/-- `Append` of a vector, refused when its first index does not continue the log. -/
def appendAll (log : RaftLog) (entries : List RaftEntry) : RaftLog :=
  match entries with
  | [] => log
  | front :: _ =>
    let expected :=
      match log.entries.getLast? with
      | none => log.firstIndex
      | some e => e.index + 1
    if front.index ≠ expected then log
    else { log with entries := log.entries ++ entries }

def lastIndexUnsafe (log : RaftLog) : Nat :=
  match log.entries.getLast? with
  | none => if 0 < log.firstIndex then log.firstIndex - 1 else 0
  | some e => e.index

/-- Entries from `start` on, at most `limit` of them unless `limit` is zero. -/
def entriesFrom (log : RaftLog) (start : Nat) (limit : Nat) : List RaftEntry :=
  let start := if start < log.firstIndex then log.firstIndex else start
  if start > log.lastIndexUnsafe then []
  else
    let offset := start - log.firstIndex
    let stop :=
      if 0 < limit ∧ offset + limit < log.entries.length then offset + limit
      else log.entries.length
    (log.entries.take stop).drop offset

/-- Entries of the half-open range from `start` to `stop`. -/
def slice (log : RaftLog) (start stop : Nat) : List RaftEntry :=
  let start := if start < log.firstIndex then log.firstIndex else start
  let stop := if stop > log.lastIndexUnsafe + 1 then log.lastIndexUnsafe + 1 else stop
  if start ≥ stop then []
  else (log.entries.take (stop - log.firstIndex)).drop (start - log.firstIndex)

/-- Drop the entries before `idx`. -/
def truncateFrom (log : RaftLog) (idx : Nat) : RaftLog :=
  if idx ≤ log.firstIndex then log
  else if idx - log.firstIndex ≥ log.entries.length then ⟨[], idx⟩
  else ⟨log.entries.drop (idx - log.firstIndex), idx⟩

/-- Drop the entries after `idx`. -/
def truncateTo (log : RaftLog) (idx : Nat) : RaftLog :=
  if idx < log.firstIndex then ⟨[], idx + 1⟩
  else
    let keep := idx - log.firstIndex + 1
    if keep ≥ log.entries.length then log
    else { log with entries := log.entries.take keep }

def entryAt (log : RaftLog) (idx : Nat) : Option RaftEntry :=
  if idx < log.firstIndex then none
  else log.entries[idx - log.firstIndex]?

/-- Empty the log behind a snapshot that covers everything up to `lastIndex`. -/
def restore (_ : RaftLog) (lastIndex : Nat) : RaftLog := ⟨[], lastIndex + 1⟩

/-- The slot offset of every stored entry is its index less `firstIndex`. -/
def Aligned (log : RaftLog) : Prop :=
  ∀ k e, log.entries[k]? = some e → e.index = log.firstIndex + k

variable {log : RaftLog}

theorem termAt_eq_entryAt (log : RaftLog) (idx : Nat) :
    log.termAt idx = ((log.entryAt idx).map RaftEntry.term).getD 0 := by
  unfold termAt entryAt
  split_ifs
  · rfl
  · cases log.entries[idx - log.firstIndex]? <;> rfl

theorem entryAt_of_termAt {idx : Nat} (h : log.termAt idx ≠ 0) :
    ∃ e, log.entryAt idx = some e ∧ e.term = log.termAt idx := by
  rw [termAt_eq_entryAt] at h ⊢
  cases he : log.entryAt idx with
  | none => simp [he] at h
  | some e => exact ⟨e, rfl, rfl⟩

theorem mem_appendAll {entries : List RaftEntry} {e : RaftEntry}
    (h : e ∈ (log.appendAll entries).entries) : e ∈ log.entries ∨ e ∈ entries := by
  unfold appendAll at h
  split at h
  · exact .inl h
  · dsimp only at h
    split_ifs at h
    · exact .inl h
    · exact List.mem_append.mp h

theorem mem_truncateTo {idx : Nat} {e : RaftEntry} (h : e ∈ (log.truncateTo idx).entries) :
    e ∈ log.entries := by
  unfold truncateTo at h
  dsimp only at h
  split_ifs at h
  · cases h
  · exact h
  · exact List.mem_of_mem_take h

theorem mem_slice {start stop : Nat} {e : RaftEntry} (h : e ∈ log.slice start stop) :
    e ∈ log.entries := by
  unfold slice at h
  dsimp only at h
  split_ifs at h
  all_goals first
    | cases h
    | exact List.mem_of_mem_take (List.mem_of_mem_drop h)

theorem mem_entriesFrom {start limit : Nat} {e : RaftEntry} (h : e ∈ log.entriesFrom start limit) :
    e ∈ log.entries := by
  unfold entriesFrom at h
  dsimp only at h
  split_ifs at h
  all_goals first
    | cases h
    | exact List.mem_of_mem_take (List.mem_of_mem_drop h)

theorem aligned_empty (first : Nat) : Aligned ⟨[], first⟩ := by
  intro k e h
  simp at h

private theorem getLast?_aligned (h : Aligned log) {e : RaftEntry}
    (he : log.entries.getLast? = some e) :
    e.index + 1 = log.firstIndex + log.entries.length := by
  rw [List.getLast?_eq_getElem?] at he
  have hlt := (List.getElem?_eq_some_iff.mp he).1
  have := h _ _ he
  omega

theorem Aligned.lastIndex_succ (h : Aligned log) (hne : log.entries ≠ []) :
    log.lastIndex + 1 = log.firstIndex + log.entries.length := by
  unfold lastIndex
  cases he : log.entries.getLast? with
  | none => exact absurd (List.getLast?_eq_none_iff.mp he) hne
  | some e => exact getLast?_aligned h he

theorem lastIndex_of_empty (he : log.entries = []) : log.lastIndex = 0 := by
  simp [lastIndex, he]

theorem Aligned.lastIndexUnsafe_succ (h : Aligned log) (hpos : 0 < log.firstIndex) :
    log.lastIndexUnsafe + 1 = log.firstIndex + log.entries.length := by
  unfold lastIndexUnsafe
  cases he : log.entries.getLast? with
  | none =>
    rw [List.getLast?_eq_none_iff.mp he]
    simp only [hpos, if_true, List.length_nil]
    omega
  | some e => exact getLast?_aligned h he

def Contiguous (start : Nat) (entries : List RaftEntry) : Prop :=
  ∀ k e, entries[k]? = some e → e.index = start + k

theorem Contiguous.append {start : Nat} {a b : List RaftEntry} (ha : Contiguous start a)
    (hb : Contiguous (start + a.length) b) : Contiguous start (a ++ b) := by
  intro k e he
  rcases Nat.lt_or_ge k a.length with hk | hk
  · exact ha k e (by rwa [List.getElem?_append_left hk] at he)
  · rw [List.getElem?_append_right hk] at he
    have := hb _ _ he
    omega

theorem contiguous_singleton {start : Nat} {e : RaftEntry} (h : e.index = start) :
    Contiguous start [e] := by
  intro k x hx
  cases k with
  | zero =>
    obtain rfl : e = x := by simpa using hx
    exact h
  | succ k => simp at hx

theorem Contiguous.take {start : Nat} {a : List RaftEntry} (ha : Contiguous start a) (n : Nat) :
    Contiguous start (a.take n) := by
  intro k e he
  refine ha k e ?_
  rw [List.getElem?_take] at he
  split_ifs at he with h
  exact he

theorem Contiguous.drop {start : Nat} {a : List RaftEntry} (ha : Contiguous start a) (n : Nat) :
    Contiguous (start + n) (a.drop n) := by
  intro k e he
  rw [List.getElem?_drop] at he
  have := ha _ _ he
  omega

theorem Contiguous.index_mem {start : Nat} {a : List RaftEntry} (ha : Contiguous start a)
    {e : RaftEntry} (he : e ∈ a) : start ≤ e.index ∧ e.index < start + a.length := by
  obtain ⟨k, hk, rfl⟩ := List.getElem_of_mem he
  have := ha k _ (List.getElem?_eq_getElem hk)
  omega

theorem Contiguous.lastIndex_succ {start : Nat} (hc : Contiguous start log.entries)
    (hne : log.entries ≠ []) : log.lastIndex + 1 = start + log.entries.length := by
  have hlast := hc (log.entries.length - 1) _ (List.getLast?_eq_getElem? ▸
    List.getLast?_eq_some_getLast hne)
  have hpos := List.length_pos_of_ne_nil hne
  unfold lastIndex
  rw [List.getLast?_eq_some_getLast hne]
  dsimp only
  omega

def Consecutive (log : RaftLog) : Prop := ∃ start, Contiguous start log.entries

namespace Consecutive

theorem empty (first : Nat) : Consecutive ⟨[], first⟩ := ⟨0, fun k e h => by simp at h⟩

/-- An index stands for one entry. -/
theorem unique (h : log.Consecutive) {x y : RaftEntry} (hx : x ∈ log.entries)
    (hy : y ∈ log.entries) (heq : x.index = y.index) : x = y := by
  obtain ⟨start, hc⟩ := h
  obtain ⟨i, hi, rfl⟩ := List.getElem_of_mem hx
  obtain ⟨j, hj, rfl⟩ := List.getElem_of_mem hy
  have hi' := hc i _ (List.getElem?_eq_getElem hi)
  have hj' := hc j _ (List.getElem?_eq_getElem hj)
  obtain rfl : i = j := by omega
  rfl

theorem append (h : log.Consecutive) {e : RaftEntry} (he : e.index = log.lastIndex + 1) :
    (log.append e).Consecutive := by
  obtain ⟨start, hc⟩ := h
  by_cases hne : log.entries = []
  · refine ⟨e.index, ?_⟩
    rw [RaftLog.append, hne]
    exact contiguous_singleton rfl
  · exact ⟨start, hc.append (contiguous_singleton (he.trans (hc.lastIndex_succ hne)))⟩

theorem appendAll (h : log.Consecutive) {first : Nat} {entries : List RaftEntry}
    (hentries : Contiguous first entries) : (log.appendAll entries).Consecutive := by
  obtain ⟨start, hc⟩ := h
  cases entries with
  | nil => exact ⟨start, hc⟩
  | cons front rest =>
    have hfront : front.index = first := hentries 0 front rfl
    unfold RaftLog.appendAll
    dsimp only
    cases hlast : log.entries.getLast? with
    | none =>
      split_ifs
      · exact ⟨start, hc⟩
      · rw [List.getLast?_eq_none_iff.mp hlast]
        exact ⟨first, hentries⟩
    | some e =>
      split_ifs with hrefused
      · exact ⟨start, hc⟩
      · have hne : log.entries ≠ [] := by
          intro hnil
          simp [hnil] at hlast
        have hnext := hc.lastIndex_succ hne
        have hlastIndex : log.lastIndex = e.index := by rw [lastIndex, hlast]
        have hfirst : start + log.entries.length = first := by
          rw [← hnext, hlastIndex, ← hfront]
          exact (not_ne_iff.mp hrefused).symm
        exact ⟨start, hc.append (hfirst ▸ hentries)⟩

theorem truncateTo (h : log.Consecutive) (idx : Nat) : (log.truncateTo idx).Consecutive := by
  obtain ⟨start, hc⟩ := h
  unfold RaftLog.truncateTo
  dsimp only
  split_ifs
  · exact empty _
  · exact ⟨start, hc⟩
  · exact ⟨start, hc.take _⟩

end Consecutive

/-- The index a vector has to start with: the one after the last slot. -/
theorem Aligned.expected (h : Aligned log) :
    (match log.entries.getLast? with
      | none => log.firstIndex
      | some e => e.index + 1) = log.firstIndex + log.entries.length := by
  cases hl : log.entries.getLast? with
  | none => simp [List.getLast?_eq_none_iff.mp hl]
  | some e => exact getLast?_aligned h hl

theorem Aligned.appendAll_next (h : Aligned log) {entries : List RaftEntry}
    (hc : Contiguous (log.firstIndex + log.entries.length) entries) :
    log.appendAll entries = { log with entries := log.entries ++ entries } := by
  unfold RaftLog.appendAll
  cases entries with
  | nil => simp
  | cons front rest =>
    have hfront : front.index = log.firstIndex + log.entries.length := hc 0 front rfl
    dsimp only
    rw [h.expected, if_neg (not_ne_iff.mpr hfront)]

theorem Aligned.appendAll_refused (h : Aligned log) {entries : List RaftEntry} {start : Nat}
    (hc : Contiguous start entries) (hne : start ≠ log.firstIndex + log.entries.length) :
    log.appendAll entries = log := by
  unfold RaftLog.appendAll
  cases entries with
  | nil => rfl
  | cons front rest =>
    have hfront : front.index = start := hc 0 front rfl
    dsimp only
    rw [h.expected, if_pos (hfront ▸ hne)]

/-- A contiguous vector is appended whole at the next slot, or not at all. -/
theorem Aligned.appendAll (h : Aligned log) {entries : List RaftEntry} {start : Nat}
    (hc : Contiguous start entries) : Aligned (log.appendAll entries) := by
  by_cases hnext : start = log.firstIndex + log.entries.length
  · subst hnext
    rw [h.appendAll_next hc]
    exact Contiguous.append h hc
  · rwa [h.appendAll_refused hc hnext]

theorem Aligned.truncateTo (h : Aligned log) (idx : Nat) : Aligned (log.truncateTo idx) := by
  unfold RaftLog.truncateTo
  split_ifs
  · exact aligned_empty _
  · dsimp only
    split_ifs
    · exact h
    · exact Contiguous.take h _

/-- A slice is numbered from its start, or from the first slot when that comes later. -/
theorem Aligned.slice_contiguous (h : Aligned log) (start stop : Nat) :
    Contiguous (max start log.firstIndex) (log.slice start stop) := by
  have hstart : (if start < log.firstIndex then log.firstIndex else start) =
      max start log.firstIndex := by split_ifs <;> omega
  unfold slice
  dsimp only
  rw [hstart]
  split_ifs
  · intro k e he
    simp at he
  · intro k e he
    have := (Contiguous.take h _).drop _ k e he
    omega
  · intro k e he
    simp at he
  · intro k e he
    have := (Contiguous.take h _).drop _ k e he
    omega

/-- It ends before `stop`, or with the last slot when that comes earlier. -/
theorem Aligned.slice_length (h : Aligned log) (hpos : 0 < log.firstIndex) (start stop : Nat) :
    (log.slice start stop).length =
      min stop (log.firstIndex + log.entries.length) - max start log.firstIndex := by
  have hlast := h.lastIndexUnsafe_succ hpos
  unfold slice
  dsimp only
  rw [hlast]
  split_ifs
  all_goals
    simp only [List.length_nil, List.length_drop, List.length_take]
    omega

theorem Aligned.mem_slice (h : Aligned log) (hpos : 0 < log.firstIndex) {start stop : Nat}
    {e : RaftEntry} (he : e ∈ log.slice start stop) : start ≤ e.index ∧ e.index < stop := by
  have hindex := (h.slice_contiguous start stop).index_mem he
  have hlength := h.slice_length hpos start stop
  have := List.length_pos_of_mem he
  omega

theorem entryAt_eq_some {idx : Nat} {e : RaftEntry} :
    log.entryAt idx = some e ↔
      log.firstIndex ≤ idx ∧ log.entries[idx - log.firstIndex]? = some e := by
  unfold entryAt
  split_ifs with hlt
  · simp [hlt]
  · simp [not_lt.mp hlt]

theorem mem_of_entryAt {idx : Nat} {e : RaftEntry} (h : log.entryAt idx = some e) :
    e ∈ log.entries :=
  List.mem_of_getElem? (entryAt_eq_some.mp h).2

theorem termAt_of_entryAt {idx : Nat} {e : RaftEntry} (h : log.entryAt idx = some e) :
    log.termAt idx = e.term := by
  rw [termAt_eq_entryAt, h]
  rfl

/-- Everything between two indices of which the log holds the later one is held as well. -/
theorem entryAt_of_le {i j : Nat} {y : RaftEntry} (hy : log.entryAt j = some y) (hij : i ≤ j)
    (hi : log.firstIndex ≤ i) : ∃ x, log.entryAt i = some x := by
  obtain ⟨hj, hslot⟩ := entryAt_eq_some.mp hy
  have hlt := (List.getElem?_eq_some_iff.mp hslot).1
  have hi' : i - log.firstIndex < log.entries.length := by omega
  exact ⟨_, entryAt_eq_some.mpr ⟨hi, List.getElem?_eq_getElem hi'⟩⟩

/-- The last index is held by any log that holds something. -/
theorem Aligned.entryAt_lastIndex (h : Aligned log) {i : Nat} {x : RaftEntry}
    (hx : log.entryAt i = some x) : i ≤ log.lastIndex ∧ ∃ y, log.entryAt log.lastIndex = some y := by
  obtain ⟨hi, hslot⟩ := entryAt_eq_some.mp hx
  have hlt := (List.getElem?_eq_some_iff.mp hslot).1
  have hlast := h.lastIndex_succ (List.ne_nil_of_length_pos (by omega))
  have hlt' : log.lastIndex - log.firstIndex < log.entries.length := by omega
  exact ⟨by omega, _, entryAt_eq_some.mpr ⟨by omega, List.getElem?_eq_getElem hlt'⟩⟩

/-- What is read without a limit: everything from `start` on. -/
theorem Aligned.entriesFrom (h : Aligned log) (hpos : 0 < log.firstIndex) (start : Nat) :
    log.entriesFrom start 0 = log.entries.drop (max start log.firstIndex - log.firstIndex) := by
  have hlast := h.lastIndexUnsafe_succ hpos
  have hstart : (if start < log.firstIndex then log.firstIndex else start) =
      max start log.firstIndex := by split_ifs <;> omega
  simp only [RaftLog.entriesFrom, hstart, lt_self_iff_false, false_and, if_false, List.take_length]
  split_ifs with hpast
  · rw [List.drop_eq_nil_of_le]
    omega
  · rfl

/-- What is read up to `stop` and from there on is what is read from the start. -/
theorem Aligned.slice_append_entriesFrom (h : Aligned log)
    (hpos : 0 < log.firstIndex) {start stop : Nat} (hle : start ≤ stop)
    (hstop : stop ≤ log.firstIndex + log.entries.length) :
    log.slice start stop ++ log.entriesFrom stop 0 = log.entriesFrom start 0 := by
  have hlast := h.lastIndexUnsafe_succ hpos
  have hslice : log.slice start stop =
      (log.entries.take (stop - log.firstIndex)).drop (max start log.firstIndex - log.firstIndex) := by
    unfold slice
    dsimp only
    have hstart : (if start < log.firstIndex then log.firstIndex else start) =
        max start log.firstIndex := by split_ifs <;> omega
    have hend : (if stop > log.lastIndexUnsafe + 1 then log.lastIndexUnsafe + 1 else stop) =
        stop := if_neg (by omega)
    rw [hstart, hend]
    split_ifs with hnone
    · refine (List.drop_eq_nil_of_le ?_).symm
      rw [List.length_take]
      omega
    · rfl
  rw [hslice, h.entriesFrom hpos, h.entriesFrom hpos]
  rcases Nat.lt_or_ge stop log.firstIndex with hbefore | hafter
  · have hstop' : max stop log.firstIndex = log.firstIndex := by omega
    have hstart' : max start log.firstIndex = log.firstIndex := by omega
    have htake : stop - log.firstIndex = 0 := by omega
    rw [hstop', hstart', htake, List.take_zero, List.drop_nil, List.nil_append]
  · have hsplit : log.entries =
        log.entries.take (stop - log.firstIndex) ++ log.entries.drop (stop - log.firstIndex) :=
      (List.take_append_drop _ _).symm
    have hstop' : max stop log.firstIndex = stop := by omega
    have hfits : max start log.firstIndex - log.firstIndex ≤
        (log.entries.take (stop - log.firstIndex)).length := by
      rw [List.length_take]
      omega
    conv_rhs => rw [hsplit]
    rw [hstop', List.drop_append_of_le_length hfits]

theorem Aligned.slice_all (h : Aligned log) (hpos : 0 < log.firstIndex) :
    log.slice log.firstIndex (log.firstIndex + log.entries.length) = log.entries := by
  have hsplit := h.slice_append_entriesFrom hpos (Nat.le_add_right log.firstIndex _) le_rfl
  have hbeyond : max (log.firstIndex + log.entries.length) log.firstIndex - log.firstIndex =
      log.entries.length := by omega
  rwa [h.entriesFrom hpos, h.entriesFrom hpos, max_self, Nat.sub_self, List.drop_zero, hbeyond,
    List.drop_length, List.append_nil] at hsplit

/-- Logs that have never been compacted: position `i` holds the entry with index `i + 1`. -/
structure Whole (log : RaftLog) : Prop where
  first : log.firstIndex = 1
  aligned : Aligned log

namespace Whole

theorem lastIndex (h : Whole log) : log.lastIndex = log.entries.length := by
  rcases eq_or_ne log.entries [] with he | he
  · rw [lastIndex_of_empty he, he, List.length_nil]
  · have := h.aligned.lastIndex_succ he
    have := h.first
    omega

theorem entryAt (h : Whole log) {idx : Nat} (hpos : 0 < idx) :
    log.entryAt idx = log.entries[idx - 1]? := by
  rw [RaftLog.entryAt, h.first, if_neg (by omega)]

theorem mem (h : Whole log) {e : RaftEntry} (he : e ∈ log.entries) :
    0 < e.index ∧ log.entries[e.index - 1]? = some e := by
  obtain ⟨k, hk⟩ := List.mem_iff_getElem?.mp he
  have hindex := h.aligned k e hk
  rw [h.first] at hindex
  exact ⟨by omega, by rwa [hindex, Nat.add_sub_cancel_left]⟩

theorem termAt (h : Whole log) {idx : Nat} {e : RaftEntry} (hpos : 0 < idx)
    (he : log.entries[idx - 1]? = some e) : log.termAt idx = e.term := by
  rw [termAt_eq_entryAt, h.entryAt hpos, he]
  rfl

theorem contiguous (h : Whole log) : Contiguous 1 log.entries := by
  rw [← h.first]
  exact h.aligned

theorem appendAll (h : Whole log) {entries : List RaftEntry}
    (hc : Contiguous (log.lastIndex + 1) entries) :
    log.appendAll entries = { log with entries := log.entries ++ entries } := by
  refine h.aligned.appendAll_next ?_
  rwa [h.first, Nat.add_comm, ← h.lastIndex]

theorem entriesFrom (h : Whole log) (k : Nat) :
    log.entriesFrom (k + 1) 0 = log.entries.drop k := by
  rw [h.aligned.entriesFrom (h.first ▸ Nat.one_pos), h.first, max_eq_left (Nat.succ_pos k),
    Nat.add_sub_cancel]

end Whole

end RaftLog
end MyEtcd
