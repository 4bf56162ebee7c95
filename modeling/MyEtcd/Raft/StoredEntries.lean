import MyEtcd.Raft.MatchIndex

/-! What a follower's log holds after an append request.
The end of the log is cut off before the entries are stored, whether they conflict with it or not,
and entries that would leave a gap are dropped without the answer saying so. -/
namespace MyEtcd

namespace RaftLog
variable {log : RaftLog}

/-- Entries that would leave a gap are dropped. -/
theorem Aligned.storeEntries_gap (h : log.Aligned) {k : Nat} {entries : List RaftEntry}
    (hc : Contiguous (k + 1) entries) (hgap : log.firstIndex + log.entries.length ≤ k) :
    RaftNode.storeEntries log entries = log := by
  rcases eq_or_ne entries [] with rfl | hne
  · rfl
  rcases RaftNode.storeEntries_cases h hc hne with ⟨_, _⟩ | ⟨_, _, _⟩ | ⟨_, _, heq⟩
  · omega
  · omega
  · exact heq

namespace Whole

/-- In a log from index one, entries that leave no gap replace what comes after `k`. -/
theorem storeEntries (h : log.Whole) {k : Nat} {entries : List RaftEntry}
    (hc : Contiguous (k + 1) entries) (hne : entries ≠ []) (hle : k ≤ log.entries.length) :
    RaftNode.storeEntries log entries = ⟨log.entries.take k ++ entries, 1⟩ := by
  have hfirst := h.first
  rcases RaftNode.storeEntries_cases h.aligned hc hne with ⟨hlt, heq⟩ | ⟨_, _, heq⟩ | ⟨_, _, _⟩
  · obtain rfl : k = 0 := by omega
    rw [heq, List.take_zero, List.nil_append]
  · rw [heq, hfirst, Nat.add_sub_cancel]
  · omega

theorem index_of_entryAt (h : log.Whole) {i : Nat} {x : RaftEntry} (hx : log.entryAt i = some x) :
    x.index = i := by
  obtain ⟨hi, hslot⟩ := entryAt_eq_some.mp hx
  have := h.aligned _ _ hslot
  omega

theorem entryAt_storeEntries (h : log.Whole) {k : Nat} {entries : List RaftEntry}
    (hc : Contiguous (k + 1) entries) (hne : entries ≠ []) (hle : k ≤ log.entries.length)
    {i : Nat} (hi : 0 < i) : (RaftNode.storeEntries log entries).entryAt i =
      if i ≤ k then log.entryAt i else entries[i - (k + 1)]? := by
  have hlen : (log.entries.take k).length = k := by rw [List.length_take, min_eq_left hle]
  rw [h.storeEntries hc hne hle, h.entryAt hi, RaftLog.entryAt, if_neg (by dsimp only; omega)]
  dsimp only
  split_ifs with hbefore
  · rw [List.getElem?_append_left (by omega), List.getElem?_take_of_lt (by omega)]
  · rw [List.getElem?_append_right (by omega), hlen]
    congr 1
    omega

end Whole
end RaftLog

namespace RaftNode

/-- The request repeats what the log holds, where the log holds anything: its entries are numbered
from its `prevLogIndex` on, and agree in index and term with those of the log. -/
structure Repeats (log : RaftLog) (req : AppendEntriesRequest) : Prop where
  contiguous : RaftLog.Contiguous (req.prevLogIndex + 1) req.entries
  terms : ∀ e ∈ req.entries, ∀ x, log.entryAt e.index = some x → x.term = e.term

/-- The log holds an entry of the index and term of each that it held before. -/
def Keeps (before after : RaftLog) : Prop :=
  ∀ i x, before.entryAt i = some x →
    ∃ y, after.entryAt i = some y ∧ y.index = x.index ∧ y.term = x.term

private theorem stored_of_accepts {n : RaftNode} {req : AppendEntriesRequest}
    (hok : Leadership.Accepts n req) :
    (n.handleAppendEntries req).2.log = storeEntries n.log req.entries :=
  (Leadership.handleAppendEntries_answer n req).elim (fun h => absurd hok h.1) fun h => h.2.2

private theorem reaches_of_keeps {log : RaftLog} (h : log.Whole) {req : AppendEntriesRequest}
    (hr : Repeats log req) (hkeeps : Keeps log (storeEntries log req.entries)) :
    req.entries = [] ∨ log.lastIndex ≤ req.prevLogIndex + req.entries.length := by
  rcases eq_or_ne req.entries [] with hnil | hne
  · exact .inl hnil
  refine .inr ?_
  rw [h.lastIndex]
  by_contra hshort
  have hpos : 0 < log.entries.length := by omega
  have hlast := h.entryAt hpos
  rw [List.getElem?_eq_getElem (Nat.sub_lt hpos Nat.one_pos)] at hlast
  obtain ⟨y, hy, _⟩ := hkeeps _ _ hlast
  rw [h.entryAt_storeEntries hr.contiguous hne (by omega) hpos, if_neg (by omega)] at hy
  have := (List.getElem?_eq_some_iff.mp hy).1
  omega

private theorem entryAt_of_reaches {log : RaftLog} (h : log.Whole) {req : AppendEntriesRequest}
    (hr : Repeats log req)
    (hreach : req.entries = [] ∨ log.lastIndex ≤ req.prevLogIndex + req.entries.length)
    {i : Nat} {x : RaftEntry} (hx : log.entryAt i = some x) :
    (storeEntries log req.entries).entryAt i = some x ∨
      ∃ e ∈ req.entries, e.index = i ∧ (storeEntries log req.entries).entryAt i = some e := by
  rcases eq_or_ne req.entries [] with hnil | hne
  · exact .inl (by rwa [hnil])
  have hend := hreach.resolve_left hne
  rw [h.lastIndex] at hend
  have hi : 0 < i := by
    have := (RaftLog.entryAt_eq_some.mp hx).1
    have := h.first
    omega
  have hwithin : i - 1 < log.entries.length := by
    rw [h.entryAt hi] at hx
    exact (List.getElem?_eq_some_iff.mp hx).1
  rcases Nat.lt_or_ge log.entries.length req.prevLogIndex with hgap | hle
  · have hfirst := h.first
    rw [h.aligned.storeEntries_gap hr.contiguous (by omega)]
    exact .inl hx
  rw [h.entryAt_storeEntries hr.contiguous hne hle hi]
  split_ifs with hbefore
  · exact .inl hx
  · have hslot : i - (req.prevLogIndex + 1) < req.entries.length := by omega
    have hindex := hr.contiguous _ _ (List.getElem?_eq_getElem hslot)
    exact .inr ⟨_, List.getElem_mem hslot, by omega, List.getElem?_eq_getElem hslot⟩

private theorem same_of_kept {log : RaftLog} (h : log.Whole) {req : AppendEntriesRequest}
    (hr : Repeats log req)
    (hkept : ∀ i x, log.entryAt i = some x →
      (storeEntries log req.entries).entryAt i = some x) :
    ∀ e ∈ req.entries, ∀ x, log.entryAt e.index = some x → x = e := by
  intro e he x hx
  have hne := List.ne_nil_of_mem he
  obtain ⟨k, hk⟩ := List.mem_iff_getElem?.mp he
  have hindex := hr.contiguous k e hk
  have hwithin : e.index - 1 < log.entries.length := by
    rw [h.entryAt (by omega)] at hx
    exact (List.getElem?_eq_some_iff.mp hx).1
  have hstored := hkept _ x hx
  rw [h.entryAt_storeEntries hr.contiguous hne (by omega) (by omega), if_neg (by omega), hindex,
    Nat.add_sub_cancel_left, hk] at hstored
  exact (Option.some.inj hstored).symm

/-- A request that repeats what the log holds takes nothing away exactly when it is empty or reaches
the log's last index, and leaves the very entries where they are when it brings the same again. -/
theorem repeated_request_keeps_iff {n : RaftNode} {req : AppendEntriesRequest} (h : n.log.Whole)
    (hok : Leadership.Accepts n req) (hr : Repeats n.log req) :
    (Keeps n.log (n.handleAppendEntries req).2.log ↔
      req.entries = [] ∨ n.log.lastIndex ≤ req.prevLogIndex + req.entries.length) ∧
    ((∀ i x, n.log.entryAt i = some x → (n.handleAppendEntries req).2.log.entryAt i = some x) ↔
      (req.entries = [] ∨ n.log.lastIndex ≤ req.prevLogIndex + req.entries.length) ∧
        ∀ e ∈ req.entries, ∀ x, n.log.entryAt e.index = some x → x = e) := by
  rw [stored_of_accepts hok]
  refine ⟨⟨reaches_of_keeps h hr, fun hreach i x hx => ?_⟩, fun hkept => ⟨?_, ?_⟩, ?_⟩
  · rcases entryAt_of_reaches h hr hreach hx with hy | ⟨e, he, rfl, hy⟩
    · exact ⟨x, hy, rfl, rfl⟩
    · exact ⟨e, hy, (h.index_of_entryAt hx).symm, (hr.terms e he x hx).symm⟩
  · exact reaches_of_keeps h hr fun i x hx => ⟨x, hkept i x hx, rfl, rfl⟩
  · exact same_of_kept h hr hkept
  · rintro ⟨hreach, hsame⟩ i x hx
    rcases entryAt_of_reaches h hr hreach hx with hy | ⟨e, he, rfl, hy⟩
    · exact hy
    · rwa [hsame e he x hx]

private theorem repeats_of_subset {log : RaftLog} (h : log.Whole) {req : AppendEntriesRequest}
    (hc : RaftLog.Contiguous (req.prevLogIndex + 1) req.entries)
    (hsub : ∀ e ∈ req.entries, e ∈ log.entries) : Repeats log req := by
  refine ⟨hc, fun e he x hx => ?_⟩
  obtain ⟨hpos, hslot⟩ := h.mem (hsub e he)
  rw [h.entryAt hpos, hslot] at hx
  rw [Option.some.inj hx]

def threeStored : RaftNode where
  nodeId := 2
  currentTerm := 1
  log := ⟨[{ term := 1, index := 1 }, { term := 1, index := 2 }, { term := 1, index := 3 }], 1⟩
  commitIndex := 3

/-- The first `count` of the three entries, sent again. -/
def sentAgain (count : Nat) : AppendEntriesRequest where
  term := 1
  leaderId := 1
  prevLogIndex := 0
  prevLogTerm := 0
  entries := threeStored.log.entries.take count
  leaderCommit := 0

private theorem whole_threeStored : threeStored.log.Whole := ⟨rfl, by decide⟩

theorem sentAgain_whole_kept : Keeps threeStored.log
    (threeStored.handleAppendEntries (sentAgain 3)).2.log :=
  (@repeated_request_keeps_iff threeStored (sentAgain 3) whole_threeStored (by decide)
    (repeats_of_subset whole_threeStored (by decide) (by decide))).1.mpr (.inr (by decide))

/-- The first entry comes once more, late, and two committed entries are gone. -/
theorem sentAgain_first_truncates : threeStored.log.Whole ∧
    Leadership.Accepts threeStored (sentAgain 1) ∧ Repeats threeStored.log (sentAgain 1) ∧
    ¬ Keeps threeStored.log (threeStored.handleAppendEntries (sentAgain 1)).2.log := by
  refine ⟨whole_threeStored, by decide,
    repeats_of_subset whole_threeStored (by decide) (by decide), fun hkeeps => ?_⟩
  obtain ⟨y, hy, _⟩ := hkeeps 3 { term := 1, index := 3 } (by decide)
  have hgone : (threeStored.handleAppendEntries (sentAgain 1)).2.log.entryAt 3 = none := by decide
  cases hgone.symm.trans hy

/-- What an answer says about the node that gave it: the entries stand at their indices, or nothing
has changed. -/
structure Answered (n : RaftNode) (req : AppendEntriesRequest) : Prop where
  stored : (n.handleAppendEntries req).1.success = true →
    ∀ e ∈ req.entries, (n.handleAppendEntries req).2.log.entryAt e.index = some e
  unchanged : (n.handleAppendEntries req).1.success = false →
    (n.handleAppendEntries req).2.log = n.log ∧
    (n.handleAppendEntries req).2.commitIndex = n.commitIndex ∧
    (n.handleAppendEntries req).2.lastApplied = n.lastApplied

private theorem unchanged_of_refused {n : RaftNode} {req : AppendEntriesRequest}
    (hfail : (n.handleAppendEntries req).1.success = false) :
    (n.handleAppendEntries req).2.log = n.log ∧
    (n.handleAppendEntries req).2.commitIndex = n.commitIndex ∧
    (n.handleAppendEntries req).2.lastApplied = n.lastApplied := by
  rcases n.handleAppendEntries_cases req with ⟨_, heq⟩ | ⟨_, ⟨_, heq⟩ | ⟨_, hsuccess, _⟩⟩
  · rw [heq]
    exact ⟨rfl, rfl, rfl⟩
  · obtain ⟨_, _, hfollower⟩ := n.becomeFollowerLocked_eq req.term
    rw [heq, hfollower]
    exact ⟨rfl, rfl, rfl⟩
  · rw [hsuccess] at hfail
    cases hfail

private theorem prevMatches_of_gap {log : RaftLog} {req : AppendEntriesRequest}
    (hgap : log.firstIndex + log.entries.length ≤ req.prevLogIndex) :
    prevMatches log req = true ↔ req.prevLogIndex = 0 ∨ req.prevLogTerm = 0 := by
  have hnone : log.entries[req.prevLogIndex - log.firstIndex]? = none :=
    List.getElem?_eq_none_iff.mpr (by omega)
  have hterm : log.termAt req.prevLogIndex = 0 := by
    rw [RaftLog.termAt, if_neg (by omega), hnone]
  rw [prevMatches, decide_eq_true_iff, hterm]
  exact or_congr_right eq_comm

private theorem entryAt_stored {log : RaftLog} (h : log.Aligned) {req : AppendEntriesRequest}
    (hc : RaftLog.Contiguous (req.prevLogIndex + 1) req.entries)
    (hreach : req.prevLogIndex < log.firstIndex + log.entries.length)
    {e : RaftEntry} (he : e ∈ req.entries) :
    (storeEntries log req.entries).entryAt e.index = some e := by
  have hne := List.ne_nil_of_mem he
  obtain ⟨k, hk⟩ := List.mem_iff_getElem?.mp he
  have hindex := hc k e hk
  rw [(RaftLog.entryAt_storeEntries h hc hne hreach e.index).1 (by omega), hindex,
    Nat.add_sub_cancel_left, hk]

/-- The answer is right unless it accepts entries that begin beyond the end of the log, which it
does where the entry before them is given the term zero. -/
theorem answered_iff {n : RaftNode} {req : AppendEntriesRequest} (h : n.log.Aligned)
    (hc : RaftLog.Contiguous (req.prevLogIndex + 1) req.entries) :
    Answered n req ↔
      ¬ (n.currentTerm ≤ req.term ∧ req.entries ≠ [] ∧
        n.log.firstIndex + n.log.entries.length ≤ req.prevLogIndex ∧
        (req.prevLogIndex = 0 ∨ req.prevLogTerm = 0)) := by
  constructor
  · rintro hans ⟨hterm, hne, hgap, hzero⟩
    have hok : Leadership.Accepts n req := ⟨hterm, (prevMatches_of_gap hgap).mpr hzero⟩
    obtain ⟨e, he⟩ := List.exists_mem_of_ne_nil _ hne
    have hsuccess : (n.handleAppendEntries req).1.success = true := by
      rcases Leadership.handleAppendEntries_answer n req with ⟨hno, _⟩ | ⟨_, hanswer, _⟩
      · exact absurd hok hno
      · rw [hanswer]
    have hheld := hans.stored hsuccess e he
    rw [stored_of_accepts hok, h.storeEntries_gap hc hgap] at hheld
    have hindex := (hc.index_mem he).1
    obtain ⟨_, hslot⟩ := RaftLog.entryAt_eq_some.mp hheld
    have := (List.getElem?_eq_some_iff.mp hslot).1
    omega
  · intro hno
    refine ⟨fun hsuccess e he => ?_, unchanged_of_refused⟩
    rcases Leadership.handleAppendEntries_answer n req with ⟨_, hfail, _⟩ | ⟨hok, _, hlog⟩
    · exact absurd (hfail.symm.trans hsuccess) Bool.false_ne_true
    · have hreach : req.prevLogIndex < n.log.firstIndex + n.log.entries.length :=
        not_le.mp fun hgap =>
          hno ⟨hok.1, List.ne_nil_of_mem he, hgap, (prevMatches_of_gap hgap).mp hok.2⟩
      rw [hlog]
      exact entryAt_stored h hc hreach he

/-- What a leader sends whose own log begins behind a snapshot: it has no term for the entry before
its first one. -/
def behindSnapshot : AppendEntriesRequest where
  term := 1
  leaderId := 1
  prevLogIndex := 5
  prevLogTerm := 0
  entries := [{ term := 1, index := 6 }]
  leaderCommit := 0

theorem threeStored_answered : Answered threeStored (sentAgain 1) :=
  (@answered_iff threeStored (sentAgain 1) (by decide) (by decide)).mpr (by decide)

/-- The entry is dropped, and the answer says that it is stored. -/
theorem gap_answered_with_success : threeStored.log.Aligned ∧
    RaftLog.Contiguous (behindSnapshot.prevLogIndex + 1) behindSnapshot.entries ∧
    ¬ Answered threeStored behindSnapshot := by
  refine ⟨by decide, by decide, fun hans => ?_⟩
  have hheld := hans.stored (by decide) { term := 1, index := 6 } (by decide)
  have hgone : (threeStored.handleAppendEntries behindSnapshot).2.log.entryAt 6 = none := by decide
  cases hgone.symm.trans hheld

end RaftNode
end MyEtcd
