import MyEtcd.Raft.IndexedLog
import MyEtcd.Raft.LogTerms

/-! The two loops of `FindConflictTermIndex`, with the arithmetic of the source.
Each takes a number of rounds and returns nothing if it needs more. -/
namespace MyEtcd
open RaftLog

namespace RaftNode

/-- The loop that looks for the term at all. -/
def scanTerm (log : RaftLog) (conflictTerm last : Nat) : Nat → Nat → Option Bool
  | 0, _ => none
  | rounds + 1, i =>
    if i ≤ last then
      if log.termAt i = conflictTerm then some true
      else scanTerm log conflictTerm last rounds (succIndex i)
    else some false

/-- The binary search for its first index. -/
def searchTerm (log : RaftLog) (conflictTerm : Nat) : Nat → Nat → Nat → Option Nat
  | 0, _, _ => none
  | rounds + 1, lo, hi =>
    if lo < hi then
      let mid := lo + (hi - lo) / 2
      let t := log.termAt mid
      if t < conflictTerm then searchTerm log conflictTerm rounds (succIndex mid) hi
      else if t > conflictTerm then searchTerm log conflictTerm rounds lo mid
      else searchTerm log conflictTerm rounds lo mid
    else some lo

def findConflictTermIndexIn (rounds : Nat) (n : RaftNode) (conflictTerm conflictIndexHint : Nat) :
    Option Nat := do
  let first := n.log.firstIndex
  let last := n.log.lastIndex
  let hasTerm ← scanTerm n.log conflictTerm last rounds first
  if ¬ hasTerm then return if conflictIndexHint > 0 then conflictIndexHint else 1
  let result ← searchTerm n.log conflictTerm rounds first (succIndex last)
  if result ≥ first ∧ result ≤ last ∧ n.log.termAt result = conflictTerm then return result
  return if conflictIndexHint > 0 then conflictIndexHint else if first > 0 then first else 1

end RaftNode

namespace RaftLog.Indexed
open RaftNode
variable {log : RaftLog} {conflictTerm i lo hi rounds : Nat}

theorem exists_entry (h : Indexed log) (hfirst : log.firstIndex ≤ i) (hnext : i < log.next) :
    ∃ e ∈ log.entries, e.index = i ∧ log.termAt i = e.term := by
  have hslot : i - log.firstIndex < log.entries.length := by
    rw [next] at hnext
    omega
  have hentry : log.entryAt i = some log.entries[i - log.firstIndex] :=
    RaftLog.entryAt_eq_some.mpr ⟨hfirst, List.getElem?_eq_getElem hslot⟩
  obtain ⟨hmem, hindex⟩ := h.entryAt_eq_some.mp hentry
  exact ⟨_, hmem, hindex, termAt_of_entryAt hentry⟩

theorem index_mem (h : Indexed log) {e : RaftEntry} (he : e ∈ log.entries) :
    log.firstIndex ≤ e.index ∧ e.index < log.next :=
  Contiguous.index_mem h.numbered he

theorem le_lastIndex_iff (h : Indexed log) (hfirst : log.firstIndex ≤ i) :
    i ≤ log.lastIndex ↔ i < log.next := by
  have hpos := h.first
  rw [next]
  rcases eq_or_ne log.entries [] with hnil | hne
  · rw [lastIndex_of_empty hnil, hnil, List.length_nil]
    omega
  · have := h.numbered.lastIndex_succ hne
    omega

theorem scanTerm_eq (h : Indexed log) (hfirst : log.firstIndex ≤ i) (hnext : i ≤ log.next)
    (hrounds : log.next - i < rounds) :
    scanTerm log conflictTerm log.lastIndex rounds i =
      some (decide (∃ e ∈ log.entries, i ≤ e.index ∧ e.term = conflictTerm)) := by
  induction rounds generalizing i with
  | zero => omega
  | succ rounds ih =>
    rw [scanTerm]
    rcases Nat.lt_or_ge i log.next with hlt | hge
    · obtain ⟨e, he, hindex, hterm⟩ := h.exists_entry hfirst hlt
      have hbelow := h.next_le
      rw [if_pos ((h.le_lastIndex_iff hfirst).mpr hlt), hterm, succIndex_of_lt (by omega)]
      split_ifs with hfound
      · exact congrArg some (decide_eq_true ⟨e, he, hindex.ge, hfound⟩).symm
      · rw [ih (by omega) (by omega) (by omega)]
        refine congrArg some (decide_eq_decide.mpr (exists_congr fun x => and_congr_right fun hx => ?_))
        refine and_congr_left fun hx' => ⟨fun hle => by omega, fun hle => ?_⟩
        refine Nat.lt_of_le_of_ne hle fun heq => hfound ?_
        have hsame : log.entryAt i = some x := h.entryAt_eq_some.mpr ⟨hx, heq.symm⟩
        rw [← hx', ← hterm, termAt_of_entryAt hsame]
    · rw [if_neg fun hle => by have := (h.le_lastIndex_iff hfirst).mp hle; omega]
      refine congrArg some (decide_eq_false ?_).symm
      rintro ⟨e, he, hle, -⟩
      have := (h.index_mem he).2
      omega

theorem term_le (h : Indexed log) (hsorted : TermsSorted log.entries) {x y : RaftEntry}
    (hx : x ∈ log.entries) (hy : y ∈ log.entries) (hle : x.index ≤ y.index) : x.term ≤ y.term := by
  obtain ⟨j, hj, rfl⟩ := List.getElem_of_mem hx
  obtain ⟨k, hk, rfl⟩ := List.getElem_of_mem hy
  have hj' := h.numbered j _ (List.getElem?_eq_getElem hj)
  have hk' := h.numbered k _ (List.getElem?_eq_getElem hk)
  rcases Nat.lt_or_eq_of_le (show j ≤ k by omega) with hlt | rfl
  · exact List.pairwise_iff_getElem.mp hsorted j k hj hk hlt
  · exact le_rfl

/-- The window of the search closes where the terms reach the wanted one. -/
theorem searchTerm_splits (h : Indexed log) (hsorted : TermsSorted log.entries)
    (hfirst : log.firstIndex ≤ lo) (hnext : hi ≤ log.next) (hwindow : lo ≤ hi)
    (hbefore : ∀ e ∈ log.entries, e.index < lo → e.term < conflictTerm)
    (hbehind : ∀ e ∈ log.entries, hi ≤ e.index → conflictTerm ≤ e.term)
    (hrounds : hi - lo < rounds) :
    ∃ result, searchTerm log conflictTerm rounds lo hi = some result ∧
      log.firstIndex ≤ result ∧ result ≤ log.next ∧
      (∀ e ∈ log.entries, e.index < result → e.term < conflictTerm) ∧
      ∀ e ∈ log.entries, result ≤ e.index → conflictTerm ≤ e.term := by
  induction rounds generalizing lo hi with
  | zero => omega
  | succ rounds ih =>
    rw [searchTerm]
    split_ifs with hopen
    · obtain ⟨mid, hmid⟩ : ∃ mid, lo + (hi - lo) / 2 = mid := ⟨_, rfl⟩
      obtain ⟨e, he, hindex, hterm⟩ := h.exists_entry (i := mid) (by omega) (by omega)
      have hbelow := h.next_le
      dsimp only
      rw [hmid, hterm, succIndex_of_lt (by omega)]
      split_ifs with hless hgreater
      · refine ih (by omega) hnext (by omega) (fun x hx hlt => ?_) hbehind (by omega)
        exact lt_of_le_of_lt (h.term_le hsorted hx he (by omega)) hless
      · refine ih hfirst (by omega) (by omega) hbefore (fun x hx hle => ?_) (by omega)
        exact le_trans (not_lt.mp hless) (h.term_le hsorted he hx (by omega))
      · refine ih hfirst (by omega) (by omega) hbefore (fun x hx hle => ?_) (by omega)
        exact le_trans (not_lt.mp hless) (h.term_le hsorted he hx (by omega))
    · obtain rfl : lo = hi := by omega
      exact ⟨lo, rfl, hfirst, hnext, hbefore, hbehind⟩

end RaftLog.Indexed

namespace RaftNode

variable {n : RaftNode} {conflictTerm rounds : Nat}

theorem scanTerm_first (h : Indexed n.log) (hrounds : rounds > n.log.entries.length) :
    scanTerm n.log conflictTerm n.log.lastIndex rounds n.log.firstIndex =
      some (decide (∃ e ∈ n.log.entries, e.term = conflictTerm)) := by
  have hnext : n.log.next = n.log.firstIndex + n.log.entries.length := rfl
  rw [h.scanTerm_eq le_rfl (by omega) (by omega)]
  refine congrArg some (decide_eq_decide.mpr (exists_congr fun e => and_congr_right fun he => ?_))
  exact and_iff_right (h.index_mem he).1

theorem findConflictTermIndexIn_found (h : Indexed n.log) (hsorted : TermsSorted n.log.entries)
    (hrounds : rounds > n.log.entries.length)
    (hthere : ∃ e ∈ n.log.entries, e.term = conflictTerm) (hint : Nat) :
    ∃ e ∈ n.log.entries, findConflictTermIndexIn rounds n conflictTerm hint = some e.index ∧
      e.term = conflictTerm ∧ ∀ x ∈ n.log.entries, x.term = conflictTerm → e.index ≤ x.index := by
  have hnext : n.log.next = n.log.firstIndex + n.log.entries.length := rfl
  obtain ⟨x, hx, hxterm⟩ := hthere
  have hxindex := h.index_mem hx
  have hlast : n.log.lastIndex + 1 = n.log.next :=
    h.numbered.lastIndex_succ (List.ne_nil_of_mem hx)
  have hbelow := h.next_le
  have hwindow : n.log.next - n.log.firstIndex < rounds := by omega
  obtain ⟨result, hsearch, hfirst, -, hbefore, hbehind⟩ :=
    h.searchTerm_splits hsorted le_rfl le_rfl (by omega)
      (fun e he hlt => absurd (h.index_mem he).1 (by omega))
      (fun e he hle => absurd (h.index_mem he).2 (by omega)) hwindow
  have hle : result ≤ x.index := by
    by_contra hlt
    exact absurd hxterm (hbefore x hx (by omega)).ne
  obtain ⟨e, he, rfl, hterm⟩ := h.exists_entry hfirst (by omega)
  have heterm : e.term = conflictTerm :=
    le_antisymm (hxterm ▸ h.term_le hsorted he hx hle) (hbehind e he le_rfl)
  refine ⟨e, he, ?_, heterm, fun y hy hyterm => ?_⟩
  · rw [findConflictTermIndexIn, scanTerm_first h hrounds, decide_eq_true ⟨x, hx, hxterm⟩]
    dsimp only [Option.bind_eq_bind, Option.bind_some]
    rw [if_neg (not_not.mpr rfl), succIndex_of_lt (by omega), hlast, hsearch]
    exact if_pos ⟨hfirst, by omega, hterm.trans heterm⟩
  · by_contra hlt
    exact absurd hyterm (hbefore y hy (by omega)).ne

theorem findConflictTermIndexIn_missing (h : Indexed n.log)
    (hrounds : rounds > n.log.entries.length)
    (hmissing : ¬ ∃ e ∈ n.log.entries, e.term = conflictTerm) (hint : Nat) :
    findConflictTermIndexIn rounds n conflictTerm hint = some (if hint > 0 then hint else 1) := by
  rw [findConflictTermIndexIn, scanTerm_first h hrounds, decide_eq_false hmissing]
  rfl

theorem searchTerm_eq {log : RaftLog} {lo hi : Nat} (hbound : hi ≤ 2 ^ 64 - 1)
    (hrounds : hi - lo < rounds) :
    searchTerm log conflictTerm rounds lo hi = some (conflictSearch log conflictTerm lo hi) := by
  induction rounds generalizing lo hi with
  | zero => omega
  | succ rounds ih =>
    rw [searchTerm, conflictSearch]
    split_ifs with hopen
    · have hmid : lo + (hi - lo) / 2 < 2 ^ 64 - 1 := by omega
      dsimp only
      rw [succIndex_of_lt hmid]
      split_ifs
      · exact ih hbound (by omega)
      · exact ih (by omega) (by omega)
      · exact ih (by omega) (by omega)
    · rfl

/-- The loops compute what the node works with. -/
theorem findConflictTermIndexIn_eq (h : Indexed n.log) (hrounds : rounds > n.log.entries.length)
    (hint : Nat) : findConflictTermIndexIn rounds n conflictTerm hint =
      some (n.findConflictTermIndex conflictTerm hint) := by
  have hnext : n.log.next = n.log.firstIndex + n.log.entries.length := rfl
  have hany : ((List.range' n.log.firstIndex (n.log.lastIndex + 1 - n.log.firstIndex)).any fun i =>
      n.log.termAt i = conflictTerm) = true ↔ ∃ e ∈ n.log.entries, e.term = conflictTerm := by
    rw [List.any_eq_true]
    constructor
    · rintro ⟨i, hi, hterm⟩
      rw [List.mem_range'_1] at hi
      obtain ⟨e, he, -, hentry⟩ :=
        h.exists_entry hi.1 ((h.le_lastIndex_iff hi.1).mp (by omega))
      exact ⟨e, he, hentry.symm.trans (of_decide_eq_true hterm)⟩
    · rintro ⟨e, he, hterm⟩
      have hindex := h.index_mem he
      have hlast := (h.le_lastIndex_iff hindex.1).mpr hindex.2
      have hentry : n.log.entryAt e.index = some e := h.entryAt_eq_some.mpr ⟨he, rfl⟩
      refine ⟨e.index, List.mem_range'_1.mpr ⟨hindex.1, by omega⟩, decide_eq_true ?_⟩
      rw [termAt_of_entryAt hentry, hterm]
  rw [findConflictTermIndexIn, scanTerm_first h hrounds, findConflictTermIndex]
  dsimp only [Option.bind_eq_bind, Option.bind_some]
  by_cases hthere : ∃ e ∈ n.log.entries, e.term = conflictTerm
  · obtain ⟨e, he⟩ : ∃ e, e ∈ n.log.entries := hthere.imp fun e he => he.1
    have hlast : n.log.lastIndex + 1 = n.log.next :=
      h.numbered.lastIndex_succ (List.ne_nil_of_mem he)
    have hbelow := h.next_le
    rw [decide_eq_true hthere, hany.mpr hthere, if_neg (not_not.mpr rfl), if_neg (not_not.mpr rfl),
      succIndex_of_lt (by omega), hlast, searchTerm_eq (by omega) (by omega), Option.bind_some]
    split_ifs <;> rfl
  · rw [decide_eq_false hthere, Bool.eq_false_iff.mpr fun hfound => hthere (hany.mp hfound)]
    rfl

/-- Both loops end after at most as many rounds as there are entries, and one. What is returned is
the smallest index with the term, or what the hint says. -/
theorem findConflictTermIndex_exact (n : RaftNode) (h : Indexed n.log)
    (hsorted : TermsSorted n.log.entries) (conflictTerm hint : Nat) :
    ∃ result, (∀ rounds > n.log.entries.length,
        findConflictTermIndexIn rounds n conflictTerm hint = some result) ∧
      ((∃ e ∈ n.log.entries, e.term = conflictTerm) →
        ∃ e ∈ n.log.entries, e.index = result ∧ e.term = conflictTerm ∧
          ∀ x ∈ n.log.entries, x.term = conflictTerm → result ≤ x.index) ∧
      ((¬ ∃ e ∈ n.log.entries, e.term = conflictTerm) → result = if hint > 0 then hint else 1) := by
  by_cases hthere : ∃ e ∈ n.log.entries, e.term = conflictTerm
  · obtain ⟨e, he, -, hterm, hleast⟩ :=
      findConflictTermIndexIn_found h hsorted (Nat.lt_succ_self _) hthere hint
    refine ⟨e.index, fun rounds hrounds => ?_, fun _ => ⟨e, he, rfl, hterm, hleast⟩,
      fun hmissing => absurd hthere hmissing⟩
    obtain ⟨x, hx, hfound, hxterm, hxleast⟩ :=
      findConflictTermIndexIn_found h hsorted hrounds hthere hint
    rw [hfound, le_antisymm (hxleast e he hterm) (hleast x hx hxterm)]
  · exact ⟨_, fun rounds hrounds => findConflictTermIndexIn_missing h hrounds hthere hint,
      fun hthere' => absurd hthere' hthere, fun _ => rfl⟩

def termsNode : RaftNode := { RaftNode.ofConfig {} with
  log := ⟨[{ term := 1, index := 5 }, { term := 2, index := 6 }, { term := 2, index := 7 },
    { term := 3, index := 8 }], 5⟩ }

theorem indexed_termsNode : Indexed termsNode.log where
  first := by decide
  firstBelow := by decide
  numbered := ((contiguous_singleton rfl).append (contiguous_singleton rfl)).append
    ((contiguous_singleton rfl).append (contiguous_singleton rfl))
  below := by decide

theorem findConflictTermIndex_exact_termsNode :
    ∃ rounds, findConflictTermIndexIn rounds termsNode 2 9 = some 6 := by
  obtain ⟨result, hfound, hthere, -⟩ :=
    findConflictTermIndex_exact termsNode indexed_termsNode (by decide) 2 9
  obtain ⟨e, he, rfl, hterm, hleast⟩ := hthere ⟨{ term := 2, index := 6 }, by decide, rfl⟩
  have hle : e.index ≤ 6 := hleast { term := 2, index := 6 } (by decide) rfl
  have hge : ∀ x ∈ termsNode.log.entries, x.term = 2 → 6 ≤ x.index := by decide
  refine ⟨5, ?_⟩
  rw [hfound 5 (by decide), le_antisymm hle (hge e he hterm)]

end RaftNode
end MyEtcd
