import Mathlib.Data.List.Chain
import MyEtcd.Raft.Service
import MyEtcd.Raft.Votes

/-! The order of the terms in one node's log.
A buffered entry keeps the term of the leadership it was buffered in, and `FlushBatch` puts it
behind whatever the log has received since. -/
namespace MyEtcd
open Library

namespace RaftLog

def TermsSorted (entries : List RaftEntry) : Prop := entries.Pairwise fun a b => a.term ≤ b.term

instance termsSortedDecidable (entries : List RaftEntry) : Decidable (TermsSorted entries) :=
  inferInstanceAs (Decidable (entries.Pairwise _))

theorem termsSorted_append {a b : List RaftEntry} (ha : TermsSorted a) (hb : TermsSorted b) :
    TermsSorted (a ++ b) ↔ ∀ x ∈ a.getLast?, ∀ y ∈ b.head?, x.term ≤ y.term := by
  have htrans : IsTrans RaftEntry fun a b => a.term ≤ b.term := ⟨fun _ _ _ => Nat.le_trans⟩
  unfold TermsSorted at ha hb ⊢
  rw [← List.isChain_iff_pairwise] at ha hb ⊢
  rw [List.isChain_append]
  exact ⟨fun h => h.2.2, fun h => ⟨ha, hb, h⟩⟩

/-- A vector keeps the order if it is refused, or continues it. -/
theorem appendAll_termsSorted {log : RaftLog} {entries : List RaftEntry}
    (hlog : TermsSorted log.entries) (hentries : TermsSorted entries) :
    TermsSorted (log.appendAll entries).entries ↔
      ∀ last ∈ log.entries.getLast?, ∀ front ∈ entries.head?,
        front.index = last.index + 1 → last.term ≤ front.term := by
  cases entries with
  | nil => exact iff_of_true hlog (fun _ _ _ h => by cases h)
  | cons front rest =>
    unfold appendAll
    dsimp only
    cases hlast : log.entries.getLast? with
    | none =>
      refine iff_of_true ?_ (fun _ h => by cases h)
      rw [List.getLast?_eq_none_iff] at hlast
      split_ifs
      · exact hlog
      · rwa [hlast]
    | some last =>
      dsimp only
      split_ifs with hgap
      · refine iff_of_true hlog fun x hx y hy hnext => ?_
        obtain rfl := Option.some.inj hx
        obtain rfl := Option.some.inj hy
        exact absurd hnext hgap
      · rw [termsSorted_append hlog hentries, hlast]
        refine forall₄_congr fun x hx y hy => ?_
        obtain rfl := Option.some.inj hx
        obtain rfl := Option.some.inj hy
        exact (imp_iff_right (not_not.mp hgap)).symm

theorem truncateTo_termsSorted {log : RaftLog} (h : TermsSorted log.entries) (idx : Nat) :
    TermsSorted (log.truncateTo idx).entries := by
  unfold truncateTo
  dsimp only
  split_ifs
  · exact List.Pairwise.nil
  · exact h
  · exact h.take

end RaftLog

namespace RaftNode
open RaftLog

/-- Entries are sent with terms between that of the entry before them and the request's. -/
structure TermsBetween (req : AppendEntriesRequest) : Prop where
  sorted : TermsSorted req.entries
  above : ∀ e ∈ req.entries, req.prevLogTerm ≤ e.term
  below : ∀ e ∈ req.entries, e.term ≤ req.term

instance (req : AppendEntriesRequest) : Decidable (TermsBetween req) :=
  decidable_of_iff
    (TermsSorted req.entries ∧ (∀ e ∈ req.entries, req.prevLogTerm ≤ e.term) ∧
      ∀ e ∈ req.entries, e.term ≤ req.term)
    ⟨fun h => ⟨h.1, h.2.1, h.2.2⟩, fun h => ⟨h.sorted, h.above, h.below⟩⟩

/-- The requests a node takes are of this kind. -/
def Call.Sent : Call → Prop
  | .handleAppendEntries req => TermsBetween req
  | _ => True

instance (c : Call) : Decidable c.Sent :=
  match c with
  | .handleAppendEntries req => inferInstanceAs (Decidable (TermsBetween req))
  | .becomeFollower _ | .becomeCandidate | .becomeLeader | .propose _ | .proposeConfChange _
  | .proposeBatch _ | .flushBatch | .handleRequestVote _ | .appendResponse _ _ _
  | .advanceCommitIndex | .applyCommittedEntries => instDecidableTrue

/-- What is put behind the log has no smaller term than the entry it is put behind: the buffer at
a flush, and the entries of a request behind what the truncation leaves. -/
def Continues (n : RaftNode) : Call → Prop
  | .flushBatch => ∀ front ∈ n.batchBuffer.head?, n.log.lastTerm ≤ front.term
  | .handleAppendEntries req =>
    n.currentTerm ≤ req.term → prevMatches n.log req = true → ∀ front ∈ req.entries.head?,
      ∀ last ∈ (n.log.truncateTo (predIndex front.index)).entries.getLast?,
        front.index = last.index + 1 → last.term ≤ front.term
  | _ => True

instance (n : RaftNode) (c : Call) : Decidable (Continues n c) :=
  match c with
  | .flushBatch =>
    inferInstanceAs (Decidable (∀ front ∈ n.batchBuffer.head?, n.log.lastTerm ≤ front.term))
  | .handleAppendEntries req =>
    inferInstanceAs (Decidable
      (n.currentTerm ≤ req.term → prevMatches n.log req = true → ∀ front ∈ req.entries.head?,
        ∀ last ∈ (n.log.truncateTo (predIndex front.index)).entries.getLast?,
          front.index = last.index + 1 → last.term ≤ front.term))
  | .becomeFollower _ | .becomeCandidate | .becomeLeader | .propose _ | .proposeConfChange _
  | .proposeBatch _ | .handleRequestVote _ | .appendResponse _ _ _ | .advanceCommitIndex
  | .applyCommittedEntries => instDecidableTrue

/-- Log and buffer are sorted by term, and their terms have been reached. -/
structure TermsOrdered (n : RaftNode) : Prop where
  log : TermsSorted n.log.entries
  logTerm : ∀ e ∈ n.log.entries, e.term ≤ n.currentTerm
  buffer : TermsSorted n.batchBuffer
  bufferTerm : ∀ e ∈ n.batchBuffer, e.term ≤ n.currentTerm

/-- A request is accepted if it is not old and the entry before the new ones matches. -/
theorem handleAppendEntries_accepted (n : RaftNode) {req : AppendEntriesRequest}
    (hle : n.currentTerm ≤ req.term) (hmatch : prevMatches n.log req = true) :
    (n.handleAppendEntries req).1.success = true ∧
      (n.handleAppendEntries req).2.currentTerm = req.term := by
  have hterm : (n.becomeFollowerLocked req.term).currentTerm = req.term := by
    rcases hle.lt_or_eq with hlt | heq
    · rw [becomeFollowerLocked_of_lt hlt]
    · rw [becomeFollowerLocked_of_le heq.ge]
      exact heq
  rcases n.handleAppendEntries_cases req with
    ⟨hold, _⟩ | ⟨_, ⟨hmismatch, _⟩ | ⟨_, hsuccess, m, hm, ⟨_, heq⟩ | ⟨_, heq⟩⟩⟩
  · exact absurd hle hold.not_ge
  · exact absurd (hmatch.symm.trans hmismatch) Bool.false_ne_true.symm
  · rw [hsuccess, heq, hm]
    exact ⟨rfl, hterm⟩
  · rw [hsuccess, heq, ← (applyCommittedEntries_kept _).currentTerm, hm]
    exact ⟨rfl, hterm⟩

theorem handleAppendEntries_declined (n : RaftNode) {req : AppendEntriesRequest}
    (h : ¬ (n.currentTerm ≤ req.term ∧ prevMatches n.log req = true)) :
    (n.handleAppendEntries req).1.success = false := by
  rcases n.handleAppendEntries_cases req with ⟨_, heq⟩ | ⟨hle, ⟨_, heq⟩ | ⟨hmatch, _⟩⟩
  · rw [heq]
  · rw [heq]
    rfl
  · exact absurd ⟨hle, hmatch⟩ h

namespace TermsOrdered
variable {n n' : RaftNode}

theorem quiet (h : TermsOrdered n) (hlog : n'.log = n.log)
    (hbuffer : n'.batchBuffer = n.batchBuffer) (hterm : n.currentTerm ≤ n'.currentTerm) :
    TermsOrdered n' where
  log := hlog ▸ h.log
  logTerm e he := (h.logTerm e (hlog ▸ he)).trans hterm
  buffer := hbuffer ▸ h.buffer
  bufferTerm e he := (h.bufferTerm e (hbuffer ▸ he)).trans hterm

theorem extend {entries : List RaftEntry} {e : RaftEntry} (h : TermsSorted entries)
    (hle : ∀ x ∈ entries, x.term ≤ e.term) : TermsSorted (entries ++ [e]) :=
  List.pairwise_append.mpr ⟨h, List.pairwise_singleton _ _,
    fun x hx _ hy => List.mem_singleton.mp hy ▸ hle x hx⟩

theorem extend_le {entries : List RaftEntry} {e : RaftEntry} {term : Nat}
    (h : ∀ x ∈ entries, x.term ≤ term) (he : e.term ≤ term) :
    ∀ x ∈ entries ++ [e], x.term ≤ term := by
  intro x hx
  rcases List.mem_append.mp hx with hx | hx
  · exact h x hx
  · exact List.mem_singleton.mp hx ▸ he

/-- A proposal has the node's term, the largest one. -/
theorem recordProposal (h : TermsOrdered n) {e : RaftEntry} (he : e.term = n.currentTerm) :
    TermsOrdered (n.recordProposal e) where
  log := extend h.log fun x hx => (h.logTerm x hx).trans he.ge
  logTerm := extend_le h.logTerm he.le
  buffer := h.buffer
  bufferTerm := h.bufferTerm

theorem proposeBatch (h : TermsOrdered n) {e : RaftEntry} (he : e.term = n.currentTerm) :
    TermsOrdered { n with batchBuffer := n.batchBuffer ++ [e] } where
  log := h.log
  logTerm := h.logTerm
  buffer := extend h.buffer fun x hx => (h.bufferTerm x hx).trans he.ge
  bufferTerm := extend_le h.bufferTerm he.le

/-- Renumbering leaves the terms of the buffer. -/
theorem renumberedBatch_terms (n : RaftNode) :
    n.renumberedBatch.map RaftEntry.term = n.batchBuffer.map RaftEntry.term := by
  apply List.ext_getElem?
  intro i
  simp only [RaftNode.renumberedBatch, List.getElem?_map, List.getElem?_mapIdx, Option.map_map]
  rfl

theorem renumberedBatch (h : TermsOrdered n) :
    TermsSorted n.renumberedBatch ∧ ∀ e ∈ n.renumberedBatch, e.term ≤ n.currentTerm := by
  have hsorted (l : List RaftEntry) : TermsSorted l ↔ (l.map RaftEntry.term).Pairwise (· ≤ ·) :=
    List.pairwise_map.symm
  refine ⟨?_, fun e he => ?_⟩
  · rw [hsorted, renumberedBatch_terms, ← hsorted]
    exact h.buffer
  · have hmem : e.term ∈ n.batchBuffer.map RaftEntry.term := by
      rw [← renumberedBatch_terms]
      exact List.mem_map_of_mem he
    obtain ⟨b, hb, hterm⟩ := List.mem_map.mp hmem
    exact hterm ▸ h.bufferTerm b hb

/-- The first buffered entry continues the log, whatever its term is. -/
theorem flushBatch_iff (h : TermsOrdered n) :
    TermsOrdered n.flushBatch ↔ Continues n .flushBatch := by
  rcases n.flushBatch_cases with ⟨hempty, heq⟩ | ⟨hne, heq⟩
  · rw [heq]
    refine iff_of_true h fun front hfront => ?_
    rw [hempty] at hfront
    cases hfront
  obtain ⟨front, rest, hbuffer⟩ := List.exists_cons_of_ne_nil hne
  have hhead : n.renumberedBatch.head? = some { front with index := n.log.lastIndex + 1 } := by
    rw [RaftNode.renumberedBatch, List.head?_mapIdx, hbuffer]
    rfl
  have hlog : TermsSorted (n.log.appendAll n.renumberedBatch).entries ↔
      n.log.lastTerm ≤ front.term := by
    rw [appendAll_termsSorted h.log h.renumberedBatch.1, hhead]
    unfold RaftLog.lastTerm RaftLog.lastIndex
    cases n.log.entries.getLast? with
    | none => exact iff_of_true (fun _ hlast => by cases hlast) (Nat.zero_le _)
    | some last => simp
  have hcontinues : Continues n .flushBatch ↔ n.log.lastTerm ≤ front.term := by
    simp [Continues, hbuffer]
  rw [hcontinues, ← hlog, heq]
  refine ⟨fun h' => h'.log, fun hsorted => ⟨hsorted, fun e he => ?_, .nil, fun e he => by cases he⟩⟩
  rcases mem_appendAll he with he | he
  · exact h.logTerm e he
  · exact h.renumberedBatch.2 e he

theorem storeEntries_termsSorted {log : RaftLog} (hlog : TermsSorted log.entries)
    {entries : List RaftEntry} (hentries : TermsSorted entries) :
    TermsSorted (storeEntries log entries).entries ↔
      ∀ front ∈ entries.head?,
        ∀ last ∈ (log.truncateTo (predIndex front.index)).entries.getLast?,
          front.index = last.index + 1 → last.term ≤ front.term := by
  cases entries with
  | nil => exact iff_of_true hlog (fun _ hfront => by cases hfront)
  | cons front rest =>
    rw [storeEntries, appendAll_termsSorted (truncateTo_termsSorted hlog _) hentries]
    constructor
    · rintro hkept x hx last hlast
      obtain rfl := Option.some.inj hx
      exact hkept last hlast front rfl
    · rintro hkept last hlast x hx
      obtain rfl := Option.some.inj hx
      exact hkept front rfl last hlast

theorem handleAppendEntries_iff (h : TermsOrdered n) {req : AppendEntriesRequest}
    (hreq : TermsBetween req) :
    TermsOrdered (n.handleAppendEntries req).2 ↔ Continues n (.handleAppendEntries req) := by
  have hgrows := (n.handleAppendEntries_termMoves req).grows
  obtain ⟨hlog, hbuffer⟩ := n.handleAppendEntries_log req
  by_cases haccepted : n.currentTerm ≤ req.term ∧ prevMatches n.log req = true
  · have hanswer := n.handleAppendEntries_accepted haccepted.1 haccepted.2
    rw [hanswer.1, if_pos rfl] at hlog
    have hcontinues : Continues n (.handleAppendEntries req) ↔
        TermsSorted (storeEntries n.log req.entries).entries := by
      rw [storeEntries_termsSorted h.log hreq.sorted]
      exact ⟨fun hc => hc haccepted.1 haccepted.2, fun hc _ _ => hc⟩
    rw [hcontinues, ← hlog]
    refine ⟨fun h' => h'.log, fun hsorted => ⟨hsorted, fun e he => ?_, hbuffer ▸ h.buffer,
      fun e he => (h.bufferTerm e (hbuffer ▸ he)).trans hgrows⟩⟩
    rcases mem_storeEntries (hlog ▸ he) with he | he
    · exact (h.logTerm e he).trans hgrows
    · exact (hreq.below e he).trans hanswer.2.ge
  · have hanswer := n.handleAppendEntries_declined haccepted
    rw [hanswer, if_neg Bool.false_ne_true] at hlog
    exact iff_of_true (h.quiet hlog hbuffer hgrows)
      (fun hle hmatch => absurd ⟨hle, hmatch⟩ haccepted)

theorem ofConfig (config : ClusterConfig) : TermsOrdered (RaftNode.ofConfig config) :=
  ⟨.nil, fun _ he => absurd he List.not_mem_nil, .nil, fun _ he => absurd he List.not_mem_nil⟩

/-- A call keeps the order if and only if what it appends continues the log. -/
theorem after_iff (h : TermsOrdered n) {c : Call} (hsent : c.Sent) :
    TermsOrdered (n.after c) ↔ Continues n c := by
  have hquiet (hq : c.Quiet) (hterm : n.currentTerm ≤ (n.after c).currentTerm)
      (hs : n.serve c = some (n.after c)) : TermsOrdered (n.after c) :=
    h.quiet (serve_quiet hs hq).1 (serve_quiet hs hq).2 hterm
  cases c with
  | becomeFollower term =>
    exact iff_of_true (hquiet trivial (n.becomeFollowerLocked_termMoves term).grows rfl) trivial
  | becomeCandidate => exact iff_of_true (hquiet trivial (Nat.le_succ _) rfl) trivial
  | becomeLeader => exact iff_of_true (hquiet trivial le_rfl rfl) trivial
  | propose entry =>
    refine iff_of_true ?_ trivial
    rcases n.propose_cases entry with ⟨_, heq⟩ | ⟨_, e, he, _, heq⟩
    · rwa [after, heq]
    · rw [after, heq]
      exact h.recordProposal (by rw [he])
  | proposeConfChange cc =>
    refine iff_of_true ?_ trivial
    rcases n.proposeConfChange_cases cc with ⟨_, heq⟩ | ⟨_, e, he, _, heq⟩
    · rwa [after, heq]
    · rw [after, heq]
      exact h.recordProposal (by rw [he])
  | proposeBatch entry =>
    refine iff_of_true ?_ trivial
    rcases n.proposeBatch_cases entry with ⟨_, heq⟩ | ⟨_, e, he, _, heq⟩
    · rwa [after, heq]
    · rw [after, heq]
      exact h.proposeBatch (by rw [he])
  | flushBatch => exact h.flushBatch_iff
  | handleRequestVote req =>
    refine iff_of_true (hquiet trivial ?_ rfl) trivial
    rcases n.handleRequestVote_ballot req with ⟨_, hmoves⟩ | ⟨_, m, hmoves, _, _, heq⟩
    · exact hmoves.grows
    · exact hmoves.grows.trans (congrArg RaftNode.currentTerm heq).ge
  | handleAppendEntries req => exact h.handleAppendEntries_iff hsent
  | appendResponse peer entries resp =>
    refine iff_of_true (hquiet trivial ?_ rfl) trivial
    rcases n.appendResponse_cases peer entries resp with ⟨hlt, heq⟩ | ⟨_, _, _, heq⟩
    · exact (n.becomeFollowerLocked_termMoves resp.term).grows.trans
        (congrArg RaftNode.currentTerm heq).ge
    · exact (congrArg RaftNode.currentTerm heq).ge
  | advanceCommitIndex =>
    obtain ⟨_, heq⟩ := n.advanceCommitIndex_kept
    exact iff_of_true (hquiet trivial (congrArg RaftNode.currentTerm heq).ge rfl) trivial
  | applyCommittedEntries =>
    exact iff_of_true (hquiet trivial n.applyCommittedEntries_kept.currentTerm.le rfl) trivial

end TermsOrdered

/-- In every run in which what is put behind the log continues it, the terms in the log are
sorted, and the node has reached them. -/
theorem terms_sorted {config : ClusterConfig} {n : RaftNode}
    (hrun : Run (fun n c => some (n.after c)) (fun n c => c.Sent ∧ Continues n c)
      (ofConfig config) n) :
    TermsSorted n.log.entries ∧ ∀ e ∈ n.log.entries, e.term ≤ n.currentTerm := by
  have hordered : TermsOrdered n := by
    refine hrun.invariant (fun h hok hstep => ?_) (.ofConfig config)
    obtain rfl := Option.some.inj hstep
    exact (h.after_iff hok.1).mpr hok.2
  exact ⟨hordered.log, hordered.logTerm⟩

/-- The node itself alone: two entries of one term are buffered and flushed in it. -/
theorem terms_sorted_flushed : ∃ n : RaftNode, n.log.entries.length = 2 ∧
    TermsSorted n.log.entries ∧ ∀ e ∈ n.log.entries, e.term ≤ n.currentTerm := by
  obtain ⟨n, hrun, hlength⟩ := reachable_of_execute (fun n c => some (n.after c))
    (fun n c => c.Sent ∧ Continues n c) (ofConfig {})
    [.becomeCandidate, .becomeLeader, .proposeBatch {}, .proposeBatch {}, .flushBatch]
    (P := fun n => n.log.entries.length = 2) (by decide)
  exact ⟨n, hlength, terms_sorted hrun⟩

/-- A leader of term 1 buffers an entry, follows the leader of term 2, and is elected again. -/
theorem terms_unsorted : ∃ n, Run (fun n c => some (n.after c)) (fun _ c => c.Sent) (ofConfig {}) n ∧
    ¬ TermsSorted n.log.entries :=
  reachable_of_execute (fun n c => some (n.after c)) (fun _ c => c.Sent) (ofConfig {})
    [.becomeCandidate, .becomeLeader, .proposeBatch {},
      .handleAppendEntries ⟨2, 2, 0, 0, [{ term := 2, index := 1 }], 0⟩,
      .becomeCandidate, .becomeLeader, .flushBatch]
    (by decide)

/-- Entries numbered from `prevLogIndex` on continue the log that they are accepted into. -/
theorem continues_of_contiguous {n : RaftNode} {base : Nat} (h : n.log.Based base)
    {req : AppendEntriesRequest} (hreq : TermsBetween req)
    (hc : Contiguous (req.prevLogIndex + 1) req.entries) :
    Continues n (.handleAppendEntries req) := by
  intro _ hmatch front hfront last hlast hnext
  have hfrontMem : front ∈ req.entries := List.mem_of_mem_head? hfront
  have hindex : front.index = req.prevLogIndex + 1 :=
    hc 0 front (List.head?_eq_getElem?.symm.trans hfront)
  have hmem : last ∈ n.log.entries := mem_truncateTo (List.mem_of_getLast? hlast)
  obtain ⟨k, hk⟩ := List.mem_iff_getElem?.mp hmem
  have hslot := h.aligned k last hk
  have hpositive := h.positive
  have hprev : req.prevLogIndex = n.log.firstIndex + k := by omega
  have hterm : n.log.termAt req.prevLogIndex = last.term := by
    rw [termAt, if_neg (by omega), hprev, Nat.add_sub_cancel_left, hk]
  have hzero : req.prevLogIndex ≠ 0 := by omega
  have hmatches : n.log.termAt req.prevLogIndex = req.prevLogTerm :=
    (of_decide_eq_true hmatch).resolve_left hzero
  rw [← hterm, hmatches]
  exact hreq.above front hfrontMem

/-- The entries of a request are numbered from its `prevLogIndex` on. -/
def Call.FromPrev : Call → Prop
  | .handleAppendEntries req => Contiguous (req.prevLogIndex + 1) req.entries
  | _ => True

/-- Where requests number their entries from `prevLogIndex` on, only a flush can break the order. -/
theorem terms_sorted_of_flushes {config : ClusterConfig} {n : RaftNode}
    (hrun : Run serve (fun n c => c.Sent ∧ c.FromPrev ∧ (c = .flushBatch → Continues n c))
      (ofConfig config) n) :
    TermsSorted n.log.entries ∧ ∀ e ∈ n.log.entries, e.term ≤ n.currentTerm := by
  have hordered : n.log.Based 0 ∧ TermsOrdered n := by
    refine hrun.invariant (P := fun n => n.log.Based 0 ∧ TermsOrdered n) ?_
      ⟨.restore {} 0, .ofConfig config⟩
    intro n c n' h hok hs
    have hready : n.log.Ready := h.1.ready (Nat.zero_le _)
    have hnumbers : Numbers n c := by
      unfold Numbers
      split
      · exact fun _ => hready
      · exact fun _ => hready
      · exact fun _ => hready
      · trivial
    refine ⟨serve_based h.1 hnumbers hs, ?_⟩
    rw [serve_eq_after hs]
    refine (h.2.after_iff hok.1).mpr ?_
    cases c with
    | flushBatch => exact hok.2.2 rfl
    | handleAppendEntries req => exact continues_of_contiguous h.1 hok.1 hok.2.1
    | _ => trivial
  exact ⟨hordered.2.log, hordered.2.logTerm⟩

end RaftNode
end MyEtcd
