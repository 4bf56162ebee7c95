import MyEtcd.Raft.Service

/-! A leader and one follower: what `match_index_` says about the follower's log.
An empty request moves it to the last index the follower reports, whatever stands there. -/
namespace MyEtcd
open Library

namespace RaftLog
variable {a b : RaftLog}

/-- Where both logs hold an entry of one term, they agree on all that both hold up to there. -/
def Matching (a b : RaftLog) : Prop :=
  ∀ i x y, a.entryAt i = some x → b.entryAt i = some y → x.term = y.term →
    ∀ j ≤ i, ∀ x' y', a.entryAt j = some x' → b.entryAt j = some y' → x' = y'

/-- What `b` holds of `a` up to `k` is what `a` holds, and nothing is missing after its first slot. -/
def Holds (a b : RaftLog) (k : Nat) : Prop :=
  ∀ i x, i ≤ k → a.entryAt i = some x → b.entryAt i = some x ∨ i < b.firstIndex

theorem entryAt_append {log : RaftLog} {entries : List RaftEntry} {i : Nat} {e : RaftEntry}
    (h : RaftLog.entryAt { log with entries := log.entries ++ entries } i = some e) :
    log.entryAt i = some e ∨ log.firstIndex + log.entries.length ≤ i ∧ e ∈ entries := by
  obtain ⟨hi, hslot⟩ := entryAt_eq_some.mp h
  rcases Nat.lt_or_ge (i - log.firstIndex) log.entries.length with hlt | hge
  · left
    rw [List.getElem?_append_left hlt] at hslot
    exact entryAt_eq_some.mpr ⟨hi, hslot⟩
  · right
    rw [List.getElem?_append_right hge] at hslot
    exact ⟨by dsimp only at hi; omega, List.mem_of_getElem? hslot⟩

theorem entryAt_append_of {log : RaftLog} {i : Nat} {e : RaftEntry} (h : log.entryAt i = some e)
    (entries : List RaftEntry) :
    RaftLog.entryAt { log with entries := log.entries ++ entries } i = some e := by
  obtain ⟨hi, hslot⟩ := entryAt_eq_some.mp h
  have hlt := (List.getElem?_eq_some_iff.mp hslot).1
  exact entryAt_eq_some.mpr ⟨hi, by rwa [List.getElem?_append_left hlt]⟩

/-- The consistency check passes only where the logs agree on everything up to it. -/
theorem Matching.holds (h : Matching a b) (hterms : ∀ e ∈ a.entries, 0 < e.term)
    (hpos : 0 < a.firstIndex) {req : AppendEntriesRequest}
    (hterm : req.prevLogTerm = a.termAt req.prevLogIndex) {x : RaftEntry}
    (hprev : a.entryAt req.prevLogIndex = some x) (hok : RaftNode.prevMatches b req = true) :
    a.Holds b req.prevLogIndex ∧
      ∀ i y, b.entryAt i = some y → i ≤ req.prevLogIndex → ∀ e, a.entryAt i = some e → e = y := by
  have hpositive : 0 < req.prevLogIndex := hpos.trans_le (entryAt_eq_some.mp hprev).1
  have hsame : b.termAt req.prevLogIndex = x.term := by
    rw [← termAt_of_entryAt hprev, ← hterm]
    exact (of_decide_eq_true hok).resolve_left hpositive.ne'
  have hne : b.termAt req.prevLogIndex ≠ 0 := by
    rw [hsame]
    exact (hterms x (mem_of_entryAt hprev)).ne'
  obtain ⟨y, hy, hyterm⟩ := entryAt_of_termAt hne
  have hagree := h req.prevLogIndex x y hprev hy (hyterm.trans hsame).symm
  refine ⟨fun i e hi he => ?_, fun i z hz hi e he => hagree i hi e z he hz⟩
  rcases Nat.lt_or_ge i b.firstIndex with hlt | hge
  · exact .inr hlt
  · obtain ⟨z, hz⟩ := entryAt_of_le hy hi hge
    exact .inl (hagree i hi e z he hz ▸ hz)

/-- What is stored without a gap stands in the log afterwards, behind what was there before. -/
theorem entryAt_storeEntries (h : b.Aligned) {k : Nat} {entries : List RaftEntry}
    (hc : Contiguous (k + 1) entries) (hne : entries ≠ [])
    (hreach : k + 1 ≤ b.firstIndex + b.entries.length) (i : Nat) :
    (k < i → (RaftNode.storeEntries b entries).entryAt i = entries[i - (k + 1)]?) ∧
    (i ≤ k → i < (RaftNode.storeEntries b entries).firstIndex ∨
      (RaftNode.storeEntries b entries).entryAt i = b.entryAt i ∧
      (RaftNode.storeEntries b entries).firstIndex = b.firstIndex) := by
  rcases RaftNode.storeEntries_cases h hc hne with ⟨hlt, heq⟩ | ⟨hle, hin, heq⟩ | ⟨hle, hout, _⟩
  · rw [heq]
    refine ⟨fun hi => ?_, fun hi => .inl (Nat.lt_succ_of_le hi)⟩
    rw [entryAt, if_neg (by dsimp only; omega)]
  · rw [heq]
    have hlen : (b.entries.take (k + 1 - b.firstIndex)).length = k + 1 - b.firstIndex := by
      rw [List.length_take]
      omega
    refine ⟨fun hi => ?_, fun hi => .inr ⟨?_, rfl⟩⟩
    · rw [entryAt, if_neg (by dsimp only; omega), List.getElem?_append_right (by dsimp only; omega),
        hlen]
      congr 1
      dsimp only
      omega
    · unfold entryAt
      dsimp only
      split_ifs with hbefore
      · rfl
      · rw [List.getElem?_append_left (by omega), List.getElem?_take_of_lt (by omega)]
  · omega

/-- The log `a` of the leader of term `T` and the log `b` of a follower. -/
structure Paired (T : Nat) (a b : RaftLog) : Prop where
  aligned : a.Aligned
  positive : 0 < a.firstIndex
  terms : ∀ e ∈ a.entries, 0 < e.term
  followerAligned : b.Aligned
  /-- Entries of the leader's term come from the leader. -/
  owned : ∀ i y, b.entryAt i = some y → y.term = T → a.entryAt i = some y
  matching : Matching a b

namespace Paired
variable {T : Nat}

theorem append (h : Paired T a b) (hpos : 0 < T) {entries : List RaftEntry}
    (hc : Contiguous (a.firstIndex + a.entries.length) entries) (hterm : ∀ e ∈ entries, e.term = T) :
    Paired T { a with entries := a.entries ++ entries } b where
  aligned := Contiguous.append h.aligned hc
  positive := h.positive
  terms e he := by
    rcases List.mem_append.mp he with he | he
    · exact h.terms e he
    · exact hterm e he ▸ hpos
  followerAligned := h.followerAligned
  owned i y hy hyterm := entryAt_append_of (h.owned i y hy hyterm) entries
  matching := by
    -- the follower has no entry of the leader's term where the leader had none before
    have hold {j : Nat} {x y : RaftEntry}
        (hx : RaftLog.entryAt { a with entries := a.entries ++ entries } j = some x)
        (hy : b.entryAt j = some y) (hxy : x.term = y.term) : a.entryAt j = some x := by
      rcases entryAt_append hx with hx | ⟨_, hmem⟩
      · exact hx
      · have hown := h.owned j y hy (hxy.symm.trans (hterm x hmem))
        rwa [entryAt_append_of hown entries, ← hown] at hx
    intro i x y hx hy hxy j hj x' y' hx' hy'
    obtain hi := hold hx hy hxy
    rcases entryAt_append hx' with hj' | ⟨hbeyond, _⟩
    · exact h.matching i x y hi hy hxy j hj x' y' hj' hy'
    · obtain ⟨hge, hslot⟩ := entryAt_eq_some.mp hi
      have := (List.getElem?_eq_some_iff.mp hslot).1
      omega

/-- A piece of the leader's log that starts at `k + 1` is stored by the follower. -/
theorem store (h : Paired T a b) {k : Nat} {entries : List RaftEntry}
    (hc : Contiguous (k + 1) entries) (hne : entries ≠ [])
    (hpiece : ∀ i, k < i → i ≤ k + entries.length → a.entryAt i = entries[i - (k + 1)]?)
    (hreach : k + 1 ≤ b.firstIndex + b.entries.length)
    (hbelow : ∀ i x, i ≤ k → a.entryAt i = some x →
      (b.entryAt i = some x ∨ i < b.firstIndex) ∧ ∀ y, b.entryAt i = some y → x = y) :
    Paired T a (RaftNode.storeEntries b entries) ∧
      a.Holds (RaftNode.storeEntries b entries) (k + entries.length) := by
  have hstored := entryAt_storeEntries h.followerAligned hc hne hreach
  have hpast {i : Nat} {y : RaftEntry} (hi : k < i)
      (hy : (RaftNode.storeEntries b entries).entryAt i = some y) : a.entryAt i = some y := by
    rw [(hstored i).1 hi] at hy
    have := (List.getElem?_eq_some_iff.mp hy).1
    rw [hpiece i hi (by omega), hy]
  have hbefore {i : Nat} {y : RaftEntry} (hi : i ≤ k)
      (hy : (RaftNode.storeEntries b entries).entryAt i = some y) : b.entryAt i = some y := by
    rcases (hstored i).2 hi with hlt | ⟨heq, _⟩
    · exact absurd (entryAt_eq_some.mp hy).1 (not_le.mpr hlt)
    · rwa [heq] at hy
  have hagree {i : Nat} {x y : RaftEntry} (hx : a.entryAt i = some x)
      (hy : (RaftNode.storeEntries b entries).entryAt i = some y) : x = y := by
    rcases Nat.lt_or_ge k i with hi | hi
    · exact Option.some.inj (hx.symm.trans (hpast hi hy))
    · exact (hbelow i x hi hx).2 y (hbefore hi hy)
  refine ⟨⟨h.aligned, h.positive, h.terms, RaftNode.storeEntries_aligned h.followerAligned hc,
    fun i y hy hterm => ?_, ?_⟩, fun i x hi hx => ?_⟩
  · rcases Nat.lt_or_ge k i with hi | hi
    · exact hpast hi hy
    · exact h.owned i y (hbefore hi hy) hterm
  · intro _ _ _ _ _ _ j _ x' y' hx' hy'
    exact hagree hx' hy'
  · rcases Nat.lt_or_ge k i with hpast | hle
    · left
      rw [(hstored i).1 hpast, ← hpiece i hpast hi, hx]
    · rcases (hstored i).2 hle with hlt | ⟨heq, hfirst⟩
      · exact .inr hlt
      · rw [heq, hfirst]
        exact (hbelow i x hle hx).1

end Paired
end RaftLog

namespace RaftNode

theorem appendRequest_piece {n : RaftNode} (h : n.log.Aligned) (hpos : 0 < n.log.firstIndex)
    (p commit : Nat) :
    ∃ k, k + 1 = max (n.nextIndex.getD p 0) n.log.firstIndex ∧
      RaftLog.Contiguous (k + 1) (n.appendRequest p commit).entries ∧
      (∀ i, k < i → i ≤ k + (n.appendRequest p commit).entries.length →
        n.log.entryAt i = (n.appendRequest p commit).entries[i - (k + 1)]?) ∧
      ((n.appendRequest p commit).entries = [] →
        n.log.firstIndex + n.log.entries.length ≤ k + 1) := by
  have hk : max (n.nextIndex.getD p 0) n.log.firstIndex - 1 + 1 =
      max (n.nextIndex.getD p 0) n.log.firstIndex := by omega
  have hentries : (n.appendRequest p commit).entries = (n.log.entries.drop
      (max (n.nextIndex.getD p 0) n.log.firstIndex - n.log.firstIndex)).take maxEntriesPerMsg :=
    congrArg (List.take maxEntriesPerMsg) (h.entriesFrom hpos _)
  refine ⟨_, hk, ?_, fun i hi hle => ?_, fun hnil => ?_⟩
  · rw [hk, hentries]
    have := RaftLog.Contiguous.take (RaftLog.Contiguous.drop h
      (max (n.nextIndex.getD p 0) n.log.firstIndex - n.log.firstIndex)) maxEntriesPerMsg
    rwa [Nat.add_sub_cancel' (le_max_right _ _)] at this
  · rw [hk]
    have hlt : i - max (n.nextIndex.getD p 0) n.log.firstIndex <
        (n.appendRequest p commit).entries.length := by omega
    rw [hentries, List.length_take] at hlt
    rw [hentries, List.getElem?_take_of_lt (by omega), List.getElem?_drop, RaftLog.entryAt,
      if_neg (by omega)]
    congr 1
    omega
  · rw [hentries] at hnil
    have := congrArg List.length hnil
    simp only [List.length_take, List.length_drop, List.length_nil, maxEntriesPerMsg] at this
    omega

end RaftNode

/-- A leader and the follower whose answers it counts. -/
structure Leadership where
  leader : RaftNode
  follower : RaftNode

namespace Leadership

inductive Action where
  | propose (entry : RaftEntry)
  | proposeConfChange (cc : ConfChange)
  | proposeBatch (entry : RaftEntry)
  | advanceCommitIndex
  /-- One call of `BroadcastHeartbeat`: the request arrives or not, and so does the answer. -/
  | round (sent heard : Bool)
  /-- The answer of another peer. -/
  | answer (peer : Nat) (entries : List RaftEntry) (resp : AppendEntriesResponse)

def request (p : Nat) (s : Leadership) : AppendEntriesRequest :=
  s.leader.flushBatch.appendRequest p s.leader.commitIndex

/-- One step of the leader and its follower `p`. -/
def step (p : Nat) (s : Leadership) : Action → Option Leadership
  | .propose entry => some { s with leader := (s.leader.propose entry).2 }
  | .proposeConfChange cc => some { s with leader := (s.leader.proposeConfChange cc).2 }
  | .proposeBatch entry => some { s with leader := (s.leader.proposeBatch entry).2 }
  | .advanceCommitIndex => some { s with leader := s.leader.advanceCommitIndex }
  | .round sent heard =>
    if s.leader.state ≠ .leader then none
    else
      let (resp, follower) := s.follower.handleAppendEntries (s.request p)
      some {
        leader := s.leader.flushBatch.appendResponse p (s.request p).entries
          (if sent && heard then resp else .unreachable)
        follower := if sent then follower else s.follower }
  | .answer peer entries resp =>
    if peer = p then none
    else some { s with leader := s.leader.appendResponse peer entries resp }

/-- The node takes the request up: it is not of an old term, and the consistency check passes. -/
def Accepts (n : RaftNode) (req : AppendEntriesRequest) : Prop :=
  n.currentTerm ≤ req.term ∧ RaftNode.prevMatches n.log req = true

instance (n : RaftNode) (req : AppendEntriesRequest) : Decidable (Accepts n req) :=
  inferInstanceAs (Decidable (_ ∧ _))

/-- Where the request is taken up, nothing stands in the log that it has not checked: an empty one
reaches to the end of the log, and any other one begins in it or right behind it. -/
def Covers (n : RaftNode) (req : AppendEntriesRequest) : Prop :=
  match req.entries with
  | [] => n.log.lastIndex ≤ req.prevLogIndex
  | front :: _ => front.index ≤ n.log.firstIndex + n.log.entries.length

instance (n : RaftNode) (req : AppendEntriesRequest) : Decidable (Covers n req) := by
  unfold Covers
  split <;> infer_instance

/-- The request reaches `match_index_` again, so that storing its entries takes nothing away that
the leader counts on. -/
def Reaches (p : Nat) (s : Leadership) : Prop :=
  ∀ back ∈ (s.request p).entries.getLast?, s.leader.matchIndex.getD p 0 ≤ back.index

instance (p : Nat) (s : Leadership) : Decidable (Reaches p s) := by
  unfold Reaches
  infer_instance

/-- Indices are given out on a ready log, batches are flushed in the term they were accepted in, what
the follower takes up covers its log, and what it takes up without being heard reaches far enough. -/
def Verified (p : Nat) (s : Leadership) : Action → Prop
  | .propose _ => s.leader.state = .leader → s.leader.log.Ready
  | .proposeConfChange _ => s.leader.state = .leader → s.leader.log.Ready
  | .round sent heard =>
    (s.leader.batchBuffer ≠ [] → s.leader.log.Ready) ∧
    (∀ e ∈ s.leader.batchBuffer, e.term = s.leader.currentTerm) ∧
    (sent = true → Accepts s.follower (s.request p) →
      Covers s.follower (s.request p) ∧ (heard = false → Reaches p s))
  | _ => True

instance (p : Nat) (s : Leadership) (a : Action) : Decidable (Verified p s a) := by
  cases a <;> unfold Verified <;> infer_instance

/-- What holds between the leader of term `T` and its follower `p`. -/
structure Sound (p T : Nat) (s : Leadership) : Prop where
  leading : s.leader.state = .leader → s.leader.currentTerm = T
  other : p ≠ s.leader.nodeId
  paired : RaftLog.Paired T s.leader.log s.follower.log
  next : s.leader.state = .leader →
    1 ≤ s.leader.nextIndex.getD p 0 ∧ s.leader.nextIndex.getD p 0 ≤ s.leader.log.lastIndex + 1
  reach : s.leader.matchIndex.getD p 0 ≤ s.leader.log.lastIndex
  holds : s.leader.log.Holds s.follower.log (s.leader.matchIndex.getD p 0)

theorem handleAppendEntries_answer (n : RaftNode) (req : AppendEntriesRequest) :
    ¬ Accepts n req ∧ (n.handleAppendEntries req).1.success = false ∧
      (n.handleAppendEntries req).2.log = n.log ∨
    Accepts n req ∧
      (n.handleAppendEntries req).1 =
        { term := req.term
          success := true
          lastLogIndex := (RaftNode.storeEntries n.log req.entries).lastIndex } ∧
      (n.handleAppendEntries req).2.log = RaftNode.storeEntries n.log req.entries := by
  have hlog := (n.handleAppendEntries_log req).1
  rcases n.handleAppendEntries_cases req with
    ⟨hold, heq⟩ | ⟨hle, ⟨hprev, heq⟩ | ⟨hprev, hsuccess, _⟩⟩
  · have hfail := congrArg (fun r => r.1.success) heq
    simp only at hfail
    rw [hfail] at hlog
    exact .inl ⟨fun h => absurd h.1 (not_le.mpr hold), hfail, hlog⟩
  · have hfail : (n.handleAppendEntries req).1.success = false := by
      rw [heq]
      rfl
    rw [hfail] at hlog
    exact .inl ⟨fun h => absurd h.2 (by simp [hprev]), hfail, hlog⟩
  · rw [hsuccess] at hlog
    exact .inr ⟨⟨hle, hprev⟩, hsuccess, hlog⟩

namespace Sound
variable {p T : Nat} {s : Leadership}

private theorem grow (h : Sound p T s) (hT : 0 < T) (hready : s.leader.log.Ready)
    {entries : List RaftEntry} (hc : RaftLog.Contiguous (s.leader.log.lastIndex + 1) entries)
    (hterm : ∀ e ∈ entries, e.term = T) {n : RaftNode}
    (hlog : n.log = { s.leader.log with entries := s.leader.log.entries ++ entries })
    (hid : n.nodeId = s.leader.nodeId) (hcurrent : n.currentTerm = s.leader.currentTerm)
    (hstate : n.state = s.leader.state) (hnext : n.nextIndex = s.leader.nextIndex)
    (hmatch : n.matchIndex.getD p 0 = s.leader.matchIndex.getD p 0) :
    Sound p T { s with leader := n } := by
  have hlast := hready.lastIndex_succ h.paired.aligned
  rw [hlast] at hc
  have hpaired := h.paired.append hT hc hterm
  have hgrown : s.leader.log.lastIndex ≤ n.log.lastIndex := by
    have hready' : n.log.Ready := by
      rw [hlog]
      exact hready.imp (fun hne hnil => hne (List.append_eq_nil_iff.mp hnil).1) id
    have hlast' := hready'.lastIndex_succ (hlog ▸ hpaired.aligned)
    have hfirst : n.log.firstIndex = s.leader.log.firstIndex := by rw [hlog]
    have hlength : n.log.entries.length = s.leader.log.entries.length + entries.length := by
      rw [hlog, List.length_append]
    omega
  refine ⟨fun hl => hcurrent.trans (h.leading (hstate ▸ hl)), by rw [hid]; exact h.other,
    by rw [hlog]; exact hpaired, fun hl => ?_, by rw [hmatch]; exact h.reach.trans hgrown,
    fun i x hi hx => ?_⟩
  · obtain ⟨hone, hle⟩ := h.next (hstate ▸ hl)
    rw [hnext]
    exact ⟨hone, hle.trans (Nat.succ_le_succ hgrown)⟩
  · dsimp only at hi hx
    rw [hmatch] at hi
    rw [hlog] at hx
    rcases RaftLog.entryAt_append hx with hx | ⟨hbeyond, _⟩
    · exact h.holds i x hi hx
    · have := h.reach
      omega

private theorem recordProposal (h : Sound p T s) (hT : 0 < T) (hready : s.leader.log.Ready)
    {e : RaftEntry} (hterm : e.term = T) (he : e.index = s.leader.log.lastIndex + 1) :
    Sound p T { s with leader := s.leader.recordProposal e } := by
  have hnext : RaftLog.Contiguous (s.leader.log.lastIndex + 1) [e] :=
    RaftLog.contiguous_singleton he
  exact h.grow hT hready hnext (by simpa using hterm) rfl rfl rfl rfl rfl
    (OrderedMap.getD_insert_ne _ _ _ h.other)

private theorem flushBatch (h : Sound p T s) (hT : 0 < T) (hleads : s.leader.state = .leader)
    (hready : s.leader.batchBuffer ≠ [] → s.leader.log.Ready)
    (hbatch : ∀ e ∈ s.leader.batchBuffer, e.term = s.leader.currentTerm) :
    Sound p T { s with leader := s.leader.flushBatch } := by
  rcases s.leader.flushBatch_cases with ⟨_, heq⟩ | ⟨hne, heq⟩
  · rwa [heq]
  have hcontiguous := s.leader.renumberedBatch_contiguous
  have hlast := (hready hne).lastIndex_succ h.paired.aligned
  have happend : s.leader.flushBatch.log = { s.leader.log with
      entries := s.leader.log.entries ++ s.leader.renumberedBatch } := by
    rw [heq]
    exact h.paired.aligned.appendAll_next (hlast ▸ hcontiguous)
  refine h.grow hT (hready hne) hcontiguous (fun e he => ?_) happend ?_ ?_ ?_ ?_ ?_
  · obtain ⟨k, hk, rfl⟩ := List.mem_mapIdx.mp he
    exact (hbatch _ (List.getElem_mem hk)).trans (h.leading hleads)
  · rw [heq]
  · rw [heq]
  · rw [heq]
  · rw [heq]
  · rw [heq]
    exact OrderedMap.getD_insert_ne _ _ _ h.other

private theorem taken (h : Sound p T s) (hleads : s.leader.state = .leader) {commit : Nat}
    {req : AppendEntriesRequest} (hreq : req = s.leader.appendRequest p commit)
    (hok : Accepts s.follower req) (hcovers : Covers s.follower req) :
    RaftLog.Paired T s.leader.log (RaftNode.storeEntries s.follower.log req.entries) ∧
      (∀ r, (∀ back ∈ req.entries.getLast?, r ≤ back.index) →
        s.leader.log.Holds (RaftNode.storeEntries s.follower.log req.entries) r) ∧
      (∀ back ∈ req.entries.getLast?, back.index ≤ s.leader.log.lastIndex) ∧
      (req.entries = [] → s.follower.log.lastIndex ≤ s.leader.log.lastIndex) := by
  obtain ⟨k, hk, hc, hpiece, hnone⟩ :=
    RaftNode.appendRequest_piece h.paired.aligned h.paired.positive p commit
  obtain ⟨hone, hnext⟩ := h.next hleads
  have hprev : req.prevLogIndex = s.leader.nextIndex.getD p 0 - 1 :=
    hreq ▸ predIndex_of_pos hone
  have hprevTerm : req.prevLogTerm = s.leader.log.termAt req.prevLogIndex := by
    rw [hreq]
    rfl
  rw [← hreq] at hc hpiece hnone
  -- where the leader holds an entry before the next index, the check has compared everything to it
  have hbelow {i j : Nat} {x y : RaftEntry} (hi : i ≤ k) (hx : s.leader.log.entryAt i = some x)
      (hj : k ≤ j) (hy : s.leader.log.entryAt j = some y) :
      (s.follower.log.entryAt i = some x ∨ i < s.follower.log.firstIndex) ∧
        ∀ z, s.follower.log.entryAt i = some z → x = z := by
    have hfirst := (RaftLog.entryAt_eq_some.mp hx).1
    have hkprev : req.prevLogIndex = k := by omega
    obtain ⟨w, hw⟩ := RaftLog.entryAt_of_le hy hj (hfirst.trans hi)
    obtain ⟨hholds, hagree⟩ := h.paired.matching.holds h.paired.terms h.paired.positive hprevTerm
      (hkprev ▸ hw) hok.2
    exact ⟨hholds i x (hkprev ▸ hi) hx, fun z hz => hagree i z hz (hkprev ▸ hi) x hx⟩
  cases hentries : req.entries with
  | nil =>
    have hlast : s.follower.log.lastIndex ≤ req.prevLogIndex := by
      simpa only [Covers, hentries] using hcovers
    refine ⟨h.paired, fun r _ i x _ hx => ?_, by simp, fun _ => by omega⟩
    obtain ⟨hle, y, hy⟩ := h.paired.aligned.entryAt_lastIndex hx
    have hslots := h.paired.aligned.lastIndex_succ
      (List.ne_nil_of_mem (RaftLog.mem_of_entryAt hx))
    have := hnone hentries
    have := (RaftLog.entryAt_eq_some.mp hx).1
    exact (hbelow (by omega) hx (by omega) hy).1
  | cons front rest =>
    rw [hentries] at hc hpiece
    have hfront : front.index = k + 1 := hc 0 front rfl
    have hreach : k + 1 ≤ s.follower.log.firstIndex + s.follower.log.entries.length := by
      rw [← hfront]
      simpa only [Covers, hentries] using hcovers
    have hheld : s.leader.log.entryAt (k + 1) = some front := by
      simpa using hpiece (k + 1) (Nat.lt_succ_self k) (by simp)
    obtain ⟨hpaired, hholds⟩ := h.paired.store hc (List.cons_ne_nil _ _) hpiece hreach
      fun i x hi hx => hbelow hi hx (Nat.le_succ k) hheld
    have hlt : (front :: rest).length - 1 < (front :: rest).length := by simp
    have hback := List.getElem?_eq_getElem hlt
    have hindex := hc _ _ hback
    have hlast := List.getLast?_eq_getElem?.trans hback
    refine ⟨hpaired, fun r hr i x hi hx => hholds i x (hi.trans ?_) hx, fun back hb => ?_,
      fun hnil => by cases hnil⟩
    · have := hr _ hlast
      simp only [List.length_cons] at this hindex ⊢
      omega
    · obtain rfl := Option.some.inj (hlast.symm.trans hb)
      have hend := hpiece (k + (front :: rest).length) (by simp) le_rfl
      have hslot : k + (front :: rest).length - (k + 1) = (front :: rest).length - 1 := by omega
      rw [hslot, hback] at hend
      have := (h.paired.aligned.entryAt_lastIndex hend).1
      simp only [List.length_cons] at this hindex ⊢
      omega

private theorem stepDown (h : Sound p T s) (term : Nat) :
    Sound p T { s with leader := s.leader.becomeFollowerLocked term } := by
  obtain ⟨t, v, heq⟩ := s.leader.becomeFollowerLocked_eq term
  rw [heq]
  refine ⟨fun hl => ?_, h.other, h.paired, fun hl => ?_, h.reach, h.holds⟩
  · cases hl
  · cases hl

private theorem refused (h : Sound p T s) (hleads : s.leader.state = .leader)
    (entries : List RaftEntry) {resp : AppendEntriesResponse} (hfail : resp.success = false) :
    Sound p T { s with leader := s.leader.appendResponse p entries resp } := by
  unfold RaftNode.appendResponse
  split_ifs with hterm hsuccess
  · exact h.stepDown resp.term
  · exact absurd (hfail.symm.trans hsuccess) Bool.false_ne_true
  · obtain ⟨hone, hle⟩ := h.next hleads
    obtain ⟨hone', hle'⟩ := s.leader.nextAfterReject_bounds p resp hone
    refine ⟨h.leading, h.other, h.paired, fun _ => ?_, h.reach, h.holds⟩
    simp only [OrderedMap.getD_insert_self]
    exact ⟨hone', hle'.trans hle⟩

private theorem heard (h : Sound p T s) (hleads : s.leader.state = .leader) {commit : Nat}
    {req : AppendEntriesRequest} (hreq : req = s.leader.appendRequest p commit)
    (hok : Accepts s.follower req) (hcovers : Covers s.follower req) {n : RaftNode}
    (hlog : n.log = RaftNode.storeEntries s.follower.log req.entries) :
    Sound p T ⟨s.leader.appendResponse p req.entries
      { term := req.term, success := true, lastLogIndex := n.log.lastIndex }, n⟩ := by
  obtain ⟨hpaired, hholds, hback, hempty⟩ := h.taken hleads hreq hok hcovers
  rw [← hlog] at hpaired hholds
  have hterm : ¬ req.term > s.leader.currentTerm := by
    rw [hreq]
    exact lt_irrefl _
  rw [RaftNode.appendResponse, if_neg hterm, if_pos rfl]
  cases hlast : req.entries.getLast? with
  | some back =>
    have hle := hback back hlast
    have hheld := hholds back.index fun x hx =>
      (Option.some.inj (hlast.symm.trans hx) ▸ le_rfl : back.index ≤ x.index)
    refine ⟨h.leading, h.other, hpaired, fun _ => ?_, ?_, ?_⟩
    · simp only [OrderedMap.getD_insert_self]
      omega
    · simpa using hle
    · simpa using hheld
  | none =>
    have hnil := List.getLast?_eq_none_iff.mp hlast
    have hsame : n.log = s.follower.log := by rw [hlog, hnil]; rfl
    have hle := hempty hnil
    refine ⟨h.leading, h.other, hpaired, h.next, ?_, ?_⟩
    · simpa [hsame] using ⟨h.reach, hle⟩
    · exact hholds _ fun x hx => by simp [hlast] at hx

private theorem overhear (h : Sound p T s) {peer : Nat} (hpeer : peer ≠ p)
    (entries : List RaftEntry) (resp : AppendEntriesResponse) :
    Sound p T { s with leader := s.leader.appendResponse peer entries resp } := by
  have hne (m : OrderedMap Nat Nat) (v : Nat) : (m.insert peer v).getD p 0 = m.getD p 0 :=
    OrderedMap.getD_insert_ne m v 0 hpeer.symm
  unfold RaftNode.appendResponse
  split_ifs
  · exact h.stepDown resp.term
  · cases entries.getLast? with
    | some back =>
      refine ⟨h.leading, h.other, h.paired, fun hl => ?_, ?_, ?_⟩
      · simpa [hne] using h.next hl
      · simpa [hne] using h.reach
      · simpa [hne] using h.holds
    | none =>
      refine ⟨h.leading, h.other, h.paired, h.next, ?_, ?_⟩
      · simpa [hne] using h.reach
      · simpa [hne] using h.holds
  · refine ⟨h.leading, h.other, h.paired, fun hl => ?_, h.reach, h.holds⟩
    simpa [hne] using h.next hl

private theorem round (h : Sound p T s) (hT : 0 < T) (hleads : s.leader.state = .leader)
    {sent heard : Bool} (hok : Verified p s (.round sent heard)) :
    Sound p T {
      leader := s.leader.flushBatch.appendResponse p (s.request p).entries
        (if sent && heard then (s.follower.handleAppendEntries (s.request p)).1 else .unreachable)
      follower := if sent then (s.follower.handleAppendEntries (s.request p)).2 else s.follower } := by
  obtain ⟨hready, hbatch, hcovers⟩ := hok
  have hflushed := h.flushBatch hT hleads hready hbatch
  have hstate : s.leader.flushBatch.state = .leader := by
    rcases s.leader.flushBatch_cases with ⟨_, heq⟩ | ⟨_, heq⟩
    · rwa [heq]
    · rwa [heq]
  have hmatch : s.leader.flushBatch.matchIndex.getD p 0 = s.leader.matchIndex.getD p 0 := by
    rcases s.leader.flushBatch_cases with ⟨_, heq⟩ | ⟨_, heq⟩
    · rw [heq]
    · rw [heq]
      exact OrderedMap.getD_insert_ne _ _ _ h.other
  cases sent with
  | false => exact hflushed.refused hstate _ rfl
  | true =>
    rcases handleAppendEntries_answer s.follower (s.request p) with
      ⟨_, hfail, hlog⟩ | ⟨haccepts, hanswer, hlog⟩
    · have hrefused : Sound p T ⟨s.leader.flushBatch,
          (s.follower.handleAppendEntries (s.request p)).2⟩ :=
        ⟨hflushed.leading, hflushed.other, hlog ▸ hflushed.paired, hflushed.next, hflushed.reach,
          hlog ▸ hflushed.holds⟩
      refine hrefused.refused hstate _ ?_
      cases heard
      · rfl
      · exact hfail
    · obtain ⟨hcover, hreach⟩ := hcovers rfl haccepts
      cases heard with
      | false =>
        obtain ⟨hpaired, hholds, _⟩ := hflushed.taken hstate rfl haccepts hcover
        have hunheard : Sound p T ⟨s.leader.flushBatch,
            (s.follower.handleAppendEntries (s.request p)).2⟩ :=
          ⟨hflushed.leading, hflushed.other, hlog ▸ hpaired, hflushed.next, hflushed.reach,
            hlog ▸ hholds _ (hmatch ▸ hreach rfl)⟩
        exact hunheard.refused hstate _ rfl
      | true =>
        have hreq : s.request p = s.leader.flushBatch.appendRequest p s.leader.commitIndex := rfl
        have hsettled := hflushed.heard hstate hreq haccepts hcover hlog
        rw [hlog] at hsettled
        simpa only [Bool.and_self, if_true, hanswer] using hsettled

/-- One verified step keeps what holds between the leader and the follower. -/
theorem step (h : Sound p T s) (hT : 0 < T) {a : Action} {s' : Leadership} (hok : Verified p s a)
    (hs : Leadership.step p s a = some s') : Sound p T s' := by
  cases a with
  | propose entry =>
    obtain rfl := Option.some.inj hs
    rcases s.leader.propose_cases entry with ⟨_, heq⟩ | ⟨hleads, e, he, _, heq⟩
    · rwa [heq]
    · rw [heq]
      exact h.recordProposal hT (hok hleads) (by rw [he]; exact h.leading hleads) (by rw [he])
  | proposeConfChange cc =>
    obtain rfl := Option.some.inj hs
    rcases s.leader.proposeConfChange_cases cc with ⟨_, heq⟩ | ⟨hleads, e, he, _, heq⟩
    · rwa [heq]
    · rw [heq]
      exact h.recordProposal hT (hok hleads) (by rw [he]; exact h.leading hleads) (by rw [he])
  | proposeBatch entry =>
    obtain rfl := Option.some.inj hs
    rcases s.leader.proposeBatch_cases entry with ⟨_, heq⟩ | ⟨_, _, _, _, heq⟩
    · rwa [heq]
    · rw [heq]
      exact ⟨h.leading, h.other, h.paired, h.next, h.reach, h.holds⟩
  | advanceCommitIndex =>
    obtain rfl := Option.some.inj hs
    obtain ⟨_, heq⟩ := s.leader.advanceCommitIndex_kept
    rw [heq]
    exact ⟨h.leading, h.other, h.paired, h.next, h.reach, h.holds⟩
  | round sent heard =>
    obtain ⟨hleads, hs⟩ := Option.ite_none_left_eq_some.mp hs
    obtain rfl := Option.some.inj hs
    exact h.round hT (not_ne_iff.mp hleads) hok
  | answer peer entries resp =>
    obtain ⟨hpeer, hs⟩ := Option.ite_none_left_eq_some.mp hs
    obtain rfl := Option.some.inj hs
    exact h.overhear hpeer entries resp

end Sound

/-- A node about to take office in its term, and a follower it is to track. -/
structure Elected (p : Nat) (leader follower : RaftNode) : Prop where
  term : 0 < leader.currentTerm
  peer : p ∈ leader.peers.keys
  other : p ≠ leader.nodeId
  aligned : leader.log.Aligned
  positive : 0 < leader.log.firstIndex
  terms : ∀ e ∈ leader.log.entries, 0 < e.term
  followerAligned : follower.log.Aligned
  /-- Nobody else has led in the leader's term, and it has not yet done so itself. -/
  fresh : ∀ e ∈ follower.log.entries, e.term ≠ leader.currentTerm
  matching : RaftLog.Matching leader.log follower.log

def office (leader follower : RaftNode) : Leadership := ⟨leader.becomeLeaderLocked, follower⟩

theorem Elected.sound {p : Nat} {leader follower : RaftNode} (h : Elected p leader follower) :
    Sound p leader.currentTerm (office leader follower) := by
  have hnext : leader.becomeLeaderLocked.nextIndex.getD p 0 = leader.log.lastIndex + 1 := by
    simp only [RaftNode.becomeLeaderLocked, OrderedMap.getD_foldl_insert]
    exact if_pos h.peer
  have hmatch : leader.becomeLeaderLocked.matchIndex.getD p 0 = 0 := by
    simp only [RaftNode.becomeLeaderLocked, OrderedMap.getD_foldl_insert]
    exact if_pos h.peer
  refine ⟨fun _ => rfl, h.other, ⟨h.aligned, h.positive, h.terms, h.followerAligned,
    fun i y hy hterm => ?_, h.matching⟩, fun _ => ?_, ?_, fun i x hi hx => ?_⟩
  · exact absurd hterm (h.fresh y (RaftLog.mem_of_entryAt hy))
  · dsimp only [office]
    rw [hnext]
    exact ⟨Nat.succ_pos _, le_rfl⟩
  · dsimp only [office]
    rw [hmatch]
    exact Nat.zero_le _
  · dsimp only [office] at hi
    rw [hmatch] at hi
    have := h.positive.trans_le (RaftLog.entryAt_eq_some.mp hx).1
    omega

theorem step_firstIndex {p : Nat} {s s' : Leadership} {a : Action} (hs : step p s a = some s') :
    s'.follower.log.firstIndex ≤ s.follower.log.firstIndex := by
  cases a with
  | round sent heard =>
    have hle : (s.follower.handleAppendEntries (s.request p)).2.log.firstIndex ≤
        s.follower.log.firstIndex := by
      rw [(s.follower.handleAppendEntries_log (s.request p)).1]
      split_ifs
      · exact RaftNode.storeEntries_firstIndex _ _
      · exact le_rfl
    obtain ⟨_, hs⟩ := Option.ite_none_left_eq_some.mp hs
    obtain rfl := Option.some.inj hs
    cases sent with
    | false => exact le_rfl
    | true => exact hle
  | answer peer entries resp =>
    obtain ⟨_, hs⟩ := Option.ite_none_left_eq_some.mp hs
    obtain rfl := Option.some.inj hs
    exact le_rfl
  | _ =>
    obtain rfl := Option.some.inj hs
    exact le_rfl

/-- After any verified steps of a leader and its follower, the follower holds the leader's entry at
every index up to `match_index_`, unless it had compacted that part of its log from the start. -/
theorem match_index_sound {p : Nat} {leader follower : RaftNode} (h : Elected p leader follower)
    {s : Leadership} (hrun : Run (step p) (Verified p) (office leader follower) s) {i : Nat}
    {e : RaftEntry} (hi : i ≤ s.leader.matchIndex.getD p 0) (he : s.leader.log.entryAt i = some e)
    (hkept : follower.log.firstIndex ≤ i) : s.follower.log.entryAt i = some e := by
  have hsound := hrun.invariant (P := Sound p leader.currentTerm)
    (fun h' hok hs => h'.step h.term hok hs) h.sound
  have hfirst := hrun.invariant
    (P := fun s => s.follower.log.firstIndex ≤ follower.log.firstIndex)
    (fun h' _ hs => (step_firstIndex hs).trans h') le_rfl
  exact (hsound.holds i e hi he).resolve_right (not_lt.mpr (hfirst.trans hkept))

/-- An entry both nodes hold, and one more that the follower got from a leader that has failed. -/
def winner : RaftNode where
  nodeId := 1
  currentTerm := 2
  log := ⟨[{ term := 1, index := 1 }], 1⟩
  peers := OrderedMap.insert ∅ 2 ()

def lagging : RaftNode where
  nodeId := 2
  currentTerm := 1
  log := ⟨[{ term := 1, index := 1 }, { term := 1, index := 2, key := [7] }], 1⟩

theorem elected_winner : Elected 2 winner lagging where
  term := by decide
  peer := by decide
  other := by decide
  aligned := by decide
  positive := by decide
  terms := by decide
  followerAligned := by decide
  fresh := by decide
  matching := by
    intro i x y _ _ _ j _ x' y' hx hy
    obtain ⟨hj, hx⟩ := RaftLog.entryAt_eq_some.mp hx
    obtain ⟨_, hy⟩ := RaftLog.entryAt_eq_some.mp hy
    have hlt := (List.getElem?_eq_some_iff.mp hx).1
    simp only [winner, List.length_singleton, Nat.lt_one_iff] at hlt
    simp only [winner, lagging, hlt] at hx hy
    exact Option.some.inj (hx.symm.trans hy)

/-- The first heartbeat takes the follower's second entry for the leader's, which then comes to be
another one. -/
theorem heartbeat_counts_foreign_entry : ∃ s,
    Run (step 2) (fun _ _ => True) (office winner lagging) s ∧
    s.leader.matchIndex.getD 2 0 = 2 ∧ s.leader.log.lastIndex = 2 ∧
    s.follower.log.entryAt 2 ≠ s.leader.log.entryAt 2 :=
  reachable_of_execute (step 2) (fun _ _ => True) (office winner lagging)
    [.round true true, .propose {}] (by decide)

/-- A proposal before the first heartbeat makes the leader overwrite the foreign entry. -/
theorem match_index_sound_overwritten : ∃ s,
    Run (step 2) (Verified 2) (office winner lagging) s ∧ s.leader.matchIndex.getD 2 0 = 2 ∧
    ∀ i e, 1 ≤ i → i ≤ 2 → s.leader.log.entryAt i = some e →
      s.follower.log.entryAt i = some e := by
  obtain ⟨s, hrun, hmatch⟩ := reachable_of_execute (step 2) (Verified 2) (office winner lagging)
    [.propose {}, .round true true] (P := fun s => s.leader.matchIndex.getD 2 0 = 2) (by decide)
  exact ⟨s, hrun, hmatch, fun i e hone hi he =>
    match_index_sound elected_winner hrun (hi.trans hmatch.ge) he hone⟩

end Leadership
end MyEtcd
