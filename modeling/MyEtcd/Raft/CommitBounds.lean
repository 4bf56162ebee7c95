import MyEtcd.Raft.MatchIndex

/-! The counters of a follower without a snapshot, over any requests it handles.
The commit index stays within the log as long as no request cuts it below what is committed. -/
namespace MyEtcd
open Library

namespace RaftNode

/-- What has been applied is committed, and what is committed is in the log. -/
structure Bounded (n : RaftNode) : Prop where
  applied : n.lastApplied ≤ n.commitIndex
  committed : n.commitIndex ≤ n.log.lastIndex

/-- The call moves the commit index forward if at all, and leaves the counters in order. -/
structure Advances (n n' : RaftNode) : Prop where
  forward : n.commitIndex ≤ n'.commitIndex
  bounded : Bounded n'

/-- A request whose entries are stored reaches to the commit index. -/
def KeepsCommitted (n : RaftNode) (req : AppendEntriesRequest) : Prop :=
  Leadership.Accepts n req → req.entries ≠ [] → req.prevLogIndex ≤ n.log.lastIndex →
    n.commitIndex ≤ req.prevLogIndex + req.entries.length

instance (n : RaftNode) (req : AppendEntriesRequest) : Decidable (KeepsCommitted n req) :=
  inferInstanceAs (Decidable (_ → _))

def afterRequests (n : RaftNode) (reqs : List AppendEntriesRequest) : RaftNode :=
  reqs.foldl (fun n req => (n.handleAppendEntries req).2) n

structure Uncompacted (log : RaftLog) : Prop where
  aligned : log.Aligned
  first : log.firstIndex = 1

namespace Uncompacted
variable {log : RaftLog}

theorem lastIndex (h : Uncompacted log) : log.lastIndex = log.entries.length := by
  have hready : log.Ready := .inr h.first
  have := hready.lastIndex_succ h.aligned
  have := h.first
  omega

theorem storeEntries (h : Uncompacted log) {prev : Nat} {entries : List RaftEntry}
    (hc : RaftLog.Contiguous (prev + 1) entries) :
    Uncompacted (RaftNode.storeEntries log entries) := by
  refine ⟨storeEntries_aligned h.aligned hc, ?_⟩
  by_cases hne : entries = []
  · rw [hne]
    exact h.first
  · have hfirst := h.first
    rcases storeEntries_cases h.aligned hc hne with ⟨hlt, heq⟩ | ⟨_, _, heq⟩ | ⟨_, _, heq⟩
    · rw [heq]
      dsimp only
      omega
    · rw [heq]
      exact hfirst
    · rw [heq]
      exact hfirst

/-- Where the log ends after entries have been stored. -/
theorem lastIndex_storeEntries (h : Uncompacted log) {prev : Nat} {entries : List RaftEntry}
    (hc : RaftLog.Contiguous (prev + 1) entries) :
    (RaftNode.storeEntries log entries).lastIndex =
      if entries ≠ [] ∧ prev ≤ log.lastIndex then prev + entries.length else log.lastIndex := by
  rw [(h.storeEntries hc).lastIndex, h.lastIndex]
  by_cases hne : entries = []
  · rw [if_neg (fun hand => hand.1 hne), hne]
    rfl
  · have hfirst := h.first
    rcases storeEntries_cases h.aligned hc hne with ⟨hlt, heq⟩ | ⟨hle, hin, heq⟩ | ⟨hle, hout, heq⟩
    · rw [heq, if_pos ⟨hne, by omega⟩]
      dsimp only
      omega
    · rw [heq, if_pos ⟨hne, by omega⟩, List.length_append, List.length_take]
      omega
    · rw [heq, if_neg (fun hand => by omega)]

end Uncompacted

private theorem handleAppendEntries_counters {n : RaftNode} {req : AppendEntriesRequest}
    (h : Leadership.Accepts n req) :
    ∃ last, last = (storeEntries n.log req.entries).lastIndex ∧
      (n.handleAppendEntries req).2.log = storeEntries n.log req.entries ∧
      (n.handleAppendEntries req).2.commitIndex =
        (if req.leaderCommit > n.commitIndex then min req.leaderCommit last else n.commitIndex) ∧
      (n.handleAppendEntries req).2.lastApplied =
        (if req.leaderCommit > n.commitIndex then max n.lastApplied (min req.leaderCommit last)
          else n.lastApplied) := by
  obtain ⟨t, v, hfollower⟩ := n.becomeFollowerLocked_eq req.term
  refine ⟨_, rfl, ?_⟩
  rcases n.handleAppendEntries_cases req with
    ⟨hold, _⟩ | ⟨_, ⟨hprev, _⟩ | ⟨_, _, m, hm, ⟨hle, heq⟩ | ⟨hlt, heq⟩⟩⟩
  · exact absurd h.1 (not_le.mpr hold)
  · exact absurd h.2 (by simp [hprev])
  · rw [hfollower] at hm
    rw [heq, if_neg (not_lt.mpr hle), if_neg (not_lt.mpr hle), hm]
    exact ⟨rfl, rfl, rfl⟩
  · rw [hfollower] at hm
    have hkept := applyCommittedEntries_kept
      { m with commitIndex := min req.leaderCommit m.log.lastIndex }
    rw [heq, if_pos hlt, if_pos hlt, ← hkept.log, ← hkept.commitIndex,
      (applyCommittedEntries_delivered _).2, hm]
    exact ⟨rfl, rfl, rfl⟩

/-- One request, whatever its term and its place. -/
theorem handleAppendEntries_advances_iff {n : RaftNode} {req : AppendEntriesRequest}
    (h : Uncompacted n.log) (hb : Bounded n)
    (hc : RaftLog.Contiguous (req.prevLogIndex + 1) req.entries) :
    Advances n (n.handleAppendEntries req).2 ↔ KeepsCommitted n req := by
  have happlied := hb.applied
  have hcommitted := hb.committed
  by_cases haccepts : Leadership.Accepts n req
  · obtain ⟨last, hlast, hlog, hcommit, happly⟩ := handleAppendEntries_counters haccepts
    rw [h.lastIndex_storeEntries hc] at hlast
    constructor
    · intro ⟨hforward, hbounded⟩ _ hne hprev
      have hin := hbounded.committed
      rw [hlog, h.lastIndex_storeEntries hc, if_pos ⟨hne, hprev⟩] at hin
      omega
    · intro hkeeps
      have hreach : n.commitIndex ≤ last := by
        rw [hlast]
        split_ifs with hstored
        · exact hkeeps haccepts hstored.1 hstored.2
        · exact hcommitted
      refine ⟨?_, ?_, ?_⟩
      · rw [hcommit]
        split_ifs <;> omega
      · rw [hcommit, happly]
        split_ifs <;> omega
      · rw [hcommit, hlog, h.lastIndex_storeEntries hc, ← hlast]
        split_ifs <;> omega
  · have hsame : (n.handleAppendEntries req).2.commitIndex = n.commitIndex ∧
        (n.handleAppendEntries req).2.lastApplied = n.lastApplied ∧
        (n.handleAppendEntries req).2.log = n.log := by
      obtain ⟨t, v, hfollower⟩ := n.becomeFollowerLocked_eq req.term
      rcases n.handleAppendEntries_cases req with
        ⟨_, heq⟩ | ⟨hle, ⟨_, heq⟩ | ⟨hprev, _, _⟩⟩
      · rw [heq]
        exact ⟨rfl, rfl, rfl⟩
      · rw [heq, hfollower]
        exact ⟨rfl, rfl, rfl⟩
      · exact absurd ⟨hle, hprev⟩ haccepts
    refine ⟨fun _ haccepts' => absurd haccepts' haccepts, fun _ => ⟨hsame.1.ge, ?_, ?_⟩⟩
    · rw [hsame.1, hsame.2.1]
      exact happlied
    · rw [hsame.1, hsame.2.2]
      exact hcommitted

private theorem handleAppendEntries_uncompacted {n : RaftNode} {req : AppendEntriesRequest}
    (h : Uncompacted n.log) (hc : RaftLog.Contiguous (req.prevLogIndex + 1) req.entries) :
    Uncompacted (n.handleAppendEntries req).2.log := by
  rw [(n.handleAppendEntries_log req).1]
  split_ifs
  · exact h.storeEntries hc
  · exact h

/-- Over any requests with contiguous entries, every call leaves the counters in order and moves the
commit index forward only, exactly when none of them cuts the log below what is committed then. -/
theorem commit_bounds_iff {n : RaftNode} (h : Uncompacted n.log) (hb : Bounded n)
    {reqs : List AppendEntriesRequest}
    (hc : ∀ req ∈ reqs, RaftLog.Contiguous (req.prevLogIndex + 1) req.entries) :
    (∀ k req, reqs[k]? = some req →
        Advances (n.afterRequests (reqs.take k))
          ((n.afterRequests (reqs.take k)).handleAppendEntries req).2) ↔
      ∀ k req, reqs[k]? = some req → KeepsCommitted (n.afterRequests (reqs.take k)) req := by
  induction reqs generalizing n with
  | nil => simp
  | cons req rest ih =>
    have hnext := handleAppendEntries_uncompacted h (hc req List.mem_cons_self)
    have hfirst := handleAppendEntries_advances_iff h hb (hc req List.mem_cons_self)
    have hrest (hb' : Bounded (n.handleAppendEntries req).2) :=
      ih hnext hb' fun x hx => hc x (List.mem_cons_of_mem _ hx)
    constructor
    · intro hall k x hx
      cases k with
      | zero =>
        obtain rfl : req = x := Option.some.inj hx
        exact hfirst.mp (hall 0 req rfl)
      | succ k => exact (hrest (hall 0 req rfl).bounded).mp (fun k x hx => hall (k + 1) x hx) k x hx
    · intro hall k x hx
      have hhead := hfirst.mpr (hall 0 req rfl)
      cases k with
      | zero =>
        obtain rfl : req = x := Option.some.inj hx
        exact hhead
      | succ k => exact (hrest hhead.bounded).mpr (fun k x hx => hall (k + 1) x hx) k x hx

private def firstEntries (n : Nat) : List RaftEntry :=
  (List.range' 1 n).map fun i => { term := 1, index := i }

def committedThree : RaftNode :=
  ((ofConfig {}).handleAppendEntries ⟨1, 2, 0, 0, firstEntries 3, 3⟩).2

def resent (leaderCommit : Nat) : RaftNode :=
  (committedThree.handleAppendEntries ⟨1, 2, 0, 0, firstEntries 1, leaderCommit⟩).2

/-- The log ends before the commit index, which either stays behind its end or moves back. -/
theorem commit_past_end :
    (∀ e ∈ firstEntries 1, e.index ≤ committedThree.commitIndex →
      committedThree.log.termAt e.index = e.term) ∧
    (resent 1).log.lastIndex < (resent 1).commitIndex ∧
    (resent 4).commitIndex < committedThree.commitIndex := by
  decide

/-- A follower gets three entries with the first two committed, and then the last two again. -/
theorem commit_bounds_iff_resent :
    Advances ((ofConfig {}).afterRequests [⟨1, 2, 0, 0, firstEntries 3, 2⟩])
      ((ofConfig {}).afterRequests [⟨1, 2, 0, 0, firstEntries 3, 2⟩,
        ⟨1, 2, 1, 1, (firstEntries 3).drop 1, 3⟩]) := by
  refine (@commit_bounds_iff (ofConfig {}) ?_ ?_ [⟨1, 2, 0, 0, firstEntries 3, 2⟩,
    ⟨1, 2, 1, 1, (firstEntries 3).drop 1, 3⟩] ?_).mpr ?_ 1 _ rfl
  · exact ⟨by decide, rfl⟩
  · exact ⟨le_rfl, le_rfl⟩
  · decide
  · intro k req hreq
    cases k with
    | zero =>
      obtain rfl := Option.some.inj hreq
      decide
    | succ k =>
      cases k with
      | zero =>
        obtain rfl := Option.some.inj hreq
        decide
      | succ k => cases hreq

end RaftNode
end MyEtcd
