import MyEtcd.Library.Numbered
import MyEtcd.Server.Contents
import MyEtcd.Server.HandingOver

/-! The index and the term under which a snapshot is written.
The index is read off the end of the log and the term off the node, and neither is looked up where
the data comes from. -/
namespace MyEtcd
open Library

def upTo (log : List RaftEntry) (n : Nat) : List RaftEntry :=
  log.filter fun e => 1 ≤ e.index ∧ e.index ≤ n

/-- A snapshot next to the log of the moment it is written. -/
structure Exact (snapshot : Snapshot) (log : List RaftEntry) : Prop where
  contents : snapshot.contents = some (applyAll ∅ (upTo log snapshot.lastIndex))
  term : ∃ e ∈ log, e.index = snapshot.lastIndex ∧ e.term = snapshot.lastTerm

/-- Entries of a log that are numbered from one to `n` are those up to `n`. -/
theorem upTo_eq {log : RaftLog} (h : log.Based 0) {entries : List RaftEntry} {n : Nat}
    (hindex : entries.map RaftEntry.index = List.range' 1 n)
    (hmem : ∀ e ∈ entries, e ∈ log.entries) : upTo log.entries n = entries := by
  have hlength : entries.length = n := by
    have := congrArg List.length hindex
    rwa [List.length_map, List.length_range'] at this
  have hcontiguous : RaftLog.Contiguous 1 entries := by
    rwa [RaftLog.contiguous_iff_map, hlength]
  have hfirst : log.firstIndex = 1 := le_antisymm h.first h.positive
  have hnumbered : Library.Numbered RaftEntry.index 1 log.entries := hfirst ▸ h.aligned
  have hrange := hnumbered.filter_range 1 (n + 1)
  rw [Nat.add_sub_cancel, Nat.sub_self, List.drop_zero] at hrange
  simp only [Nat.lt_succ_iff] at hrange
  rw [upTo, hrange]
  refine List.ext_getElem? fun k => ?_
  rw [List.getElem?_take]
  split_ifs with hk
  · have hslot := List.getElem?_eq_getElem (hlength.symm ▸ hk)
    obtain ⟨i, hi⟩ := List.mem_iff_getElem?.mp (hmem _ (List.mem_of_getElem? hslot))
    have hplace := hnumbered i _ hi
    have hnumber := hcontiguous k _ hslot
    obtain rfl : i = k := by omega
    rw [hi, hslot]
  · exact (List.getElem?_eq_none (by omega)).symm

namespace RaftNode

/-- No newer term comes with the call. -/
def KeepsTerm (n : RaftNode) : Call → Prop
  | .becomeFollower term => term ≤ n.currentTerm
  | .becomeCandidate => False
  | .handleRequestVote req => req.term ≤ n.currentTerm
  | .handleAppendEntries req => req.term ≤ n.currentTerm
  | .appendResponse _ _ resp => resp.term ≤ n.currentTerm
  | _ => True

theorem after_currentTerm {n : RaftNode} {c : Call} (h : n.KeepsTerm c) :
    (n.after c).currentTerm = n.currentTerm := by
  have hkept {m : RaftNode} (heq : n.after c = m) (hm : m.currentTerm = n.currentTerm) :
      (n.after c).currentTerm = n.currentTerm := heq ▸ hm
  cases c with
  | becomeFollower term => exact hkept (becomeFollowerLocked_of_le h) rfl
  | becomeCandidate => exact absurd h id
  | becomeLeader => exact hkept rfl rfl
  | propose entry =>
    rcases n.propose_cases entry with ⟨_, heq⟩ | ⟨_, _, _, _, heq⟩
    · exact hkept heq rfl
    · exact hkept heq rfl
  | proposeConfChange cc =>
    rcases n.proposeConfChange_cases cc with ⟨_, heq⟩ | ⟨_, _, _, _, heq⟩
    · exact hkept heq rfl
    · exact hkept heq rfl
  | proposeBatch entry =>
    rcases n.proposeBatch_cases entry with ⟨_, heq⟩ | ⟨_, _, _, _, heq⟩
    · exact hkept heq rfl
    · exact hkept heq rfl
  | flushBatch =>
    rcases n.flushBatch_cases with ⟨_, heq⟩ | ⟨_, heq⟩
    · exact hkept heq rfl
    · exact hkept heq rfl
  | handleRequestVote req =>
    rcases n.handleRequestVote_cases req with ⟨_, heq⟩ | ⟨_, m, hm, hcases⟩
    · exact hkept (congrArg Prod.snd heq) rfl
    · rw [if_neg (not_lt.mpr h)] at hm
      rcases hcases with heq | ⟨_, _, heq⟩
      · exact hkept (congrArg Prod.snd heq) (congrArg currentTerm hm)
      · exact hkept (congrArg Prod.snd heq) (by rw [hm])
  | handleAppendEntries req =>
    have hfollower := becomeFollowerLocked_of_le h
    rcases n.handleAppendEntries_cases req with
      ⟨_, heq⟩ | ⟨_, ⟨_, heq⟩ | ⟨_, _, m, hm, ⟨_, heq⟩ | ⟨_, heq⟩⟩⟩
    · exact hkept (congrArg Prod.snd heq) rfl
    · rw [hfollower] at heq
      exact hkept (congrArg Prod.snd heq) rfl
    · rw [hfollower] at hm
      exact hkept heq (by rw [hm])
    · rw [hfollower] at hm
      refine hkept heq ((applyCommittedEntries_kept _).currentTerm.symm.trans ?_)
      rw [hm]
  | appendResponse peer entries resp =>
    rcases n.appendResponse_cases peer entries resp with ⟨hlt, _⟩ | ⟨_, _, _, heq⟩
    · exact absurd h (not_le.mpr hlt)
    · exact hkept heq rfl
  | advanceCommitIndex =>
    obtain ⟨_, heq⟩ := n.advanceCommitIndex_kept
    exact hkept heq rfl
  | applyCommittedEntries => exact n.applyCommittedEntries_kept.currentTerm.symm

end RaftNode

/-- The index that an action of `SnapshotLoop` is to name the snapshot by. -/
def Action.label : Action → Option Nat
  | .serialize n | .createSnapshot n _ => some n
  | _ => none

namespace KVServer

/-- The index that a round of `SnapshotLoop` has read, as long as it has not written its snapshot. -/
def labels (s : KVServer) : List Nat := s.lastApplied.toList ++ s.critical.filterMap Action.label

/-- What has been applied, and the entry at a label, is sent again by a request that reaches back to
it, and what is committed is applied only where the log holds it. -/
def Retains (s : KVServer) : RaftNode.Call → Prop
  | .handleAppendEntries req =>
    s.node.currentTerm ≤ req.term → RaftNode.prevMatches s.node.log req = true →
      ∀ e ∈ s.node.log.entries, e.index ≤ s.node.lastApplied ∨ e.index ∈ s.labels →
        RaftLog.ReachesBack req.entries e → e ∈ req.entries
  | .applyCommittedEntries =>
    s.node.commitIndex ≤ s.node.lastApplied ∨ s.node.commitIndex ≤ s.node.log.lastIndex
  | _ => True

/-- A label is read while the last entry has the node's term, which stays until the snapshot has been
written, and the store is taken when it has come exactly so far. -/
def Labels (s : KVServer) : Event → Prop
  | .call c => s.Retains c ∧ (s.labels ≠ [] → s.node.KeepsTerm c)
  | .readLastIndex =>
    SnapshotManager.shouldSnapshot s.node.log.lastIndex s.snapshotIndex = true →
      s.node.log.lastTerm = s.node.currentTerm
  | .act =>
    match s.critical with
    | .serialize n :: _ => n + (s.ready.getD []).length = s.node.lastApplied
    | _ => True
  | _ => True

/-- The delivered entries are in the log, the label's entry has the node's term, and the data of the
next snapshot has been taken after as many entries as its label says. -/
structure Labelled (s : KVServer) : Prop where
  handing : HandingOver [] 0 s
  copied : Copied ∅ s
  stored : ∀ e ∈ s.node.delivered, e ∈ s.node.log.entries
  termed : ∀ n ∈ s.labels, ∃ e ∈ s.node.log.entries, e.index = n ∧ e.term = s.node.currentTerm
  serialized : ∀ n data, Action.createSnapshot n data ∈ s.critical → s.applied.length = n
  exact : ∀ w ∈ s.written, Exact w.1 w.2

namespace Labelled
variable {s s' : KVServer}

private theorem retained (h : Labelled s) {c : RaftNode.Call} (hok : s.Retains c) {node : RaftNode}
    (hserve : s.node.serve c = some node) {e : RaftEntry} (he : e ∈ s.node.log.entries)
    (hkept : e.index ≤ s.node.lastApplied ∨ e.index ∈ s.labels) : e ∈ node.log.entries := by
  by_cases hrequest : ∃ req, c = .handleAppendEntries req
  · obtain ⟨req, rfl⟩ := hrequest
    obtain ⟨hsuccessive, hserve⟩ := Option.ite_none_right_eq_some.mp hserve
    obtain rfl := Option.some.inj hserve
    exact RaftNode.handleAppendEntries_retains h.handing.delivered.based.aligned hsuccessive he
      fun hterm hprev => hok hterm hprev e he hkept
  · exact RaftNode.serve_retains hserve (fun req heq => hrequest ⟨req, heq⟩) he

private theorem delivers (h : Labelled s) {event : Event} (hok : s.Labels event)
    (hs : s.step event = some s') : s.Delivers event := by
  have hready : s.node.log.Ready := h.handing.delivered.based.ready (Nat.zero_le _)
  cases event with
  | call c =>
    obtain ⟨_, _, hserve, _⟩ := step_call hs
    cases c with
    | handleAppendEntries req => exact ⟨trivial, (Option.ite_none_right_eq_some.mp hserve).1⟩
    | applyCommittedEntries => exact ⟨trivial, hok.1⟩
    | propose entry => exact ⟨fun _ => hready, trivial⟩
    | proposeConfChange cc => exact ⟨fun _ => hready, trivial⟩
    | flushBatch => exact ⟨fun _ => hready, trivial⟩
    | _ => exact ⟨trivial, trivial⟩
  | _ => exact fun _ _ => hready

private theorem call (h : Labelled s) {c : RaftNode.Call} (hok : s.Labels (.call c))
    (hs : s.step (.call c) = some s') : Labelled s' := by
  have hhanding := h.handing.step (fun _ heq => by cases heq) (h.delivers hok hs) hs
  have hcopied := h.copied.step (fun _ heq => by cases heq) hs
  obtain ⟨node, calls, hserve, hcalls, _, rfl⟩ := step_call hs
  have hkept {e : RaftEntry} := h.retained hok.1 hserve (e := e)
  refine ⟨hhanding, hcopied, fun e he => ?_, fun n hn => ?_, h.serialized, h.exact⟩
  · obtain ⟨_, hmore, hmem⟩ := RaftNode.serve_readyCalls hserve
    rw [RaftNode.delivered, hmore, List.flatten_append] at he
    rcases List.mem_append.mp he with he | he
    · refine hkept (h.stored e he) (.inl ?_)
      have hindex : e.index ∈ s.node.delivered.map RaftEntry.index :=
        List.mem_map.mpr ⟨e, he, rfl⟩
      rw [h.handing.delivered.delivered, List.mem_range'_1] at hindex
      omega
    · exact hmem e he
  · obtain ⟨e, he, rfl, hterm⟩ := h.termed n hn
    refine ⟨e, hkept he (.inr hn), rfl, hterm.trans ?_⟩
    dsimp only
    rw [RaftNode.serve_eq_after hserve]
    exact (RaftNode.after_currentTerm (hok.2 (List.ne_nil_of_mem hn))).symm

private theorem byClient (h : Labelled s) {event : Event} (hclient : event.byClient = true)
    (hok : s.Labels event) (hs : s.step event = some s') : Labelled s' := by
  have hgoes : ∀ closed, event ≠ .restart closed := by
    rintro closed rfl
    cases hclient
  have hhanding := h.handing.step hgoes (h.delivers hok hs) hs
  have hcopied := h.copied.step hgoes hs
  obtain ⟨node, _, _, rfl, rfl | ⟨_, _, e, he, rfl⟩⟩ := step_byClient hclient hs
  · exact ⟨hhanding, hcopied, h.stored, h.termed, h.serialized, h.exact⟩
  · refine ⟨hhanding, hcopied, fun x hx => ?_, fun n hn => ?_, h.serialized, h.exact⟩
    · exact List.mem_append_left _ (h.stored x hx)
    · obtain ⟨x, hx, hlabel⟩ := h.termed n hn
      exact ⟨x, List.mem_append_left _ hx, hlabel⟩

private theorem readLastIndex (h : Labelled s) (hok : s.Labels .readLastIndex)
    (hs : s.step .readLastIndex = some s') : Labelled s' := by
  have hhanding := h.handing.step (fun _ heq => by cases heq) (h.delivers hok hs) hs
  have hcopied := h.copied.step (fun _ heq => by cases heq) hs
  rcases step_readLastIndex hs with rfl | ⟨hshould, rfl⟩
  · exact h
  refine ⟨hhanding, hcopied, h.stored, fun n hn => ?_, h.serialized, h.exact⟩
  rcases List.mem_append.mp hn with hn | hn
  · -- the last entry, of which there is one because a snapshot is due
    obtain rfl : s.node.log.lastIndex = n := (by simpa using hn : n = _).symm
    have hterm := hok hshould
    cases hlast : s.node.log.entries.getLast? with
    | none =>
      rw [RaftLog.lastIndex, hlast] at hshould
      simp [SnapshotManager.shouldSnapshot] at hshould
    | some e =>
      refine ⟨e, List.mem_of_getLast? hlast, ?_, ?_⟩
      · rw [RaftLog.lastIndex, hlast]
      · rwa [RaftLog.lastTerm, hlast] at hterm
  · exact h.termed n (List.mem_append_right _ hn)

private theorem written_act (hs : s.step .act = some s') : s'.written = s.written ∨
    ∃ n data rest, s.critical = .createSnapshot n data :: rest ∧
      SnapshotManager.fitsFile data = true ∧
      s'.written = s.written ++ [(⟨n, s.node.currentTerm, data⟩, s.node.log.entries)] := by
  obtain ⟨action, rest, hcritical, hperform⟩ := step_act hs
  cases action with
  | createSnapshot n data =>
    dsimp only [perform] at hperform
    split_ifs at hperform with hfits
    · obtain rfl := Option.some.inj hperform
      exact .inr ⟨n, data, rest, hcritical, hfits, rfl⟩
    · obtain rfl := Option.some.inj hperform
      exact .inl rfl
  | truncateFrom idx =>
    obtain ⟨_, _, rfl⟩ := Option.map_eq_some_iff.mp hperform
    exact .inl rfl
  | _ =>
    obtain rfl := Option.some.inj hperform
    exact .inl rfl

private theorem upTo_applied (h : Labelled s) :
    upTo s.node.log.entries s.applied.length = s.applied := by
  have happlied := h.handing.applied
  rw [List.nil_append] at happlied
  refine upTo_eq h.handing.delivered.based ?_ fun e he => h.stored e ?_
  · have hindex := h.handing.delivered.delivered
    rw [happlied, List.map_append] at hindex
    obtain ⟨k, _, hfirst, _⟩ := List.range'_eq_append_iff.mp hindex.symm
    have hlength := congrArg List.length hfirst
    rw [List.length_map, List.length_range'] at hlength
    rwa [hlength]
  · rw [happlied]
    exact List.mem_append_left _ he

private theorem exact_createSnapshot (h : Labelled s) {n : Nat} {data : Bytes}
    {rest : List Action} (hcritical : s.critical = .createSnapshot n data :: rest)
    (hfits : SnapshotManager.fitsFile data = true) :
    Exact ⟨n, s.node.currentTerm, data⟩ s.node.log.entries := by
  have hmem : Action.createSnapshot n data ∈ s.critical := hcritical ▸ List.mem_cons_self
  obtain rfl := h.copied.data n data hmem
  refine ⟨?_, h.termed n ?_⟩
  · rw [contents_serialize hfits, h.copied.store, ← h.serialized n _ hmem, h.upTo_applied]
  · exact List.mem_append_right _ (List.mem_filterMap.mpr ⟨_, hmem, rfl⟩)

private theorem length_applied (h : Labelled s)
    (hnone : s.critical.flatMap Action.processed = []) :
    s.applied.length + (s.ready.getD []).length = s.node.lastApplied := by
  have happlied := h.handing.applied
  rw [List.nil_append, hnone, List.nil_append] at happlied
  have hlength := congrArg List.length h.handing.delivered.delivered
  rw [happlied, List.length_map, List.length_append, List.length_range'] at hlength
  exact hlength

private theorem act (h : Labelled s) (hok : s.Labels .act) (hs : s.step .act = some s') :
    Labelled s' := by
  have hhanding := h.handing.step (fun _ heq => by cases heq) (h.delivers hok hs) hs
  have hcopied := h.copied.step (fun _ heq => by cases heq) hs
  have hwritten := written_act hs
  obtain ⟨action, rest, hcritical, hperform⟩ := step_act hs
  have hp := perform_performed hperform
  have hlabels {n : Nat} (hn : n ∈ s'.labels) : n ∈ s.labels := by
    rw [labels, hp.lastApplied, hp.critical] at hn
    rw [labels, hcritical]
    simp only [List.mem_append, List.mem_filterMap, List.mem_cons] at hn ⊢
    rcases hn with hn | ⟨a, ha | ha, hlabel⟩
    · exact .inl hn
    · cases action with
      | serialize m =>
        obtain rfl := List.mem_singleton.mp ha
        exact .inr ⟨_, .inl rfl, hlabel⟩
      | _ => cases ha
    · exact .inr ⟨a, .inr ha, hlabel⟩
  refine ⟨hhanding, hcopied, by rw [hp.node]; exact h.stored, fun n hn => ?_,
    fun n data hdata => ?_, fun w hw => ?_⟩
  · rw [hp.node]
    exact h.termed n (hlabels hn)
  · rw [hp.critical] at hdata
    have hstill {a : Action} (ha : a ∈ s.critical) (hcopies : a.copies = true) :
        s.critical.flatMap Action.processed = [] := by
      refine List.flatMap_eq_nil_iff.mpr fun b hb => ?_
      cases b with
      | processEntry e => exact absurd hb (h.copied.still a ha hcopies e)
      | _ => rfl
    rcases List.mem_append.mp hdata with hdata | hdata
    · cases action with
      | serialize m =>
        obtain ⟨rfl, _⟩ := Action.createSnapshot.inj (List.mem_singleton.mp hdata)
        simp only [Labels, hcritical] at hok
        have hlength := h.length_applied (hstill (hcritical ▸ List.mem_cons_self) rfl)
        have hsame : s'.applied = s.applied := hp.applied.trans (List.append_nil _)
        rw [hsame]
        omega
      | _ => cases hdata
    · -- nothing is applied between the copy and the snapshot
      have hmem : Action.createSnapshot n data ∈ s.critical :=
        hcritical ▸ List.mem_cons_of_mem _ hdata
      have hnone := hstill hmem rfl
      rw [hcritical, List.flatMap_cons] at hnone
      rw [hp.applied, (List.append_eq_nil_iff.mp hnone).1, List.append_nil]
      exact h.serialized n data hmem
  · rcases hwritten with heq | ⟨n, data, rest, hfirst, hfits, heq⟩
    · exact h.exact w (heq ▸ hw)
    · rw [heq] at hw
      rcases List.mem_append.mp hw with hw | hw
      · exact h.exact w hw
      · obtain rfl := List.mem_singleton.mp hw
        exact h.exact_createSnapshot hfirst hfits

theorem step (h : Labelled s) {event : Event} (hrunning : Running event = true)
    (hok : s.Labels event) (hs : s.step event = some s') : Labelled s' := by
  have hhanding (hgoes : ∀ closed, event ≠ .restart closed) :=
    h.handing.step hgoes (h.delivers hok hs) hs
  have hcopied (hgoes : ∀ closed, event ≠ .restart closed) := h.copied.step hgoes hs
  cases event with
  | call c => exact h.call hok hs
  | readLastIndex => exact h.readLastIndex hok hs
  | act => exact h.act hok hs
  | enterReady =>
    have hhanding := hhanding fun _ heq => by cases heq
    have hcopied := hcopied fun _ heq => by cases heq
    obtain ⟨entries, _, _, rfl⟩ := step_enterReady hs
    refine ⟨hhanding, hcopied, h.stored, fun n hn => h.termed n ?_, fun n data hdata => ?_, h.exact⟩
    · refine List.mem_append_left _ ?_
      simpa [labels, raftReadyHandler, Action.label] using hn
    · simp [raftReadyHandler] at hdata
  | enterSnapshot =>
    have hhanding := hhanding fun _ heq => by cases heq
    have hcopied := hcopied fun _ heq => by cases heq
    obtain ⟨m, hm, _, rfl⟩ := step_enterSnapshot hs
    refine ⟨hhanding, hcopied, h.stored, fun n hn => h.termed n ?_, fun n data hdata => ?_, h.exact⟩
    · have hlabel : n = m := by simpa [labels, takeSnapshot, Action.label] using hn
      rw [labels, hm, hlabel]
      exact List.mem_append_left _ (List.mem_singleton_self _)
    · simp [takeSnapshot] at hdata
  | restart closed => cases hrunning
  | _ => exact h.byClient rfl hok hs

end Labelled

variable {s s' : KVServer}

/-- In a run of a server on a new data directory, leader or follower, every snapshot holds the
entries up to its index, and its term is that of the last one. -/
theorem snapshot_labels_exact {config : ClusterConfig}
    (hrun : Run step (fun s event => Running event = true ∧ s.Labels event) (fresh config) s)
    {w : Snapshot × List RaftEntry} (hw : w ∈ s.written) : Exact w.1 w.2 := by
  have hfresh : Labelled (fresh config) := by
    refine ⟨.fresh config, ⟨rfl, fun a ha => ?_, fun n data hdata => ?_⟩, fun e he => ?_,
      fun n hn => ?_, fun n data hdata => ?_, fun w hw => ?_⟩
    · cases ha
    · cases hdata
    · cases he
    · cases hn
    · cases hdata
    · cases hw
  exact (hrun.invariant (P := Labelled) (fun h hok hs => h.step hok.1 hok.2 hs) hfresh).exact w hw

/-- A round of `SnapshotLoop` that nobody disturbs writes the store under the last index. -/
theorem run_snapshotLoop (ok : KVServer → Event → Prop) {n : Nat} (hcritical : s.critical = [])
    (hnone : s.lastApplied = none) (hn : s.node.log.lastIndex = n)
    (hshould : SnapshotManager.shouldSnapshot n s.snapshotIndex = true)
    (hfits : SnapshotManager.fitsFile s.kvstore.serialize = true)
    (hwidth : n < 2 ^ 64 ∧ s.node.currentTerm < 2 ^ 64) (hread : ok s .readLastIndex)
    (henter : ok { s with lastApplied := some n } .enterSnapshot)
    (hserialize : ok { s with critical := takeSnapshot n } .act)
    (hcreate : ok { s with critical := [.createSnapshot n s.kvstore.serialize, .truncateFrom n,
      .setSnapshotIndex n] } .act) :
    ∃ s', Run step ok s s' ∧ s'.written =
      s.written ++ [(⟨n, s.node.currentTerm, s.kvstore.serialize⟩, s.node.log.entries)] := by
  have hsame (critical : List Action) :
      { s with lastApplied := none, critical } = { s with critical } := by rw [← hnone]
  have h₁ : s.step .readLastIndex = some { s with lastApplied := some n } := by
    simp [step, hcritical, hnone, hn, hshould]
  have h₂ : step { s with lastApplied := some n } .enterSnapshot =
      some { s with critical := takeSnapshot n } := by
    rw [← hsame, step, hcritical]
  have h₃ : step { s with critical := takeSnapshot n } .act =
      some { s with critical := [.createSnapshot n s.kvstore.serialize, .truncateFrom n,
        .setSnapshotIndex n] } := rfl
  have h₄ : ∃ s', step { s with critical := [.createSnapshot n s.kvstore.serialize,
        .truncateFrom n, .setSnapshotIndex n] } .act = some s' ∧ s'.written =
      s.written ++ [(⟨n, s.node.currentTerm, s.kvstore.serialize⟩, s.node.log.entries)] := by
    dsimp only [step, perform]
    rw [if_neg (not_not.mpr hfits), if_pos hwidth]
    exact ⟨_, rfl, rfl⟩
  obtain ⟨s', h₄, hwritten⟩ := h₄
  exact ⟨s', (((Run.start.next hread h₁).next henter h₂).next hserialize h₃).next hcreate h₄,
    hwritten⟩

private theorem node_received {entries : List RaftEntry} (hc : RaftLog.Contiguous 1 entries)
    (hne : entries ≠ []) {commit : Nat} {node : RaftNode}
    (hnode : ((RaftNode.ofConfig {}).handleAppendEntries ⟨1, 2, 0, 0, entries, commit⟩).2 = node) :
    node.log = ⟨entries, 1⟩ ∧ node.currentTerm = 1 ∧
      (entries.length ≤ commit → node.delivered = entries ∧ node.lastApplied = entries.length) := by
  obtain ⟨front, rest, rfl⟩ := List.exists_cons_of_ne_nil hne
  have hfront : front.index = 1 := hc 0 front rfl
  have hstore : RaftNode.storeEntries {} (front :: rest) = ⟨front :: rest, 1⟩ := by
    simp [RaftNode.storeEntries, hfront, predIndex, RaftLog.truncateTo, RaftLog.appendAll]
  have hlog : node.log = ⟨front :: rest, 1⟩ := by
    rw [← hnode, (RaftNode.handleAppendEntries_log _ _).1, ← hstore]
    rfl
  have haligned : RaftLog.Aligned ⟨front :: rest, 1⟩ := hc
  have hlast : RaftLog.lastIndex ⟨front :: rest, 1⟩ = (front :: rest).length := by
    have := haligned.lastIndex_succ hne
    dsimp only at this
    omega
  rcases (RaftNode.ofConfig {}).handleAppendEntries_cases ⟨1, 2, 0, 0, front :: rest, commit⟩ with
    ⟨hold, _⟩ | ⟨_, ⟨hprev, _⟩ | ⟨_, _, m, hm, hcases⟩⟩
  · exact absurd hold (Nat.not_lt_zero 1)
  · cases hprev
  have hlength : 0 < (front :: rest).length := Nat.succ_pos _
  obtain ⟨hmlog, hmterm, hmdelivered, hmapplied⟩ : m.log = ⟨front :: rest, 1⟩ ∧
      m.currentTerm = 1 ∧ m.delivered = [] ∧ m.lastApplied = 0 := by
    rw [hm, ← hstore]
    exact ⟨rfl, rfl, rfl, rfl⟩
  rcases hcases with ⟨hle, heq⟩ | ⟨_, heq⟩
  · refine ⟨hlog, ?_, fun hcommit => absurd (hcommit.trans hle) (not_le.mpr hlength)⟩
    rw [← hnode, heq, hmterm]
  refine ⟨hlog, ?_, fun hcommit => ?_⟩
  · rw [← hnode, heq, ← (RaftNode.applyCommittedEntries_kept _).currentTerm]
    exact hmterm
  have hreach : min commit (front :: rest).length = (front :: rest).length := by omega
  constructor
  · have hslice : RaftLog.slice ⟨front :: rest, 1⟩ 1 ((front :: rest).length + 1) =
        front :: rest := by
      rw [Nat.add_comm]
      exact haligned.slice_all Nat.one_pos
    rw [← hnode, heq, (RaftNode.applyCommittedEntries_delivered _).1]
    dsimp only
    rw [hmlog, hlast, hreach, hmapplied, if_pos hlength, Nat.zero_add, hslice]
    exact congrArg (· ++ _) hmdelivered
  · rw [← hnode, heq, (RaftNode.applyCommittedEntries_delivered _).2]
    dsimp only
    rw [hmlog, hlast, hreach, hmapplied]
    exact Nat.zero_max _

private theorem received {entries : List RaftEntry} (hc : RaftLog.Contiguous 1 entries)
    (hne : entries ≠ []) (commit : Nat) : ∃ s,
    step (fresh {}) (.call (.handleAppendEntries ⟨1, 2, 0, 0, entries, commit⟩)) = some s ∧
      s.node.log = ⟨entries, 1⟩ ∧ s.node.currentTerm = 1 ∧
      s = { fresh {} with node := s.node, ready := s.ready } ∧
      (entries.length ≤ commit → s.ready = some entries ∧ s.node.lastApplied = entries.length) := by
  have hserve : (fresh {}).node.serve (.handleAppendEntries ⟨1, 2, 0, 0, entries, commit⟩) =
      some ((RaftNode.ofConfig {}).handleAppendEntries ⟨1, 2, 0, 0, entries, commit⟩).2 :=
    if_pos (@RaftLog.Contiguous.successive 0 _ hc)
  generalize hnode :
    ((RaftNode.ofConfig {}).handleAppendEntries ⟨1, 2, 0, 0, entries, commit⟩).2 = node at hserve
  obtain ⟨hlog, hterm, hcommitted⟩ := node_received hc hne hnode
  have hs : step (fresh {}) (.call (.handleAppendEntries ⟨1, 2, 0, 0, entries, commit⟩)) =
      some { fresh {} with
        node
        ready := if node.readyCalls = [] then none else some node.readyCalls.flatten } := by
    rw [step, hserve]
    rfl
  refine ⟨_, hs, hlog, hterm, rfl, fun hcommit => ?_⟩
  obtain ⟨hdelivered, happlied⟩ := hcommitted hcommit
  have hcalls : node.readyCalls ≠ [] := by
    intro hnil
    rw [RaftNode.delivered, hnil] at hdelivered
    exact hne hdelivered.symm
  exact ⟨(if_neg hcalls).trans (congrArg some hdelivered), happlied⟩

def puts (count : Nat) : List RaftEntry :=
  (List.range' 1 count).map fun i => { term := 1, index := i }

section
variable {count : Nat}

private theorem contiguous_puts : RaftLog.Contiguous 1 (puts count) := by
  rw [RaftLog.contiguous_iff_map, puts, List.map_map, List.length_map, List.length_range']
  exact List.map_id' _

private theorem length_puts : (puts count).length = count := by
  rw [puts, List.length_map, List.length_range']

private theorem upTo_puts : upTo (puts count) count = puts count := by
  refine List.filter_eq_self.mpr fun e he => ?_
  have := contiguous_puts.index_mem he
  rw [length_puts] at this
  simp only [decide_eq_true_eq]
  omega

private theorem applyAll_puts (hpos : 0 < count) :
    applyAll ∅ (puts count) = OrderedMap.insert ∅ [] [] := by
  have htwice (contents : OrderedMap Bytes Bytes) :
      (contents.insert [] []).insert [] [] = contents.insert [] [] := by
    refine OrderedMap.ext_get? fun key => ?_
    rw [OrderedMap.get?_insert, OrderedMap.get?_insert]
    split_ifs <;> rfl
  have hputs (l : List Nat) (contents : OrderedMap Bytes Bytes) :
      applyAll (contents.insert [] []) (l.map fun i => { term := 1, index := i }) =
        contents.insert [] [] := by
    induction l with
    | nil => rfl
    | cons i rest ih =>
      rw [List.map_cons, applyAll, List.foldl_cons]
      exact (congrArg (applyAll · _) (htwice contents)).trans ih
  obtain ⟨more, rfl⟩ := Nat.exists_eq_succ_of_ne_zero hpos.ne'
  rw [puts, List.range'_succ]
  exact hputs _ ∅

private theorem puts_ne_nil (hpos : 0 < count) : puts count ≠ [] :=
  List.ne_nil_of_length_pos (by rwa [length_puts])

private theorem lastIndex_puts (hpos : 0 < count) : RaftLog.lastIndex ⟨puts count, 1⟩ = count := by
  have haligned : RaftLog.Aligned ⟨puts count, 1⟩ := contiguous_puts
  have := haligned.lastIndex_succ (puts_ne_nil hpos)
  dsimp only at this
  rw [length_puts] at this
  omega

private theorem snapshot_early (hmany : SnapshotManager.threshold ≤ count) (hcount : count < 2 ^ 64) :
    ∃ s, Run step (fun _ event => Running event = true) (fresh {}) s ∧
      s.written = [(⟨count, 1, [0, 0, 0, 0]⟩, puts count)] := by
  have hpos : 0 < count := by unfold SnapshotManager.threshold at hmany; omega
  obtain ⟨s, hs, hlog, hterm, heq, _⟩ := received contiguous_puts (puts_ne_nil hpos) 0
  have hkvstore : s.kvstore = {} := by rw [heq]; rfl
  have hdata : s.kvstore.serialize = [0, 0, 0, 0] := by rw [hkvstore]; rfl
  have hshould : SnapshotManager.shouldSnapshot count s.snapshotIndex = true := by
    have hzero : s.snapshotIndex = 0 := by rw [heq]; rfl
    rw [hzero, SnapshotManager.shouldSnapshot, if_neg (by omega), Nat.sub_zero]
    exact decide_eq_true hmany
  obtain ⟨t, hrun, hwritten⟩ := run_snapshotLoop (fun _ event => Running event = true)
    (by rw [heq]; rfl : s.critical = []) (by rw [heq]; rfl) (by rw [hlog, lastIndex_puts hpos])
    hshould (by rw [hdata]; rfl) ⟨hcount, by rw [hterm]; omega⟩ rfl rfl rfl rfl
  have hnone : s.written = [] := by rw [heq]; rfl
  have hreceived : Run step (fun _ event => Running event = true) (fresh {}) s :=
    Run.start.next rfl hs
  refine ⟨t, hreceived.trans hrun, ?_⟩
  rw [hwritten, hnone, hterm, hdata, hlog, List.nil_append]

end

/-- A follower has received ten thousand entries, and its snapshot of all of them is empty. -/
theorem empty_snapshot_labelled :
    ∃ s, Run step (fun _ event => Running event = true) (fresh {}) s ∧
      s.written = [(⟨10000, 1, [0, 0, 0, 0]⟩, puts 10000)] ∧
      ¬ ∀ w ∈ s.written, Exact w.1 w.2 := by
  obtain ⟨s, hrun, hwritten⟩ := @snapshot_early 10000 le_rfl (by omega)
  refine ⟨s, hrun, hwritten, fun h => ?_⟩
  have hcontents := (h _ (hwritten ▸ List.mem_singleton_self _)).contents
  have hempty : Snapshot.contents ⟨10000, 1, [0, 0, 0, 0]⟩ = some ∅ := rfl
  dsimp only at hcontents
  rw [hempty, upTo_puts, applyAll_puts (by omega)] at hcontents
  have := congrArg (Option.map OrderedMap.size) hcontents
  exact absurd this (by decide)

private theorem snapshot_late {count : Nat} (hmany : SnapshotManager.threshold ≤ count)
    (hcount : count < 2 ^ 64) : ∃ s,
    Run step (fun s event => Running event = true ∧ s.Labels event) (fresh {}) s ∧
      ∃ w ∈ s.written, w.1.lastIndex = count := by
  have hpos : 0 < count := by unfold SnapshotManager.threshold at hmany; omega
  obtain ⟨s, hs, hlog, hterm, heq, hcommitted⟩ :=
    received contiguous_puts (puts_ne_nil hpos) count
  obtain ⟨hready, hreached⟩ := hcommitted length_puts.le
  obtain ⟨state, pendingCommits, hrun⟩ := @run_raftReadyHandler s
    (fun s event => Running event = true ∧ s.Labels event) _ hready (by rw [heq]; rfl)
    ⟨rfl, trivial⟩ fun t action rest haction ht => ⟨rfl, by
      cases action with
      | serialize n => simp [raftReadyHandler] at haction
      | _ => simp only [Labels, ht]⟩
  generalize ht : ({ s with
    ready := none
    critical := []
    kvstore := EtcdServer.processRaftEntries s.kvstore (puts count)
    applied := s.applied ++ puts count
    wal := (s.wal.appendEntries (puts count)).saveHardState state
    logged := s.logged ++ puts count
    pendingCommits } : KVServer) = t at hrun
  have hnode : t.node = s.node := by rw [← ht]
  have hkvstore : t.kvstore = EtcdServer.processRaftEntries s.kvstore (puts count) := by rw [← ht]
  have hlabels : Labels (fresh {}) (.call (.handleAppendEntries ⟨1, 2, 0, 0, puts count, count⟩)) :=
    ⟨fun _ _ e he => (by cases he), fun hne => absurd rfl hne⟩
  have hreceived : Run step (fun s event => Running event = true ∧ s.Labels event)
      (fresh {}) t := by
    exact (Run.start.next ⟨rfl, hlabels⟩ hs).trans hrun
  have hstore : t.kvstore.backend.store = OrderedMap.insert ∅ [] [] := by
    rw [hkvstore, store_processRaftEntries, ← applyAll_puts hpos, heq]
    rfl
  have hfits : SnapshotManager.fitsFile t.kvstore.serialize = true := by
    rw [KVStore.serialize_eq, hstore]
    decide
  have hshould : SnapshotManager.shouldSnapshot count t.snapshotIndex = true := by
    have hzero : t.snapshotIndex = 0 := by rw [← ht, heq]; rfl
    rw [hzero, SnapshotManager.shouldSnapshot, if_neg (by omega), Nat.sub_zero]
    exact decide_eq_true hmany
  have hlast : RaftLog.lastTerm ⟨puts count, 1⟩ = 1 := by
    obtain ⟨more, rfl⟩ := Nat.exists_eq_succ_of_ne_zero hpos.ne'
    rw [RaftLog.lastTerm, puts, List.range'_concat, List.map_append, List.map_singleton,
      List.getLast?_concat]
  obtain ⟨u, hlast, hlabelled⟩ := run_snapshotLoop
    (fun s event => Running event = true ∧ s.Labels event) (by rw [← ht])
    (by rw [← ht, heq]; rfl) (by rw [hnode, hlog, lastIndex_puts hpos]) hshould hfits
    ⟨hcount, by rw [hnode, hterm]; omega⟩
    ⟨rfl, fun _ => by rw [hnode, hlog, hterm, hlast]⟩ ⟨rfl, trivial⟩
    ⟨rfl, by simp [Labels, takeSnapshot, ← ht, hreached, length_puts]⟩ ⟨rfl, trivial⟩
  exact ⟨u, hreceived.trans hlast, _, hlabelled ▸ List.mem_append_right _
    (List.mem_singleton_self _), rfl⟩

/-- When the same entries have been committed and applied, their snapshot is exact. -/
theorem snapshot_labels_exact_puts : ∃ s,
    Run step (fun s event => Running event = true ∧ s.Labels event) (fresh {}) s ∧
      ∃ w ∈ s.written, w.1.lastIndex = 10000 ∧ Exact w.1 w.2 := by
  obtain ⟨s, hrun, w, hw, hindex⟩ := @snapshot_late 10000 le_rfl (by omega)
  exact ⟨s, hrun, w, hw, hindex, snapshot_labels_exact hrun hw⟩

end KVServer
end MyEtcd
