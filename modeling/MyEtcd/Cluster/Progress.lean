import Mathlib.Algebra.Order.BigOperators.Group.Finset
import MyEtcd.Cluster.Electable
import MyEtcd.Cluster.Rounds

/-! A command can be brought to all members.
From a state in which the threads rest, a leader is elected, takes the command, and brings its log to
everybody by heartbeats. Only a split vote stands in the way. -/
namespace MyEtcd
open Library Library.Consensus

namespace Cluster
variable {addresses : OrderedMap Nat Bytes} {s s' : Cluster} {m : Nat} {log : RaftLog}

/-- `m` leads with this log, of which the last entry is of its own term, and its peers are on their
way to it. -/
structure Reign (addresses : OrderedMap Nat Bytes) (log : RaftLog) (m : Nat) (s : Cluster) : Prop where
  member : m ∈ addresses.keys
  loop : s.point m = .loop
  leads : (s.node m).state = .leader
  configured : Configured addresses m (s.node m)
  tracked : (s.node m).Tracked
  whole : log.Whole
  holds : (s.node m).log = log
  flushed : (s.node m).batchBuffer = []
  own : (s.node m).matchIndex.getD m 0 = log.lastIndex
  current : log.termAt log.lastIndex = (s.node m).currentTerm
  positive : 0 < (s.node m).currentTerm
  told : ∀ p ∈ addresses.keys, (s.node p).Told log.entries
  nearing : ∀ p ∈ (peersOf addresses m).keys, Leadership.Nearing p ⟨s.node m, s.node p⟩

def remaining (addresses : OrderedMap Nat Bytes) (m : Nat) (s : Cluster) : Nat :=
  ∑ p ∈ (peersOf addresses m).keys.toFinset, Leadership.distance p ⟨s.node m, s.node p⟩

def AllLevel (addresses : OrderedMap Nat Bytes) (m : Nat) (s : Cluster) : Prop :=
  ∀ p ∈ (peersOf addresses m).keys, Leadership.Level p ⟨s.node m, s.node p⟩

namespace Reign

theorem target (h : Reign addresses log m s) (f : RaftNode) :
    Leadership.target ⟨s.node m, f⟩ = log := by
  rw [Leadership.target, RaftNode.flushBatch_of_empty h.flushed, h.holds]

/-- What the leader does at the end of a round, with what the heartbeats have left. -/
theorem close (h : Reign addresses log m s) {n : RaftNode} (hlike : (s.node m).Like m n) :
    Configured addresses m n.advanceCommitIndex.applyCommittedEntries ∧
      n.advanceCommitIndex.applyCommittedEntries.Told log.entries ∧
      ∃ commit pending applied calls, n.advanceCommitIndex.applyCommittedEntries =
        { n with
          commitIndex := commit
          pendingCommitted := pending
          lastApplied := applied
          readyCalls := calls } := by
  obtain ⟨commit, hadvanced⟩ := n.advanceCommitIndex_kept
  obtain ⟨next, matched, rfl⟩ := hlike.booked
  have hwithin := RaftNode.advanceCommitIndex_within (n := { s.node m with
      nextIndex := next, matchIndex := matched }) (h.holds ▸ h.whole.aligned) h.positive <| by
    dsimp only
    rw [h.holds, h.whole.lastIndex]
    exact (h.told m h.member).committed
  have hn : Configured addresses m { s.node m with
      nextIndex := next, matchIndex := matched, commitIndex := commit } := h.configured.congr rfl rfl rfl rfl
  rw [hadvanced] at hwithin ⊢
  refine ⟨hn.applyCommittedEntries, ?_, ?_⟩
  · refine RaftNode.Told.applyCommittedEntries (h.told m h.member).delivered (h.told m h.member).applied
      (h.holds ▸ h.whole) (h.holds ▸ List.prefix_rfl) ?_
    dsimp only at hwithin ⊢
    rw [h.holds] at hwithin ⊢
    rwa [h.whole.lastIndex] at hwithin
  · obtain ⟨pending, applied, calls, happlied⟩ := RaftNode.applyCommittedEntries_of_plain hn.log
    exact ⟨commit, pending, applied, calls, happlied⟩

theorem round (h : Reign addresses log m s) : ∃ s', Run (step addresses) Orderly s s' ∧
    Reign addresses log m s' ∧
    (∀ p ∈ (peersOf addresses m).keys,
      Leadership.distance p ⟨s'.node m, s'.node p⟩ < Leadership.distance p ⟨s.node m, s.node p⟩ ∨
      Leadership.Level p ⟨s.node m, s.node p⟩ ∧ Leadership.Level p ⟨s'.node m, s'.node p⟩) ∧
    (AllLevel addresses m s → log.entries.length ≤ (s'.node m).commitIndex ∧
      (log.entries.length ≤ (s.node m).commitIndex →
        ∀ p ∈ (peersOf addresses m).keys, (s'.node p).delivered = log.entries)) := by
  have hpeers : (s.node m).peers.keys = (peersOf addresses m).keys := by rw [h.configured.peers]
  have hself : m ∉ (peersOf addresses m).keys := fun hmem => (mem_peersOf.mp hmem).2 rfl
  obtain ⟨s', n, hrun, hpoint, hleader, hheard, hquiet, htracks⟩ := Cluster.round h.member h.loop h.leads
    h.flushed (fun p hp => (h.nearing p (hpeers ▸ hp)).term) (hpeers ▸ hself)
  rw [hpeers] at hheard hquiet
  have hsame := hquiet m hself
  obtain ⟨hconfigured, htold, commit, pending, applied, calls, hclosed⟩ := h.close hsame
  rw [← hleader] at hconfigured htold hclosed
  have hpeer {p : Nat} (hp : p ∈ (peersOf addresses m).keys) :
      Leadership.Nearing p ⟨s'.node m, s'.node p⟩ ∧
      (Leadership.distance p ⟨s'.node m, s'.node p⟩ < Leadership.distance p ⟨s.node m, s.node p⟩ ∨
        Leadership.Level p ⟨s.node m, s.node p⟩ ∧ Leadership.Level p ⟨s'.node m, s'.node p⟩) := by
    obtain ⟨hfollower, hlike⟩ := hheard p hp
    obtain ⟨hnear, hstep⟩ := (h.nearing p hp).heartbeat
    have halike : Leadership.Alike p (Leadership.heartbeat p ⟨s.node m, s.node p⟩).leader
        (s'.node m) := by
      rw [hclosed]
      exact ⟨hlike.log, hlike.currentTerm, hlike.batchBuffer, hlike.next, hlike.matched⟩
    obtain ⟨hnear', hdistance, hlevel⟩ := hnear.congr halike
    rw [hfollower]
    exact ⟨hnear', hstep.imp (fun hlt => hdistance ▸ hlt) fun hboth => ⟨hboth.1, hlevel hboth.2⟩⟩
  have h' : Reign addresses log m s' := by
    refine ⟨h.member, hpoint ▸ h.loop, ?_, hconfigured, ?_, h.whole, ?_, ?_, ?_, ?_, ?_, fun p hp => ?_,
      fun p hp => (hpeer hp).1⟩
    · rw [hclosed]
      exact hsame.state.trans h.leads
    · rw [hclosed]
      exact htracks h.tracked
    · rw [hclosed]
      exact hsame.log.trans h.holds
    · rw [hclosed]
      exact hsame.batchBuffer.trans h.flushed
    · rw [hclosed]
      exact hsame.matched.trans h.own
    · rw [hclosed]
      exact h.current.trans hsame.currentTerm.symm
    · rw [hclosed]
      exact h.positive.trans_eq hsame.currentTerm.symm
    · rcases eq_or_ne p m with rfl | hne
      · exact htold
      · have hp := mem_peersOf.mpr ⟨hp, hne⟩
        have hnear := (h.nearing p hp).told (by
          rw [h.target]
          exact h.told p (mem_peersOf.mp hp).1)
        rwa [h.target, ← (hheard p hp).1] at hnear
  refine ⟨s', hrun, h', fun p hp => (hpeer hp).2, fun hall => ⟨?_, fun hcommitted p hp => ?_⟩⟩
  · have hmatched (k : Nat) (hk : k ∈ n.peers.keys ∨ k = n.nodeId) :
        n.matchIndex.getD k 0 = n.log.lastIndex := by
      rw [hsame.log, h.holds]
      rw [hsame.peers, hsame.nodeId, hpeers, h.configured.nodeId] at hk
      rcases hk with hk | rfl
      · obtain hlt | ⟨_, hlevel⟩ := (hpeer hk).2
        · rw [(hall k hk).distance] at hlt
          exact absurd hlt (Nat.not_lt_zero _)
        · have hvalue := hlevel.matched
          rwa [h'.target, hclosed] at hvalue
      · exact hsame.matched.trans h.own
    have hreach := RaftNode.le_advanceCommitIndex (hsame.state.trans h.leads) (htracks h.tracked) hmatched
      (by rw [hsame.log, h.holds, h.current, hsame.currentTerm])
    rw [hsame.log, h.holds, h.whole.lastIndex] at hreach
    rw [hleader, ← (RaftNode.applyCommittedEntries_kept _).commitIndex]
    exact hreach
  · have htold := (h.told p (mem_peersOf.mp hp).1)
    rw [← h.target (s.node p)] at htold hcommitted
    have hdelivered := (hall p hp).told (h.nearing p hp) htold hcommitted
    rw [(hheard p hp).1, hdelivered, h.target]

theorem stay_level (hall : AllLevel addresses m s) (hmoved : ∀ p ∈ (peersOf addresses m).keys,
    Leadership.distance p ⟨s'.node m, s'.node p⟩ < Leadership.distance p ⟨s.node m, s.node p⟩ ∨
      Leadership.Level p ⟨s.node m, s.node p⟩ ∧ Leadership.Level p ⟨s'.node m, s'.node p⟩) :
    AllLevel addresses m s' := by
  intro p hp
  rcases hmoved p hp with hlt | ⟨_, hlevel⟩
  · rw [(hall p hp).distance] at hlt
    exact absurd hlt (Nat.not_lt_zero _)
  · exact hlevel

theorem levels (h : Reign addresses log m s) : ∃ s', Run (step addresses) Orderly s s' ∧
    Reign addresses log m s' ∧ AllLevel addresses m s' := by
  refine Run.reaches (remaining addresses m) (fun t ht hnot => ?_) h
  obtain ⟨p, hp, hbehind⟩ : ∃ p ∈ (peersOf addresses m).keys,
      ¬ Leadership.Level p ⟨t.node m, t.node p⟩ := by
    by_contra hall
    exact hnot fun p hp => by_contra fun hno => hall ⟨p, hp, hno⟩
  obtain ⟨u, hrun, hu, hmoved, _⟩ := ht.round
  refine ⟨u, hrun, hu, Finset.sum_lt_sum (fun q hq => ?_) ⟨p, List.mem_toFinset.mpr hp, ?_⟩⟩
  · rcases hmoved q (List.mem_toFinset.mp hq) with hlt | ⟨_, hlevel⟩
    · exact hlt.le
    · rw [hlevel.distance]
      exact Nat.zero_le _
  · exact (hmoved p hp).resolve_right fun hboth => hbehind hboth.1

/-- Two more rounds commit the log and have everybody deliver it. -/
theorem delivers (h : Reign addresses log m s) : ∃ s', Run (step addresses) Orderly s s' ∧
    ∀ i ∈ addresses.keys, (s'.node i).delivered = log.entries := by
  obtain ⟨t, hlevels, ht, hall⟩ := h.levels
  obtain ⟨u, hcommits, hu, hmoved, hcommitted⟩ := ht.round
  have hall' := stay_level hall hmoved
  obtain ⟨v, happlies, hv, _, hdelivered⟩ := hu.round
  obtain ⟨hcommitted', hpeers⟩ := hdelivered hall'
  refine ⟨v, (hlevels.trans hcommits).trans happlies, fun i hi => ?_⟩
  rcases eq_or_ne i m with rfl | hne
  · exact (hv.told i hi).complete hcommitted'
  · exact hpeers (hcommitted hall).1 i (mem_peersOf.mpr ⟨hi, hne⟩)

end Reign

/-- Two logs of a run in which leaders keep their office agree up to any entry of one term. -/
theorem Linked.matching {P : History} (h : Linked addresses s P) (p q : Nat) :
    RaftLog.Matching (s.node p).log (s.node q).log := by
  have hkp := h.replicates.keeper p
  have hkq := h.replicates.keeper q
  refine RaftLog.matching_of_slots hkp.whole hkq.whole fun k _ x hx y hy hterm => ?_
  have htake := (h.coherent.log_traced p).matching (h.coherent.log_traced q) (hkp.log ▸ hx)
    (hkq.log ▸ hy) hterm
  rwa [hkp.log, hkq.log] at htake

/-- A leader of the highest term that takes a command begins such a reign. -/
theorem Leads.reign {P : History} (h : Leads addresses s m) (hsafe : Safe addresses s P)
    (numbered : 0 ∉ addresses.keys) (hloop : s.point m = .loop) (hempty : (s.node m).batchBuffer = [])
    {entry : RaftEntry} (plain : entry.type ≠ .confChange) :
    ∃ log, Reign addresses log m (s.setNode m ((s.node m).propose entry).2) ∧
      log.entries = (s.node m).log.entries ++
        [{ entry with term := (s.node m).currentTerm, index := (s.node m).log.lastIndex + 1 }] := by
  obtain ⟨hm, hlead, htop⟩ := h
  have hs : step addresses s (.propose m entry) =
      some (s.setNode m ((s.node m).propose entry).2) := by
    simp only [step, if_neg plain]
  have hsound : Sound s (.propose m entry) :=
    ⟨⟨trivial, trivial, trivial⟩, trivial, trivial, trivial⟩
  obtain ⟨hsafe', _⟩ := hsafe.step numbered hsound hs
  obtain ⟨_, e, he, _, hproposed⟩ :=
    ((s.node m).propose_cases entry).resolve_left fun hno => hno.1 hlead
  rw [hproposed] at hsafe' ⊢
  generalize hs' : s.setNode m ((s.node m).recordProposal e) = s' at hsafe' ⊢
  have hself : s'.node m = (s.node m).recordProposal e := by simp [← hs', setNode]
  have hother {p : Nat} (hne : p ≠ m) : s'.node p = s.node p := by simp [← hs', setNode, hne]
  have hconfigured := hsafe'.linked.routed.node m
  have hkeeper := hsafe'.linked.replicates.keeper m
  have hold := hsafe.linked.replicates.keeper m
  have hvoter := hsafe.linked.elections.voter m
  have hlog : (s'.node m).log.entries = (s.node m).log.entries ++ [e] := by rw [hself]; rfl
  have hlast : (s'.node m).log.lastIndex = (s.node m).log.lastIndex + 1 := by
    rw [hkeeper.whole.lastIndex, hlog, List.length_append, hold.whole.lastIndex]
    rfl
  have htarget (f : RaftNode) : Leadership.target ⟨s'.node m, f⟩ = (s'.node m).log := by
    rw [Leadership.target, RaftNode.flushBatch_of_empty (by rw [hself]; exact hempty)]
  -- what anybody has delivered is in the log of the leader
  have htold (p : Nat) (hp : p ∈ addresses.keys) : (s.node p).Told (s'.node m).log.entries := by
    have hsealed := (hsafe.commits.committer p).commit
    have hledger : P.ledger (s.node m).currentTerm = (s.node m).log.entries := by
      rw [← hvoter.term, ← hsafe.linked.coherent.leader_log (hvoter.term ▸ hvoter.leads hlead), hold.log]
    have htake := hsealed.take_ledger hsafe.commits.durable (htop p hp) (hvoter.leads hlead)
    have hreach : (s.node p).commitIndex ≤ (s.node m).log.entries.length := by
      have hlength := congrArg List.length htake
      have hbound := hsealed.le_length
      rw [hledger, List.length_take, List.length_take] at hlength
      omega
    have happlies := hsafe.applies p
    have hcommitted := happlies.committed
    have hgrown : (s'.node m).log.entries.length = (s.node m).log.entries.length + 1 := by
      rw [hlog, List.length_append]
      rfl
    refine ⟨?_, by omega, by omega, fun hall => by omega⟩
    rw [happlies.delivered, hlog, List.take_append_of_le_length (hcommitted.trans hreach), ← hledger]
    exact take_eq_mono htake hcommitted
  refine ⟨(s'.node m).log, ⟨hm, ?_, ?_, hconfigured, (hsafe'.commits.committer m).tracked, hkeeper.whole,
    rfl, ?_, ?_, ?_, ?_, fun p hp => ?_, fun p hp => ?_⟩, hlog.trans (by rw [he])⟩
  · rw [← hs']
    exact hloop
  · rw [hself]
    exact hlead
  · rw [hself]
    exact hempty
  · rw [hlast, hself, RaftNode.recordProposal]
    dsimp only
    rw [(hsafe.linked.routed.node m).nodeId, OrderedMap.getD_insert_self, he]
  · rw [hkeeper.whole.termAt (e := e) (by omega), hself, he]
    · rfl
    · rw [hlast, hlog, hold.whole.lastIndex, Nat.add_sub_cancel, List.getElem?_concat_length]
  · rw [hself]
    exact (hsafe.linked.coherent.leader_term (hvoter.leads hlead)).2
  · rcases eq_or_ne p m with rfl | hne
    · have hown := htold p hp
      rw [hself] at hown ⊢
      exact hown.congr rfl rfl rfl
    · rw [hother hne]
      exact htold p hp
  · obtain ⟨hp, hne⟩ := mem_peersOf.mp hp
    have hpeer : p ∈ (s.node m).peers.keys := by
      rw [(hsafe.linked.routed.node m).peers]
      exact mem_peersOf.mpr ⟨hp, hne⟩
    obtain ⟨hpos, hle⟩ := hold.next hlead p hpeer
    have hnext : Leadership.next p ⟨s'.node m, s'.node p⟩ = (s.node m).nextIndex.getD p 0 := by
      rw [Leadership.next, hself]
      rfl
    rw [← hold.whole.lastIndex] at hle
    have hrep : Leadership.Replicating p ⟨s'.node m, s'.node p⟩ := by
      refine ⟨(htarget _).symm ▸ hkeeper.whole, (hsafe'.linked.replicates.keeper p).whole, ?_,
        hnext ▸ hpos, ?_⟩
      · rw [hself, hother hne]
        exact htop p hp
      · rw [hnext, htarget, hlast]
        exact hle.trans (Nat.le_succ _)
    refine ⟨hrep, by rw [hself]; exact hempty, fun _ => ⟨hrep, ?_, ?_⟩, fun _ hend => ?_⟩
    · rw [htarget, ← hkeeper.log]
      exact fun e he => hsafe'.linked.coherent.entry_term_pos (hsafe'.linked.coherent.log_traced m) he
    · rw [htarget]
      exact hsafe'.linked.matching m p
    · rw [hnext, htarget, hlast] at hend
      omega

/-- The run can go on to a state in which some member leads, and from there, after it has taken the
command, to one in which all members have delivered the leader's log with the command at its end. -/
def Deliverable (addresses : OrderedMap Nat Bytes) (s : Cluster) (entry : RaftEntry) : Prop :=
  ∃ m ∈ addresses.keys, ∃ t u, Run (step addresses) Orderly s t ∧ (t.node m).state = .leader ∧
    Run (step addresses) Orderly (t.setNode m ((t.node m).propose entry).2) u ∧
    ∀ i ∈ addresses.keys, (u.node i).delivered = (t.node m).log.entries ++
      [{ entry with term := (t.node m).currentTerm, index := (t.node m).log.lastIndex + 1 }]

/-- From a state of a sound run with the threads at rest and nothing buffered, a new command can still
be delivered by everybody, except where the vote is split among several members. -/
theorem command_deliverable_iff (M : Membership) (hne : M.addresses.keys ≠ [])
    (h : Run (step M.addresses) Sound (start M.addresses) s)
    (hrest : ∀ i ∈ M.addresses.keys, s.point i = .loop ∧ (s.node i).batchBuffer = [])
    {entry : RaftEntry} (plain : entry.type ≠ .confChange) :
    Deliverable M.addresses s entry ↔
      M.addresses.size = 1 ∨ ∀ term, ¬ Split M.addresses s term := by
  have hb : Ballots M.addresses s := .of_run M.numbered h
  constructor
  · rintro ⟨m, hm, t, _, hrun, hlead, _⟩
    by_contra hstuck
    obtain ⟨hmany, hsome⟩ := not_or.mp hstuck
    obtain ⟨term, hsplit⟩ := not_forall_not.mp hsome
    have hpos := List.length_pos_iff.mpr hne
    rw [OrderedMap.length_keys] at hpos
    obtain ⟨hfinal, _⟩ := hsplit.run hb M.numbered (by omega) hrun
    cases hlead.symm.trans (hfinal m hm).1
  · intro hfree
    obtain ⟨t, m, ht, hleads⟩ :=
      calm_leads ⟨hb, fun i hi => (hrest i hi).1⟩ M.numbered hne hfree
    obtain ⟨P, hsafe, _⟩ := (Safe.start M.addresses).run M.numbered h
    obtain ⟨P', hsafe', _⟩ := hsafe.run M.numbered ht.run
    obtain ⟨hloop, hempty⟩ := hrest m hleads.1
    obtain ⟨log, hreign, hentries⟩ := hleads.reign hsafe' M.numbered (by rw [ht.point, hloop])
      ((ht.buffer m).trans hempty) plain
    obtain ⟨u, hrun, hdelivered⟩ := hreign.delivers
    exact ⟨m, hleads.1, t, u, ht.run.mono fun _ _ hsound => hsound.1, hleads.2.1, hrun, fun i hi =>
      (hdelivered i hi).trans hentries⟩

def commitAndRest : List Action :=
  commitOnBoth ++ [.recvAppend 1 .unreachable, .sendAppend 1, .recvAppend 1 .unreachable,
    .finishHeartbeat 1, .advance 1, .apply 1]

theorem command_deliverable_iff_trio : ∃ s, Run (step trio.addresses) Sound (start trio.addresses) s ∧
    (s.node 1).commitIndex = 1 ∧ (s.node 3).log.entries = [] ∧ Deliverable trio.addresses s {} := by
  obtain ⟨s, h, hcommit, hempty, hstate, hrest⟩ := reachable_of_execute (step trio.addresses) Sound
    (start trio.addresses) commitAndRest (P := fun s => (s.node 1).commitIndex = 1 ∧
      (s.node 3).log.entries = [] ∧ (s.node 3).state = .follower ∧
      ∀ i ∈ trio.addresses.keys, s.point i = .loop ∧ (s.node i).batchBuffer = []) (by decide)
  refine ⟨s, h, hcommit, hempty, (command_deliverable_iff trio (by decide) h hrest (by decide)).mpr <|
    .inr fun term hsplit => ?_⟩
  cases hstate.symm.trans (hsplit 3 (by decide)).1

end Cluster
end MyEtcd
