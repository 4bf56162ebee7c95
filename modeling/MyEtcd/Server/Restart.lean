import MyEtcd.Server.EtcdServer
import MyEtcd.Wal.RoundTrip

/-! A server over any number of crashes and restarts, next to what it has told the others.
`Start` gives the node nothing but the newest snapshot, so a promise holds when that covers it. -/
namespace MyEtcd
open Library

/-- What a node has told the others. -/
structure Promises where
  /-- The largest term of an answer or an election. -/
  term : Nat := 0
  /-- The votes given, each with its term. -/
  votes : List (Nat × Nat) := []
  /-- Entries acknowledged, less those that a later request has replaced or cut off. -/
  acked : List RaftEntry := []
  deriving DecidableEq

/-- The snapshot's term is as late as all the promises, no vote was given to a candidate in it, and
its index is behind all acknowledged entries. -/
structure Covers (snapshot : Snapshot) (p : Promises) : Prop where
  term : p.term ≤ snapshot.lastTerm
  votes : ∀ v ∈ p.votes, v.1 = snapshot.lastTerm → v.2 = 0
  acked : ∀ e ∈ p.acked, e.index ≤ snapshot.lastIndex

/-- A server on one data directory from its first start on. -/
structure Lifetime where
  server : EtcdServer
  promises : Promises := {}
  /-- Entries of accepted requests, answered or not yet, that stand in the log. -/
  accepted : List RaftEntry := []
  /-- The snapshot with the largest index written so far. -/
  newest : Snapshot := {}

namespace Lifetime

def fresh (config : ClusterConfig) : Lifetime where
  server := { node := .ofConfig config, wal := .openDir {} }

inductive Action where
  | call (c : RaftNode.Call)
  | snapshotLoop (data : Bytes)
  | perform (k : Nat)
  | restart (k n : Nat)

/-- An accepted request with these entries leaves `e` in the log. -/
def Leaves (entries : List RaftEntry) (e : RaftEntry) : Bool :=
  match entries with
  | [] => true
  | front :: _ => e.index < front.index ∨ e ∈ entries

/-- An election is announced at once, and an accepted request replaces entries at once. -/
def record (s : Lifetime) : RaftNode.Call → Lifetime
  | .becomeCandidate =>
    let n := s.server.node.becomeCandidateLocked
    { s with promises := { s.promises with
        term := max s.promises.term n.currentTerm
        votes := (n.currentTerm, n.votedFor) :: s.promises.votes } }
  | .handleAppendEntries req =>
    if (s.server.node.handleAppendEntries req).1.success then
      { s with
        accepted := s.accepted.filter (Leaves req.entries) ++ req.entries
        promises := { s.promises with acked := s.promises.acked.filter (Leaves req.entries) } }
    else s
  | _ => s

/-- An answer is a promise once it goes out. -/
def observe (s : Lifetime) : Effect → Lifetime
  | .answerVote req resp =>
    { s with promises := { s.promises with
        term := max s.promises.term resp.term
        votes :=
          if resp.voteGranted then (req.term, req.candidateId) :: s.promises.votes
          else s.promises.votes } }
  | .answerAppend req resp =>
    { s with promises := { s.promises with
        term := max s.promises.term resp.term
        acked := s.promises.acked ++
          if resp.success then req.entries.filter (· ∈ s.accepted) else [] } }
  | .createSnapshot lastIndex data =>
    if s.newest.lastIndex ≤ lastIndex then
      { s with newest := { lastIndex, lastTerm := s.server.node.currentTerm, data } }
    else s
  | _ => s

def step (config : ClusterConfig) (s : Lifetime) : Action → Option Lifetime
  | .call c => some { s.record c with server := s.server.call c }
  | .snapshotLoop data => some { s with server := s.server.snapshotLoop data }
  | .perform k =>
    match s.server.handlers[k]? with
    | some (effect :: rest) =>
      (s.server.perform effect).map fun server =>
        { s.observe effect with
          server := { server with handlers := server.handlers.set k rest } }
    | _ => none
  | .restart k n =>
    (s.server.crash k n).bind fun disk =>
      (EtcdServer.start config disk).map fun started => { s with server := started.server }

end Lifetime

namespace EtcdServer

theorem start_eq {config : ClusterConfig} {disk : Disk} {started : Started}
    (h : start config disk = some started) :
    started.server.node = .ofSnapshot config (SnapshotManager.loadLatestSnapshot disk.snapshots) ∧
      started.server.wal.disk.snapshots = disk.snapshots ∧ started.server.handlers = [] := by
  obtain ⟨⟨_, wal⟩, hread, heq⟩ := Option.bind_eq_some_iff.mp h
  obtain rfl := Option.some.inj heq
  have hdisk : wal.disk = (WAL.openDir disk).disk := WAL.readAllEntries_disk hread
  refine ⟨rfl, ?_, rfl⟩
  dsimp only
  rw [hdisk]
  rfl

end EtcdServer

/-- A snapshot that is about to be written has an index and fits its file. -/
def Effect.Sound : Effect → Prop
  | .createSnapshot lastIndex data => 0 < lastIndex ∧ data.length < 2 ^ 32
  | _ => True

namespace EtcdServer
variable {s s' : EtcdServer} {newest : Snapshot}

/-- Every handler only writes sound snapshots. -/
def Sound (s : EtcdServer) : Prop := ∀ effects ∈ s.handlers, ∀ e ∈ effects, e.Sound

private theorem Sound.append (h : Sound s) {effects : List Effect} (he : ∀ e ∈ effects, e.Sound) :
    ∀ l ∈ s.handlers ++ [effects], ∀ e ∈ l, e.Sound := by
  intro l hl
  rcases List.mem_append.mp hl with hl | hl
  · exact h l hl
  · obtain rfl := List.mem_singleton.mp hl
    exact he

theorem Sound.call (h : Sound s) (c : RaftNode.Call) : Sound (s.call c) := by
  refine h.append fun e he => ?_
  rcases List.mem_append.mp he with he | he
  · obtain ⟨entries, _, he⟩ := List.mem_flatMap.mp he
    rcases List.mem_pair.mp he with rfl | rfl
    · trivial
    · trivial
  · cases c with
    | handleRequestVote req =>
      obtain rfl := List.mem_singleton.mp he
      trivial
    | handleAppendEntries req =>
      obtain rfl := List.mem_singleton.mp he
      trivial
    | _ => cases he

theorem Sound.snapshotLoop (h : Sound s) (data : Bytes) : Sound (s.snapshotLoop data) := by
  unfold EtcdServer.snapshotLoop
  by_cases hshould : SnapshotManager.shouldSnapshot s.node.log.lastIndex s.snapshotIndex
  · have hpos : 0 < s.node.log.lastIndex := by
      unfold SnapshotManager.shouldSnapshot at hshould
      split_ifs at hshould
      omega
    dsimp only
    rw [if_pos hshould]
    refine h.append fun e he => ?_
    rcases List.mem_append.mp he with he | he
    · split_ifs at he with hfits
      · rcases List.mem_pair.mp he with rfl | rfl
        · exact ⟨hpos, of_decide_eq_true hfits⟩
        · trivial
      · cases he
    · rcases List.mem_pair.mp he with rfl | rfl
      · trivial
      · trivial
  · dsimp only
    rwa [if_neg hshould]

theorem Sound.set (h : Sound s) {k : Nat} {effect : Effect} {rest : List Effect}
    (hk : s.handlers[k]? = some (effect :: rest)) :
    effect.Sound ∧ ∀ l ∈ s.handlers.set k rest, ∀ e ∈ l, e.Sound := by
  have hall := h _ (List.mem_of_getElem? hk)
  refine ⟨hall effect List.mem_cons_self, fun l hl => ?_⟩
  rcases List.mem_or_eq_of_mem_set hl with hl | rfl
  · exact h l hl
  · exact fun e he => hall e (List.mem_cons_of_mem _ he)

/-- No effect starts handlers. -/
theorem perform_handlers {e : Effect} (hp : s.perform e = some s') : s'.handlers = s.handlers := by
  cases e with
  | createSnapshot lastIndex data =>
    obtain ⟨_, hp⟩ := Option.ite_none_right_eq_some.mp hp
    obtain rfl := Option.some.inj hp
    rfl
  | truncateFrom idx =>
    obtain ⟨_, _, rfl⟩ := Option.map_eq_some_iff.mp hp
    rfl
  | _ =>
    obtain rfl := Option.some.inj hp
    rfl

/-- The newest snapshot on disk stays what it is in the middle of an effect. -/
theorem crash_newest (h : SnapshotManager.Newest s.wal.disk.snapshots newest) {k n : Nat}
    {disk : Disk} (hc : s.crash k n = some disk) :
    SnapshotManager.Newest disk.snapshots newest := by
  unfold crash at hc
  split at hc
  · rename_i effect rest heq
    cases effect with
    | appendEntries entries =>
      obtain rfl := Option.some.inj hc
      exact h
    | truncateFrom idx =>
      rwa [WAL.truncateFromPartly_snapshots hc]
    | cleanupOldSnapshots =>
      obtain rfl := Option.some.inj hc
      exact h.cleanupPartly n
    | _ =>
      obtain rfl := Option.some.inj hc
      exact h
  · obtain rfl := Option.some.inj hc
    exact h

end EtcdServer

namespace Lifetime
variable {config : ClusterConfig} {s s' : Lifetime}

/-- The newest snapshot is on disk, and the ones still to be written are sound. -/
structure Kept (s : Lifetime) : Prop where
  newest : SnapshotManager.Newest s.server.wal.disk.snapshots s.newest
  sound : s.server.Sound

namespace Kept

theorem fresh (config : ClusterConfig) : Kept (fresh config) where
  newest := .nothing
  sound l hl := by cases hl

private theorem perform (h : Kept s) {e : Effect} {server : EtcdServer} (hsound : e.Sound)
    (hp : s.server.perform e = some server) :
    SnapshotManager.Newest server.wal.disk.snapshots (s.observe e).newest := by
  cases e with
  | appendEntries entries =>
    obtain rfl := Option.some.inj hp
    exact (WAL.appendEntries_snapshots _ entries).symm ▸ h.newest
  | createSnapshot lastIndex data =>
    obtain ⟨hfits, hp⟩ := Option.ite_none_right_eq_some.mp hp
    obtain rfl := Option.some.inj hp
    have hwritten : SnapshotManager.Fits
        { lastIndex, lastTerm := s.server.node.currentTerm, data } :=
      ⟨hfits.1, hfits.2, hsound.2⟩
    have hnext := h.newest.createSnapshot hwritten hsound.1
    simp only [observe]
    split_ifs at hnext ⊢
    · exact hnext
    · exact hnext
  | cleanupOldSnapshots =>
    obtain rfl := Option.some.inj hp
    exact h.newest.cleanupOldSnapshots
  | truncateFrom idx =>
    obtain ⟨wal, hwal, rfl⟩ := Option.map_eq_some_iff.mp hp
    exact (WAL.truncateFrom_snapshots hwal).symm ▸ h.newest
  | _ =>
    obtain rfl := Option.some.inj hp
    exact h.newest

theorem step (h : Kept s) {a : Action} (hs : Lifetime.step config s a = some s') : Kept s' := by
  cases a with
  | call c =>
    obtain rfl := Option.some.inj hs
    have hnewest : (s.record c).newest = s.newest := by
      unfold record
      split
      · rfl
      · split_ifs
        · rfl
        · rfl
      · rfl
    exact ⟨hnewest.symm ▸ h.newest, h.sound.call c⟩
  | snapshotLoop data =>
    obtain rfl := Option.some.inj hs
    have hwal : (s.server.snapshotLoop data).wal = s.server.wal := by
      unfold EtcdServer.snapshotLoop
      dsimp only
      split_ifs
      · rfl
      · rfl
      · rfl
    exact ⟨hwal.symm ▸ h.newest, h.sound.snapshotLoop data⟩
  | perform k =>
    unfold Lifetime.step at hs
    dsimp only at hs
    split at hs
    · rename_i effect rest hk
      obtain ⟨server, hp, rfl⟩ := Option.map_eq_some_iff.mp hs
      obtain ⟨hsound, hrest⟩ := h.sound.set hk
      have hnewest := h.perform hsound hp
      refine ⟨hnewest, ?_⟩
      dsimp only [EtcdServer.Sound]
      rwa [EtcdServer.perform_handlers hp]
    · cases hs
  | restart k n =>
    obtain ⟨disk, hcrash, hs⟩ := Option.bind_eq_some_iff.mp hs
    obtain ⟨started, hstart, rfl⟩ := Option.map_eq_some_iff.mp hs
    obtain ⟨_, hsnapshots, hhandlers⟩ := EtcdServer.start_eq hstart
    refine ⟨?_, fun l hl => ?_⟩
    · exact hsnapshots.symm ▸ EtcdServer.crash_newest h.newest hcrash
    · dsimp only at hl
      rw [hhandlers] at hl
      cases hl

end Kept

end Lifetime
end MyEtcd
