import MyEtcd.Server.Contents
import MyEtcd.Server.HandingOver
import MyEtcd.Wal.Legible
import MyEtcd.Wal.Runs

/-! What the store shows and what is on disk.
The handler gives an entry to the store before it gives it to the log, and a round of `SnapshotLoop`
cuts the log back whether its snapshot has been written or not. -/
namespace MyEtcd
open Library EtcdServer

/-- What an entry leaves under its key. -/
def RaftEntry.effect (entry : RaftEntry) : Option Bytes :=
  match entry.type with
  | .put => some entry.value
  | _ => none

def lastOn (entries : List RaftEntry) (key : Bytes) : Option RaftEntry :=
  (entries.filter fun e => Writes e ∧ e.key = key).getLast?

/-- The contents that `Start` takes from the newest snapshot, nothing if there is none. -/
def Disk.stored (disk : Disk) : OrderedMap Bytes Bytes :=
  ((SnapshotManager.loadLatestSnapshot disk.snapshots).bind Snapshot.contents).getD ∅

/-- The newest snapshot has the effect of the entry, or the log has a record of it. -/
def OnDisk (disk : Disk) (e : RaftEntry) : Prop :=
  disk.stored.get? e.key = e.effect ∨ WAL.Recorded disk e

theorem get?_applyTo (contents : OrderedMap Bytes Bytes) (e : RaftEntry) (key : Bytes) :
    (e.applyTo contents).get? key =
      if Writes e ∧ e.key = key then e.effect else contents.get? key := by
  cases htype : e.type with
  | put =>
    simp [RaftEntry.applyTo, RaftEntry.effect, Writes, htype, OrderedMap.get?_insert, eq_comm]
  | delete =>
    simp [RaftEntry.applyTo, RaftEntry.effect, Writes, htype, OrderedMap.get?_erase, eq_comm]
  | _ => simp [RaftEntry.applyTo, Writes, htype]

theorem lastOn_append (entries : List RaftEntry) (e : RaftEntry) (key : Bytes) :
    lastOn (entries ++ [e]) key =
      if Writes e ∧ e.key = key then some e else lastOn entries key := by
  rw [lastOn, lastOn, List.filter_append]
  split_ifs with h
  · simp [h]
  · simp [h]

/-- What the entries leave under a key that one of them writes is the last one's. -/
theorem get?_applyAll (contents : OrderedMap Bytes Bytes) (entries : List RaftEntry)
    (key : Bytes) : (applyAll contents entries).get? key =
      ((lastOn entries key).map RaftEntry.effect).getD (contents.get? key) := by
  induction entries using List.reverseRecOn with
  | nil => rfl
  | append_singleton front e ih =>
    rw [applyAll, List.foldl_append, List.foldl_cons, List.foldl_nil, ← applyAll, get?_applyTo,
      lastOn_append, ih]
    split_ifs
    · rfl
    · rfl

theorem mem_of_lastOn {entries : List RaftEntry} {key : Bytes} {e : RaftEntry}
    (h : lastOn entries key = some e) : e ∈ entries :=
  (List.mem_filter.mp (List.mem_of_getLast? h)).1

theorem OnDisk.appendEntries {w : WAL} {e : RaftEntry} (h : OnDisk w.disk e)
    (entries : List RaftEntry) : OnDisk (w.appendEntries entries).disk e := by
  refine h.imp (fun h => ?_) fun h => h.appendEntries entries
  rwa [Disk.stored, WAL.appendEntries_snapshots]

namespace KVServer

/-- The store has what the entry left under its key, and no later entry has written it. -/
structure Visible (s : KVServer) (e : RaftEntry) : Prop where
  writes : Writes e
  effect : s.kvstore.backend.get e.key = e.effect
  last : ∀ x, lastOn s.applied e.key = some x → x = e

/-- The file of the backend has nothing to say on keys that the log does not write. -/
def BackendAgrees (config : ClusterConfig) (disk : Disk) (backendFile : Option Bytes) : Prop :=
  ∀ s, start config disk none = some s → ∀ key, lastOn s.applied key = none →
    (s.kvstore.backend.loadFromDisk backendFile).get key = s.kvstore.backend.get key

/-- The entries that the handler has still to give to the log on disk. -/
def handed (s : KVServer) : List RaftEntry := s.critical.flatMap Action.appended

/-- The node delivers in order, and goes on only where the log on disk is not ahead. Records have
room for their fields, a snapshot is written, under an index that is not behind, nothing waits when
the log is cut back, and the backend's file agrees with the rest. -/
def Preserves (s : KVServer) (event : Event) : Prop :=
  s.Delivers event ∧
  match event with
  | .call c => s.node.AppliesMore c → s.wal.lastIndex ≤ s.node.lastApplied
  | .act =>
    match s.critical with
    | .appendEntries entries :: _ => ∀ e ∈ entries, WAL.Fits e
    | .createSnapshot n data :: _ => SnapshotManager.fitsFile data = true ∧
      ∀ newest, SnapshotManager.loadLatestSnapshot s.wal.disk.snapshots = some newest →
        newest.lastIndex ≤ n
    | .truncateFrom _ :: _ => s.ready = none
    | _ => True
  | .restart closed => BackendAgrees s.config s.wal.disk
      (if closed then some s.kvstore.backend.flushToDisk else s.backendFile)
  | _ => True

/-- How far the handler that holds `server_mu_` has come. -/
inductive Underway (s : KVServer) : Prop where
  | handling {entries : List RaftEntry} (h : s.critical <:+ raftReadyHandler entries)
  | taking {n : Nat} (hpos : 0 < n) (h : s.critical = takeSnapshot n)
  | writing {n : Nat} (hpos : 0 < n) (h : s.critical =
      [.createSnapshot n s.kvstore.serialize, .truncateFrom n, .setSnapshotIndex n])
  | written {n : Nat} (hstored : s.wal.disk.stored = s.kvstore.backend.store)
      (h : s.critical = [.truncateFrom n, .setSnapshotIndex n])
  | truncated {n : Nat} (h : s.critical = [.setSnapshotIndex n])

/-- The disk covers what the store shows, but for what the handler holds, which the log on disk has
not passed yet. -/
structure Covering (s : KVServer) : Prop where
  covers : ∀ e, Visible s e → OnDisk s.wal.disk e ∨ e ∈ s.handed
  handing : ∃ replayed base, HandingOver replayed base s
  ahead : ∀ e ∈ s.handed ++ s.ready.getD [], s.wal.lastIndex < e.index
  underway : Underway s
  legible : WAL.Legible s.wal.disk
  newest : ∃ newest, SnapshotManager.Newest s.wal.disk.snapshots newest
  label : ∀ n, s.lastApplied = some n → 0 < n

variable {s s' : KVServer}

theorem Visible.congr {e : RaftEntry} (h : Visible s' e) (hkvstore : s'.kvstore = s.kvstore)
    (happlied : s'.applied = s.applied) : Visible s e :=
  ⟨h.writes, hkvstore ▸ h.effect, happlied ▸ h.last⟩

/-- An entry that goes on being visible after another one. -/
theorem Visible.processEntry {e x : RaftEntry} {rest : List Action} (h : Visible { s with
      kvstore := EtcdServer.processEntry s.kvstore e
      applied := s.applied ++ [e]
      critical := rest } x) : x = e ∧ Writes e ∨ Visible s x := by
  have hlast := h.last
  have heffect : (EtcdServer.processRaftEntries s.kvstore [e]).backend.store.get? x.key =
    x.effect := h.effect
  dsimp only at hlast
  rw [store_processRaftEntries, applyAll, List.foldl_cons, List.foldl_nil, get?_applyTo] at heffect
  rw [lastOn_append] at hlast
  split_ifs at heffect hlast with he
  · exact .inl ⟨(hlast e rfl).symm, he.1⟩
  · exact .inr ⟨h.writes, heffect, hlast⟩

/-- The snapshot that has just been written is the one `Start` would take. -/
theorem stored_createSnapshot {disk : Disk} {n term : Nat}
    (hnewest : ∃ newest, SnapshotManager.Newest disk.snapshots newest) (hpos : 0 < n)
    (hfits : SnapshotManager.fitsFile s.kvstore.serialize = true)
    (hwidth : n < 2 ^ 64 ∧ term < 2 ^ 64)
    (hahead : ∀ newest, SnapshotManager.loadLatestSnapshot disk.snapshots = some newest →
      newest.lastIndex ≤ n) {files : OrderedMap Nat Bytes}
    (hfiles : files = SnapshotManager.cleanupOldSnapshots
      (SnapshotManager.createSnapshot disk.snapshots ⟨n, term, s.kvstore.serialize⟩)) :
    Disk.stored { disk with snapshots := files } = s.kvstore.backend.store ∧
      ∃ newest, SnapshotManager.Newest files newest := by
  obtain ⟨newest, hnewest⟩ := hnewest
  have hle : newest.lastIndex ≤ n := by
    by_cases hzero : newest.lastIndex = 0
    · omega
    · exact hahead newest (by rw [hnewest.load, if_neg hzero])
  have hsnapshot : SnapshotManager.Fits ⟨n, term, s.kvstore.serialize⟩ :=
    ⟨hwidth.1, hwidth.2, of_decide_eq_true hfits⟩
  have hnow := (hnewest.createSnapshot hsnapshot hpos).cleanupOldSnapshots
  rw [if_pos hle, ← hfiles] at hnow
  refine ⟨?_, _, hnow⟩
  rw [Disk.stored, hnow.load, if_neg hpos.ne', Option.bind_some, contents_serialize hfits,
    Option.getD_some]

/-- An entry that the handler gives to the store is one that it has still to give to the log. -/
theorem mem_handed {e : RaftEntry} {rest : List Action} {entries : List RaftEntry}
    (h : .processEntry e :: rest <:+ raftReadyHandler entries) :
    e ∈ rest.flatMap Action.appended := by
  obtain ⟨before, hsplit⟩ := h
  have he : e ∈ entries := by
    have hmem : Action.processEntry e ∈ raftReadyHandler entries :=
      hsplit ▸ List.mem_append_right _ List.mem_cons_self
    simpa [raftReadyHandler] using hmem
  rcases List.append_eq_append_iff.mp hsplit with ⟨middle, _, hrest⟩ | ⟨middle, _, htail⟩
  · cases middle with
    | nil => cases hrest
    | cons a others =>
      rw [(List.cons.inj hrest).2]
      simp [Action.appended, he]
  · have hmem : Action.processEntry e ∈ [Action.appendEntries entries, .saveHardState,
        .notify entries] := htail ▸ List.mem_append_right _ List.mem_cons_self
    simp at hmem

namespace Covering

theorem congr (h : Covering s) (hhanding : ∃ replayed base, HandingOver replayed base s')
    (hahead : ∀ e ∈ s'.handed ++ s'.ready.getD [], s'.wal.lastIndex < e.index)
    (hhanded : ∀ e ∈ s.handed, e ∈ s'.handed) (hunderway : Underway s')
    (hkvstore : s'.kvstore = s.kvstore) (happlied : s'.applied = s.applied)
    (hfiles : s'.wal.disk.walFiles = s.wal.disk.walFiles)
    (hsnapshots : s'.wal.disk.snapshots = s.wal.disk.snapshots)
    (hlabel : ∀ n, s'.lastApplied = some n → 0 < n) : Covering s' := by
  refine ⟨fun e he => ?_, hhanding, hahead, hunderway, ?_, hsnapshots ▸ h.newest, hlabel⟩
  · have hcovered := (h.covers e (he.congr hkvstore happlied)).imp_right (hhanded e)
    rwa [OnDisk, Disk.stored, WAL.Recorded, ← hfiles, ← hsnapshots] at hcovered
  · have hlegible := h.legible
    rwa [WAL.Legible, ← hfiles] at hlegible

/-- What the handler gives to the log on disk comes after everything that is there, one entry after
the other. -/
theorem appending (h : Covering s) {entries : List RaftEntry} {rest : List Action}
    (hcritical : s.critical = .appendEntries entries :: rest) :
    (∀ e ∈ entries, 0 < e.index ∧ s.wal.lastIndex < e.index ∧
      ∀ x ∈ rest.flatMap Action.appended ++ s.ready.getD [], e.index < x.index) ∧
    entries.Pairwise fun a b => a.index < b.index := by
  obtain ⟨replayed, base, hhanding⟩ := h.handing
  have hhanded : s.handed = entries ++ rest.flatMap Action.appended := by
    rw [handed, hcritical]
    rfl
  have hgrowing := hhanding.growing
  rw [← handed, hhanded, List.append_assoc] at hgrowing
  obtain ⟨hentries, _, hafter⟩ := List.pairwise_append.mp (List.pairwise_append.mp hgrowing).2.1
  refine ⟨fun e he => ?_, hentries⟩
  have hlast := h.ahead e (List.mem_append_left _ (hhanded ▸ List.mem_append_left _ he))
  exact ⟨by omega, hlast, hafter e he⟩

private theorem handle (h : Covering s) {action : Action} {rest : List Action}
    {entries : List RaftEntry} (hcritical : s.critical = action :: rest)
    (hsuffix : s.critical <:+ raftReadyHandler entries) (hok : Preserves s .act)
    (hhanding : ∃ replayed base, HandingOver replayed base s')
    (hperform : { s with critical := rest }.perform action = some s') : Covering s' := by
  have hhanded : s.handed = action.appended ++ rest.flatMap Action.appended := by
    rw [handed, hcritical]
    rfl
  have hahead := h.ahead
  have hcovers := h.covers
  rw [hcritical] at hsuffix
  have hrest : rest <:+ raftReadyHandler entries := (List.suffix_cons action rest).trans hsuffix
  have hmem : action ∈ raftReadyHandler entries := hsuffix.subset List.mem_cons_self
  simp only [raftReadyHandler, List.mem_append, List.mem_map, List.mem_cons,
    List.not_mem_nil, or_false] at hmem
  obtain ⟨e, _, rfl⟩ | rfl | rfl | rfl := hmem
  · obtain rfl := Option.some.inj hperform
    rw [hhanded] at hahead hcovers
    refine ⟨fun x hx => ?_, hhanding, hahead, .handling hrest, h.legible, h.newest, h.label⟩
    rcases hx.processEntry with ⟨rfl, _⟩ | hx
    · exact .inr (mem_handed hsuffix)
    · exact hcovers x (hx.congr rfl rfl)
  · obtain rfl := Option.some.inj hperform
    obtain ⟨hlater, hgrow⟩ := h.appending hcritical
    obtain ⟨_, hfits⟩ := hok
    simp only [hcritical] at hfits
    have hproper : ∀ e ∈ entries, WAL.Fits e ∧ 0 < e.index := fun e he =>
      ⟨hfits e he, (hlater e he).1⟩
    have hrecorded := h.legible.recorded_appendEntries hproper hgrow fun e he => (hlater e he).2.1
    rw [hhanded] at hahead hcovers
    refine ⟨fun x hx => ?_, hhanding, fun e he => ?_, .handling hrest,
      h.legible.appendEntries hproper, ?_, h.label⟩
    · rcases hcovers x (hx.congr rfl rfl) with hdisk | hmem
      · exact .inl (hdisk.appendEntries entries)
      · rcases List.mem_append.mp hmem with hmem | hmem
        · exact .inl (.inr (hrecorded x hmem))
        · exact .inr hmem
    · refine WAL.lastIndex_appendEntries_lt ?_ fun x hx => (hlater x hx).2.2 e he
      exact hahead e (by rw [List.append_assoc]; exact List.mem_append_right _ he)
    · dsimp only
      rw [WAL.appendEntries_snapshots]
      exact h.newest
  · obtain rfl := Option.some.inj hperform
    refine h.congr hhanding ?_ ?_ (.handling hrest) rfl rfl rfl rfl h.label
    · rwa [hhanded] at hahead
    · exact fun e he => by rwa [hhanded] at he
  · obtain rfl := Option.some.inj hperform
    refine h.congr hhanding ?_ ?_ (.handling hrest) rfl rfl rfl rfl h.label
    · rwa [hhanded] at hahead
    · exact fun e he => by rwa [hhanded] at he

theorem act (h : Covering s) (hok : Preserves s .act) (hs : s.step .act = some s') :
    Covering s' := by
  obtain ⟨replayed, base, hhanding⟩ := h.handing
  have hhanding : ∃ replayed base, HandingOver replayed base s' :=
    ⟨replayed, base, hhanding.step (fun _ heq => by cases heq) hok.1 hs⟩
  obtain ⟨action, rest, hcritical, hperform⟩ := step_act hs
  have hahead := h.ahead
  have hhanded (hnone : action.appended = []) :
      s.handed = rest.flatMap Action.appended := by
    rw [handed, hcritical, List.flatMap_cons, hnone, List.nil_append]
  rcases h.underway with hsuffix | @⟨n, hpos, heq⟩ | @⟨n, hpos, heq⟩ | @⟨n, hstored, heq⟩ | heq
  · exact h.handle hcritical hsuffix hok hhanding hperform
  · obtain ⟨rfl, rfl⟩ := List.cons.inj (hcritical.symm.trans heq)
    obtain rfl := Option.some.inj hperform
    rw [hhanded rfl] at hahead
    exact h.congr hhanding hahead (fun e he => by rwa [hhanded rfl] at he) (.writing hpos rfl)
      rfl rfl rfl rfl h.label
  · obtain ⟨rfl, rfl⟩ := List.cons.inj (hcritical.symm.trans heq)
    obtain ⟨_, hok⟩ := hok
    simp only [hcritical] at hok
    obtain ⟨hfits, hahead'⟩ := hok
    dsimp only [perform] at hperform
    rw [if_neg (not_not.mpr hfits)] at hperform
    obtain ⟨hwidth, hperform⟩ := Option.ite_none_right_eq_some.mp hperform
    obtain rfl := Option.some.inj hperform
    obtain ⟨hstored, hnewest⟩ := stored_createSnapshot h.newest hpos hfits hwidth hahead' rfl
    rw [hhanded rfl] at hahead
    refine ⟨fun x hx => .inl (.inl ?_), hhanding, hahead, .written hstored rfl, h.legible, hnewest,
      h.label⟩
    exact (congrArg (fun contents => contents.get? x.key) hstored).trans hx.effect
  · -- what is cut off the log is in the snapshot
    obtain ⟨rfl, rfl⟩ := List.cons.inj (hcritical.symm.trans heq)
    obtain ⟨_, hnone⟩ := hok
    simp only [hcritical] at hnone
    obtain ⟨wal, ht, rfl⟩ := Option.map_eq_some_iff.mp hperform
    have hsnapshots : wal.disk.snapshots = s.wal.disk.snapshots := WAL.truncateFrom_snapshots ht
    refine ⟨fun x hx => .inl (.inl ?_), hhanding, fun e he => ?_, .truncated rfl,
      WAL.Legible.truncateFrom h.legible ht, ?_, h.label⟩
    · rw [Disk.stored, hsnapshots, ← Disk.stored, hstored]
      exact hx.effect
    · dsimp only at he
      rw [hnone] at he
      cases he
    · rw [hsnapshots]
      exact h.newest
  · obtain ⟨rfl, rfl⟩ := List.cons.inj (hcritical.symm.trans heq)
    obtain rfl := Option.some.inj hperform
    rw [hhanded rfl] at hahead
    exact h.congr hhanding hahead (fun e he => by rwa [hhanded rfl] at he)
      (@Underway.handling _ [] List.nil_suffix) rfl rfl rfl rfl h.label

end Covering

/-- The file of the backend is read last, over a server that would start without it. -/
theorem start_backendFile {config : ClusterConfig} {disk : Disk} (file : Option Bytes) :
    start config disk file = (start config disk none).map fun s =>
      { s with
        kvstore := { s.kvstore with backend := s.kvstore.backend.loadFromDisk file }
        backendFile := file } := by
  simp only [start, Option.bind_eq_bind, Option.map_bind, Function.comp_def, Option.map_some]
  rfl

/-- What is not read off the log comes from the snapshot. -/
theorem store_start {config : ClusterConfig} {disk : Disk}
    (h : start config disk none = some s) :
    s.kvstore.backend.store = applyAll disk.stored s.applied := by
  obtain ⟨snapshot, data, kvstore, entries, wal, rfl, rfl, hkvstore, _, rfl⟩ := start_cases h
  have hstored : kvstore.backend.store = disk.stored := by
    rw [Disk.stored]
    cases hsnapshot : SnapshotManager.loadLatestSnapshot disk.snapshots with
    | none =>
      rw [hsnapshot] at hkvstore
      obtain rfl := Option.some.inj hkvstore
      rfl
    | some snapshot =>
      rw [hsnapshot] at hkvstore
      dsimp only [Option.map_some, Option.getD_some] at hkvstore
      rw [Option.bind_some, Snapshot.contents]
      split_ifs at hkvstore with hdata
      · obtain rfl := Option.some.inj hkvstore
        rw [hdata]
        rfl
      · obtain ⟨r, hr, rfl⟩ := Option.map_eq_some_iff.mp hkvstore
        rw [hr]
        rfl
  exact (store_restoreFromEntries kvstore entries).trans (hstored ▸ rfl)

namespace Covering

theorem start {config : ClusterConfig} {disk : Disk} {backendFile : Option Bytes}
    (hlegible : WAL.Legible disk)
    (hnewest : ∃ newest, SnapshotManager.Newest disk.snapshots newest)
    (hagrees : BackendAgrees config disk backendFile)
    (h : KVServer.start config disk backendFile = some s) : Covering s := by
  have hhanding := HandingOver.start h
  rw [start_backendFile] at h
  obtain ⟨t, ht, rfl⟩ := Option.map_eq_some_iff.mp h
  have hstore := store_start ht
  have hquiet := hagrees t ht
  obtain ⟨_, _, _, entries, wal, _, _, _, hread, rfl⟩ := start_cases ht
  have hdisk : wal.disk = (WAL.openDir disk).disk := WAL.readAllEntries_disk hread
  have hlegible' := hlegible.openDir
  have hrecorded := hlegible'.read hread
  have hstored : wal.disk.stored = disk.stored := by
    rw [hdisk]
    rfl
  refine ⟨fun e he => .inl ?_, ⟨_, hhanding⟩, fun e he => (by cases he),
    @Underway.handling _ [] List.nil_suffix, hdisk ▸ hlegible', hdisk ▸ hnewest,
    fun n hn => (by cases hn)⟩
  cases hlast : lastOn entries e.key with
  | some x =>
    obtain rfl := he.last x hlast
    exact .inr (hdisk ▸ (hrecorded x (mem_of_lastOn hlast)).1)
  | none =>
    have heffect := (hquiet e.key hlast).symm.trans he.effect
    rw [Backend.get, hstore, get?_applyAll] at heffect
    dsimp only at heffect
    rw [hlast] at heffect
    exact .inl (hstored ▸ heffect)

private theorem ahead_call (h : Covering s) {c : RaftNode.Call} (hok : Preserves s (.call c))
    (hs : s.step (.call c) = some s') :
    ∀ e ∈ s'.handed ++ s'.ready.getD [], s'.wal.lastIndex < e.index := by
  obtain ⟨replayed, base, hhanding⟩ := h.handing
  obtain ⟨more, heq, hdelivered, hready⟩ := HandingOver.ready_call hs
  rw [heq]
  intro e he
  dsimp only [handed] at he ⊢
  rw [hready, ← List.append_assoc] at he
  rcases List.mem_append.mp he with he | he
  · exact h.ahead e he
  · by_cases happlies : s.node.AppliesMore c
    · exact (hok.2 happlies).trans_lt (hhanding.later hok.1 hdelivered e he)
    · rw [RaftNode.delivered_of_not_appliesMore happlies] at hdelivered
      rw [List.self_eq_append_right.mp hdelivered] at he
      cases he

private theorem ahead_quiet (h : Covering s) {event : Event}
    (hhanding : ∃ replayed base, HandingOver replayed base s')
    (hrunning : ∀ closed, event ≠ .restart closed) (hcall : ∀ c, event ≠ .call c)
    (hsame : Undisturbed s s') (hs : s.step event = some s') :
    ∀ e ∈ s'.handed ++ s'.ready.getD [], s'.wal.lastIndex < e.index := by
  obtain ⟨replayed, base, hbefore⟩ := h.handing
  obtain ⟨replayed', base', hafter⟩ := hhanding
  have hpending := hafter.logged
  rw [HandingOver.delivered_of_not_call hrunning hcall hs, hbefore.logged, hsame.logged] at hpending
  rw [hsame.wal, handed, ← List.append_cancel_left hpending]
  exact h.ahead

theorem step (h : Covering s) {event : Event} (hok : Preserves s event)
    (hs : s.step event = some s') : Covering s' := by
  by_cases hact : event = .act
  · subst hact
    exact h.act hok hs
  by_cases hrestart : ∃ closed, event = .restart closed
  · obtain ⟨closed, rfl⟩ := hrestart
    obtain ⟨_, hstart⟩ := Option.ite_none_left_eq_some.mp hs
    exact .start h.legible h.newest hok.2 hstart
  have hrunning : ∀ closed, event ≠ .restart closed := fun closed heq => hrestart ⟨closed, heq⟩
  have hsame := step_undisturbed hact hrunning hs
  have hhanding : ∃ replayed base, HandingOver replayed base s' := by
    obtain ⟨replayed, base, hhanding⟩ := h.handing
    exact ⟨replayed, base, hhanding.step hrunning hok.1 hs⟩
  refine h.congr hhanding ?_ (fun e he => ?_) ?_ hsame.kvstore hsame.applied (by rw [hsame.wal])
    (by rw [hsame.wal]) fun n hn => ?_
  · by_cases hcall : ∃ c, event = .call c
    · obtain ⟨c, rfl⟩ := hcall
      exact h.ahead_call hok hs
    · exact h.ahead_quiet hhanding hrunning (fun c heq => hcall ⟨c, heq⟩) hsame hs
  · rcases hsame.critical with heq | ⟨hnone, _⟩
    · rwa [handed, heq]
    · rw [handed, hnone] at he
      cases he
  · rcases hsame.critical with heq | ⟨_, ⟨entries, heq⟩ | ⟨n, hn, heq⟩⟩
    · rcases h.underway with h | ⟨hpos, h⟩ | ⟨hpos, h⟩ | ⟨hstored, h⟩ | h
      · exact .handling (heq ▸ h)
      · exact .taking hpos (heq.trans h)
      · exact .writing hpos (by rw [heq, h, hsame.kvstore])
      · exact .written (by rw [hsame.wal, hsame.kvstore, hstored]) (heq.trans h)
      · exact .truncated (heq.trans h)
    · exact .handling (by rw [heq])
    · exact .taking (h.label n hn) heq
  · rcases hsame.lastApplied n hn with hn | hshould
    · exact h.label n hn
    · unfold SnapshotManager.shouldSnapshot at hshould
      split_ifs at hshould
      omega

end Covering

end KVServer
end MyEtcd
