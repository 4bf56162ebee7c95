import MyEtcd.Cluster.Durability
import MyEtcd.Server.SnapshotSuffix

/-! The stores of the replicas. Every node builds its store from the sequence that all of them deliver,
so a store is an earlier or a later state of any other. -/
namespace MyEtcd
open Library

namespace EtcdServer

/-- Applying entries puts versions behind those that are there, with revisions of their own. -/
theorem versions_processRaftEntries (kvstore : KVStore) (entries : List RaftEntry) (key : Bytes) :
    ∃ added, ((processRaftEntries kvstore entries).mvcc.keyIndex key).versions =
        (kvstore.mvcc.keyIndex key).versions ++ added ∧
      ∀ v ∈ added, kvstore.currentRevision ≤ v.revision := by
  induction entries generalizing kvstore with
  | nil => exact ⟨[], (List.append_nil _).symm, fun v hv => by cases hv⟩
  | cons e rest ih =>
    obtain ⟨later, hlater, hrevs⟩ := ih (processEntry kvstore e)
    have hstep : ∃ added, ((processEntry kvstore e).mvcc.keyIndex key).versions =
          (kvstore.mvcc.keyIndex key).versions ++ added ∧
        ∀ v ∈ added, kvstore.currentRevision ≤ v.revision := by
      have hwrite {w : Write} (hw : w.revision = kvstore.currentRevision) :
          ∃ added, ((kvstore.mvcc.allocateRevision.2.write w).keyIndex key).versions =
              (kvstore.mvcc.keyIndex key).versions ++ added ∧
            ∀ v ∈ added, kvstore.currentRevision ≤ v.revision := by
        obtain ⟨added, hversions, hadded⟩ := kvstore.mvcc.allocateRevision.2.versions_write w key
        refine ⟨added, hversions, fun v hv => ?_⟩
        have hmem := List.mem_map_of_mem (f := MvccVersion.revision) hv
        rw [hadded] at hmem
        split_ifs at hmem
        · exact (hw ▸ (List.mem_singleton.mp hmem).ge)
        · cases hmem
      unfold processEntry
      cases e.type with
      | put => exact hwrite (w := .put e.key kvstore.mvcc.currentRev e.value e.leaseId) rfl
      | delete => exact hwrite (w := .delete e.key kvstore.mvcc.currentRev) rfl
      | _ => exact ⟨[], (List.append_nil _).symm, fun v hv => by cases hv⟩
    obtain ⟨added, hadded, hadds⟩ := hstep
    refine ⟨added ++ later, by rw [← List.append_assoc, ← hadded]; exact hlater, fun v hv => ?_⟩
    rcases List.mem_append.mp hv with hv | hv
    · exact hadds v hv
    · refine le_trans ?_ (hrevs v hv)
      rw [currentRevision_processEntry]
      split_ifs <;> omega

/-- What a search finds among old versions it finds among these and newer ones. -/
theorem search_append {old added : List MvccVersion} {atRev : Int}
    (h : ∀ v ∈ added, atRev < v.revision) :
    KeyIndex.search (old ++ added) atRev = KeyIndex.search old atRev := by
  have hnone : added.reverse.find? (fun v => v.revision ≤ atRev && !v.tombstone) = none := by
    refine List.find?_eq_none.mpr fun v hv => ?_
    have := h v (List.mem_reverse.mp hv)
    simp [not_le.mpr this]
  rw [KeyIndex.search, KeyIndex.search, List.reverse_append, List.find?_append, hnone,
    Option.none_or]

/-- A read at a revision that has been given out does not change with what is applied later, as long
as the key is there. -/
theorem get_processRaftEntries {kvstore : KVStore} {entries : List RaftEntry} {key : Bytes}
    {atRev : Int} (hpos : 1 ≤ atRev) (hpast : atRev < kvstore.currentRevision)
    (hthere : (kvstore.get key 0).isSome)
    (hstill : ((processRaftEntries kvstore entries).get key 0).isSome) :
    (processRaftEntries kvstore entries).get key atRev = kvstore.get key atRev := by
  have hread {s : KVStore} (hs : (s.get key 0).isSome) : s.get key atRev =
      (KeyIndex.search (s.mvcc.keyIndex key).versions atRev).map fun v => v.keyValue key := by
    have hne : atRev ≠ 0 := by omega
    rw [KVStore.get, Option.isSome_map, MVCC.get_keyIndex, KeyIndex.isSome_read_zero,
      Bool.not_eq_true'] at hs
    rw [KVStore.get, MVCC.get_keyIndex, KeyIndex.read_eq, hs, if_neg Bool.false_ne_true, if_neg hne]
    simp only [if_neg hne, Option.map_id']
  obtain ⟨added, hversions, hadded⟩ := versions_processRaftEntries kvstore entries key
  rw [hread hstill, hread hthere, hversions,
    search_append fun v hv => hpast.trans_le (hadded v hv)]

/-- What the last write of a key leaves is what a read shows. -/
theorem value_processRaftEntries (entries : List RaftEntry) (key : Bytes) :
    ((processRaftEntries {} entries).get key 0).map KeyValue.value =
      (lastOn entries key).bind RaftEntry.effect := by
  obtain ⟨hshows, hstore⟩ := KVStore.applyEntries_fresh entries
  have hsame : processRaftEntries {} entries = KVStore.applyEntries {} entries := by
    refine List.foldl_ext _ _ _ fun s e _ => ?_
    unfold processEntry KVStore.applyEntry
    cases e.type <;> rfl
  rw [hsame, (KVStore.reads_of_mirrored hshows hstore).2, get?_applyAll]
  cases lastOn entries key <;> rfl

end EtcdServer

/-- In a list with rising indices the last write of a key comes from no earlier than any other. -/
theorem index_le_lastOn {entries : List RaftEntry} {first : Nat}
    (hindices : entries.map RaftEntry.index = List.range' first entries.length) {e : RaftEntry}
    (he : e ∈ entries) (hwrites : EtcdServer.Writes e) :
    ∃ x, lastOn entries e.key = some x ∧ EtcdServer.Writes x ∧ e.index ≤ x.index := by
  have hmem : e ∈ entries.filter fun x => EtcdServer.Writes x ∧ x.key = e.key :=
    List.mem_filter.mpr ⟨he, decide_eq_true ⟨hwrites, rfl⟩⟩
  have hsorted : (entries.filter fun x => EtcdServer.Writes x ∧ x.key = e.key).Pairwise
      (fun x y => x.index < y.index) := by
    refine List.Pairwise.filter _ (List.pairwise_map.mp ?_)
    rw [hindices]
    exact List.pairwise_lt_range'
  obtain ⟨x, hx⟩ : ∃ x, lastOn entries e.key = some x :=
    ⟨_, List.getLast?_eq_some_getLast (List.ne_nil_of_mem hmem)⟩
  refine ⟨x, hx, (of_decide_eq_true (List.mem_filter.mp (List.mem_of_getLast? hx)).2).1, ?_⟩
  obtain ⟨front, hfront⟩ := List.getLast?_eq_some_iff.mp hx
  rw [hfront] at hmem hsorted
  rcases List.mem_append.mp hmem with hmem | hmem
  · exact (((List.pairwise_append.mp hsorted).2.2 e hmem x List.mem_cons_self)).le
  · exact (List.mem_singleton.mp hmem ▸ le_rfl)

/-- An entry of a numbered list is in every front that reaches its index. -/
theorem mem_of_isPrefix {front entries : List RaftEntry} (hfront : front <+: entries)
    (hindices : entries.map RaftEntry.index = List.range' 1 entries.length) {e : RaftEntry}
    (he : e ∈ entries) (hle : e.index ≤ front.length) : e ∈ front := by
  obtain ⟨k, hk⟩ := List.getElem?_of_mem he
  have hindex := RaftLog.contiguous_iff_map.mpr hindices k e hk
  obtain ⟨rest, rfl⟩ := hfront
  rw [List.getElem?_append_left (by omega)] at hk
  exact List.mem_of_getElem? hk

namespace Cluster
variable {s s' : Cluster}

def store (s : Cluster) (p : Nat) : KVStore :=
  EtcdServer.processRaftEntries {} (s.node p).delivered

/-- Replicas differ only in how far they have come: nodes that have applied the same number of
entries have the same store, a write that one of them shows is shown by every other that has come as
far, unless a later one has replaced it, and reads of the past agree. -/
theorem replicas_agree (M : Membership)
    (h : Run (step M.addresses) Sound (start M.addresses) s)
    (h' : Run (step M.addresses) Sound s s') (p q : Nat) :
    ((s.node p).lastApplied = (s'.node q).lastApplied → s.store p = s'.store q) ∧
    (∀ e ∈ (s.node p).delivered, EtcdServer.Writes e → e.index ≤ (s'.node q).lastApplied →
      ∃ x ∈ (s'.node q).delivered, EtcdServer.Writes x ∧ x.key = e.key ∧ e.index ≤ x.index ∧
        ((s'.store q).get e.key 0).map KeyValue.value = x.effect) ∧
    ∀ key atRev, 1 ≤ atRev → atRev < (s.store p).currentRevision →
      atRev < (s'.store q).currentRevision → ((s.store p).get key 0).isSome →
      ((s'.store q).get key 0).isSome → (s.store p).get key atRev = (s'.store q).get key atRev := by
  obtain ⟨P, hsafe, _⟩ := (Safe.start M.addresses).run M.numbered h
  obtain ⟨P', hsafe', _, hkept⟩ := hsafe.run M.numbered h'
  have hindices := hsafe.delivered_indices p
  have hindices' := hsafe'.delivered_indices q
  have hlength : (s.node p).delivered.length = (s.node p).lastApplied := by
    simpa using congrArg List.length hindices
  have hlength' : (s'.node q).delivered.length = (s'.node q).lastApplied := by
    simpa using congrArg List.length hindices'
  have hcomparable : (s.node p).delivered <+: (s'.node q).delivered ∨
      (s'.node q).delivered <+: (s.node p).delivered := by
    rcases hsafe'.delivered_comparable p q with hle | hle
    · exact .inl ((hkept p).2.trans hle)
    · exact List.prefix_or_prefix_of_prefix (hkept p).2 hle
  refine ⟨fun heq => ?_, fun e he hwrites hle => ?_, fun key atRev hpos hp hq hthere hthere' => ?_⟩
  · have hsame : (s.node p).delivered = (s'.node q).delivered := by
      rcases hcomparable with hle | hle
      · exact hle.eq_of_length (by omega)
      · exact (hle.eq_of_length (by omega)).symm
    rw [store, store, hsame]
  · have hmem : e ∈ (s'.node q).delivered := by
      rcases hcomparable with hfront | hfront
      · exact hfront.subset he
      · exact mem_of_isPrefix hfront (hlength.symm ▸ hindices) he (hlength' ▸ hle)
    obtain ⟨x, hx, hxwrites, hindex⟩ := index_le_lastOn (hlength' ▸ hindices') hmem hwrites
    have hkey := (of_decide_eq_true (List.mem_filter.mp (List.mem_of_getLast? hx)).2).2
    refine ⟨x, mem_of_lastOn hx, hxwrites, hkey, hindex, ?_⟩
    rw [store, EtcdServer.value_processRaftEntries, hx]
    rfl
  · have hreads {a b : List RaftEntry} (hfront : a <+: b)
        (hpast : atRev < (EtcdServer.processRaftEntries {} a).currentRevision)
        (ha : ((EtcdServer.processRaftEntries {} a).get key 0).isSome)
        (hb : ((EtcdServer.processRaftEntries {} b).get key 0).isSome) :
        (EtcdServer.processRaftEntries {} b).get key atRev =
          (EtcdServer.processRaftEntries {} a).get key atRev := by
      obtain ⟨rest, rfl⟩ := hfront
      rw [EtcdServer.processRaftEntries, List.foldl_append] at hb ⊢
      exact EtcdServer.get_processRaftEntries hpos hpast ha hb
    rcases hcomparable with hfront | hfront
    · exact (hreads hfront hp hthere hthere').symm
    · exact hreads hfront hq hthere' hthere

/-- Once node 2 has come as far as node 1, it shows what node 1 has acknowledged. -/
theorem replicas_agree_commitOnBoth : ∃ s e x,
    Run (step trio.addresses) Sound (start trio.addresses) s ∧ e ∈ (s.node 1).delivered ∧
    s.store 1 = s.store 2 ∧ e.index ≤ x.index ∧
    ((s.store 2).get e.key 0).map KeyValue.value = RaftEntry.effect x := by
  obtain ⟨s, h, heq, e, he, hwrites, hle⟩ := reachable_of_execute (step trio.addresses) Sound
    (start trio.addresses) commitOnBoth (P := fun s =>
      (s.node 1).lastApplied = (s.node 2).lastApplied ∧
      ∃ e ∈ (s.node 1).delivered, EtcdServer.Writes e ∧ e.index ≤ (s.node 2).lastApplied)
    (by decide)
  obtain ⟨hsame, hshown, _⟩ := replicas_agree trio h .start 1 2
  obtain ⟨x, _, _, _, hindex, hvalue⟩ := hshown e he hwrites hle
  exact ⟨s, e, x, h, he, hsame heq, hindex, hvalue⟩

end Cluster
end MyEtcd
