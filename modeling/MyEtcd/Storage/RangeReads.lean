import MyEtcd.Storage.KVStore

/-! Ranges beside single reads. Both ranges put the newest value into what they have found, whatever
the revision, and a single read does so only without one. -/
namespace MyEtcd
open Library

/-- The version that a read at a revision comes upon: the newest one up to it that is no
tombstone. -/
def KeyIndex.NewestUpTo (ki : KeyIndex) (atRev : Int) (v : MvccVersion) : Prop :=
  ∃ older newer, ki.versions = older ++ v :: newer ∧ v.revision ≤ atRev ∧ v.tombstone = false ∧
    ∀ u ∈ newer, u.revision ≤ atRev → u.tombstone = true

/-- If the key is there now, its value is the one of the version that is found at the revision. -/
def KeyIndex.ValueKept (ki : KeyIndex) (atRev : Int) : Prop :=
  ∀ v newest, ki.NewestUpTo atRev v → ki.versions.getLast? = some newest →
    newest.tombstone = false → v.value = newest.value

theorem KeyIndex.search_eq_some_iff {ki : KeyIndex} {atRev : Int} {v : MvccVersion} :
    search ki.versions atRev = some v ↔ ki.NewestUpTo atRev v := by
  rw [search, List.find?_eq_some_iff_append]
  constructor
  · rintro ⟨hv, newer, older, hsplit, hnewer⟩
    rw [Bool.and_eq_true, decide_eq_true_eq, Bool.not_eq_true'] at hv
    refine ⟨older.reverse, newer.reverse, ?_, hv.1, hv.2, fun u hu hrev => ?_⟩
    · rw [← List.reverse_reverse ki.versions, hsplit]
      simp
    · simpa [hrev] using hnewer u (List.mem_reverse.mp hu)
  · rintro ⟨older, newer, hsplit, hrev, htombstone, hnewer⟩
    refine ⟨by simp [hrev, htombstone], newer.reverse, older.reverse, by simp [hsplit], fun u hu => ?_⟩
    by_cases hle : u.revision ≤ atRev
    · simp [hnewer u (List.mem_reverse.mp hu) hle]
    · simp [hle]

namespace KVStore

/-- In ascending order exactly what single reads return for the keys inside. -/
structure AgreesWithGet (s : KVStore) (inside : Bytes → Prop) (atRev : Int) (kvs : List KeyValue) :
    Prop where
  ascending : kvs.Pairwise fun a b => a.key < b.key
  same : ∀ kv, kv ∈ kvs ↔ inside kv.key ∧ s.get kv.key atRev = some kv

section
variable {s : KVStore} {atRev : Int} {inside : Bytes → Bool}

theorem mem_visible_iff {kv : KeyValue} :
    kv ∈ ((s.mvcc.visible atRev).within inside).values ↔
      inside kv.key ∧ s.mvcc.get kv.key atRev = some kv := by
  have hget : ((s.mvcc.visible atRev).within inside).get? kv.key =
      if inside kv.key then s.mvcc.get kv.key atRev else none := by
    rw [OrderedMap.get?_within, MVCC.get_eq]
  constructor
  · intro hmem
    obtain ⟨⟨key, _⟩, hentry, rfl⟩ := List.mem_map.mp hmem
    have hfound := MVCC.get_of_mem_values hmem
    rw [OrderedMap.mem_entries_iff, OrderedMap.get?_within, ← MVCC.get_eq] at hentry
    obtain ⟨hinside, hread⟩ := Option.ite_none_right_eq_some.mp hentry
    exact ⟨MVCC.key_of_get hread ▸ hinside, hfound⟩
  · rintro ⟨hinside, hread⟩
    rw [if_pos hinside, hread, ← OrderedMap.mem_entries_iff] at hget
    exact List.mem_map.mpr ⟨_, hget, rfl⟩

theorem visible_ascending :
    ((s.mvcc.visible atRev).within inside).values.Pairwise fun a b => a.key < b.key := by
  refine List.pairwise_map.mpr (((s.mvcc.visible atRev).within inside).sorted.imp_of_mem ?_)
  intro a b ha hb hlt
  have hkey {e : Bytes × KeyValue} (he : e ∈ ((s.mvcc.visible atRev).within inside).entries) :
      e.2.key = e.1 := by
    rw [OrderedMap.mem_entries_iff, OrderedMap.get?_within, ← MVCC.get_eq] at he
    exact MVCC.key_of_get (Option.ite_none_right_eq_some.mp he).2
  rwa [hkey ha, hkey hb]

/-- What both ranges return, compared with single reads. -/
theorem agreesWithGet_iff :
    AgreesWithGet s (fun key => inside key) atRev
        (((s.mvcc.visible atRev).within inside).values.map fun kv => s.refreshed kv.key kv) ↔
      atRev = 0 ∨ ∀ key kv, inside key → s.mvcc.get key atRev = some kv → s.refreshed key kv = kv := by
  have hget {kv : KeyValue} (h : s.mvcc.get kv.key atRev = some kv) :
      s.get kv.key atRev = some (if atRev = 0 then s.refreshed kv.key kv else kv) := by
    rw [get, h, Option.map_some]
  constructor
  · intro h
    rw [or_iff_not_imp_left]
    intro hrev key kv hinside hread
    obtain rfl := MVCC.key_of_get hread
    have hmem := (h.same (s.refreshed kv.key kv)).mp
      (List.mem_map.mpr ⟨kv, mem_visible_iff.mpr ⟨hinside, hread⟩, rfl⟩)
    have hsame := (hget hread).symm.trans hmem.2
    rw [if_neg hrev] at hsame
    exact (Option.some.inj hsame).symm
  · intro h
    have hkept {kv : KeyValue} (hinside : inside kv.key)
        (hread : s.mvcc.get kv.key atRev = some kv) :
        s.get kv.key atRev = some (s.refreshed kv.key kv) := by
      rw [hget hread]
      split_ifs with hrev
      · rfl
      · rw [(h.resolve_left hrev) kv.key kv hinside hread]
    refine ⟨List.pairwise_map.mpr visible_ascending, fun kv => ⟨fun hmem => ?_, ?_⟩⟩
    · obtain ⟨found, hfound, rfl⟩ := List.mem_map.mp hmem
      obtain ⟨hinside, hread⟩ := mem_visible_iff.mp hfound
      exact ⟨hinside, hkept hinside hread⟩
    · rintro ⟨hinside, hread⟩
      obtain ⟨found, hfound, hkv⟩ := Option.map_eq_some_iff.mp hread
      have hkey := MVCC.key_of_get hfound
      rw [← hkey] at hinside hfound hread
      have hsame := Option.some.inj ((hkept hinside hfound).symm.trans hread)
      exact List.mem_map.mpr ⟨found, mem_visible_iff.mpr ⟨hinside, hfound⟩, hsame⟩

/-- Where the store mirrors its contents, the backend has the value of the newest version. -/
theorem refreshed_iff {m : LatestMap} (h : Mirrors s m) (hrev : atRev ≠ 0) (key : Bytes) :
    (∀ kv, s.mvcc.get key atRev = some kv → s.refreshed key kv = kv) ↔
      (s.mvcc.keyIndex key).ValueKept atRev := by
  have hnewest := h.read key
  have hstored := h.stored key
  rw [← hnewest] at hstored
  rw [MVCC.get_keyIndex] at hstored ⊢
  generalize s.mvcc.keyIndex key = ki at hstored ⊢
  rw [KeyIndex.read_eq, if_pos rfl] at hstored
  rw [KeyIndex.read_eq, if_neg hrev]
  have hdeleted : ki.isDeleted = (ki.versions.getLast?.map MvccVersion.tombstone).getD true := by
    unfold KeyIndex.isDeleted
    cases ki.versions.getLast? <;> rfl
  constructor
  · intro hread v newest hv hlast hthere
    rw [hdeleted, hlast, Option.map_some, Option.getD_some, hthere] at hstored hread
    have hsame := hread (v.keyValue key) (by rw [KeyIndex.search_eq_some_iff.mpr hv]; rfl)
    rw [refreshed, hstored] at hsame
    exact (congrArg KeyValue.value hsame).symm
  · intro hkept kv hread
    obtain ⟨hthere, hfound⟩ := Option.ite_none_left_eq_some.mp hread
    obtain ⟨v, hv, rfl⟩ := Option.map_eq_some_iff.mp hfound
    cases hlast : ki.versions.getLast? with
    | none =>
      rw [hdeleted, hlast] at hthere
      exact absurd rfl hthere
    | some newest =>
      rw [hdeleted, hlast, Option.map_some, Option.getD_some, Bool.not_eq_true] at hthere
      have hvalue := hkept v newest (KeyIndex.search_eq_some_iff.mp hv) hlast hthere
      rw [hdeleted, hlast, Option.map_some, Option.getD_some, hthere] at hstored
      rw [refreshed, hstored]
      exact congrArg (fun value => { v.keyValue key with value }) hvalue.symm

end

/-- Whatever has been written and compacted, both ranges agree with single reads without a revision;
at a revision they do exactly when no key inside has got another value since. -/
theorem ranges_agree_iff (ops : List Op) (atRev : Int) :
    (∀ start stop, AgreesWithGet (run {} ops) (fun key => start ≤ key ∧ key < stop) atRev
        ((run {} ops).range start stop atRev 0) ↔
      atRev = 0 ∨ ∀ key, start ≤ key → key < stop →
        ((run {} ops).mvcc.keyIndex key).ValueKept atRev) ∧
    ∀ front, AgreesWithGet (run {} ops) (fun key => front <+: key) atRev
        ((run {} ops).prefixRange front atRev 0) ↔
      atRev = 0 ∨ ∀ key, front <+: key →
        ((run {} ops).mvcc.keyIndex key).ValueKept atRev := by
  have h : Mirrors (run {} ops) (LatestMap.run {} ops) :=
    Mirrors.run ⟨rfl, fun _ => rfl, fun _ => rfl⟩ ops
  generalize run {} ops = s at h ⊢
  have hagree (inside : Bytes → Bool) {p : Bytes → Prop} (hp : ∀ key, inside key ↔ p key) :
      AgreesWithGet s p atRev
          (((s.mvcc.visible atRev).within inside).values.map fun kv => s.refreshed kv.key kv) ↔
        atRev = 0 ∨ ∀ key, p key → (s.mvcc.keyIndex key).ValueKept atRev := by
    obtain rfl : (fun key => inside key = true) = p := funext fun key => propext (hp key)
    rw [agreesWithGet_iff]
    refine or_congr_right' fun hrev => forall_congr' fun key => ?_
    rw [← refreshed_iff h hrev]
    exact forall_comm
  refine ⟨fun start stop => ?_, fun front => ?_⟩
  · have hrange := hagree (p := fun key => start ≤ key ∧ key < stop)
      (fun key => start ≤ key ∧ OrderedMap.below stop key) fun key => by simp [OrderedMap.below]
    rw [range, MVCC.range_eq]
    simp only [and_imp] at hrange
    exact hrange
  · rw [prefixRange, MVCC.prefixRange_eq]
    exact hagree _ fun key => List.isPrefixOf_iff_prefix

/-- A key that has been put twice. A range at the first revision shows the second value. -/
theorem range_shows_newest :
    ¬ AgreesWithGet (run {} [.put [107] [97] 0, .put [107] [98] 0]) (fun key => [] ≤ key ∧ key < [108]) 1
      ((run {} [.put [107] [97] 0, .put [107] [98] 0]).range [] [108] 1 0) := by
  intro h
  have hrange := (h.same ⟨[107], [98], 1, 1, 1, 0⟩).mp (by decide)
  exact absurd hrange.2 (by decide)

end KVStore
end MyEtcd
