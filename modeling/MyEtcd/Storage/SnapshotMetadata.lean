import MyEtcd.Storage.SnapshotData

/-! What a snapshot keeps of the metadata of the keys.
Only keys and values are written. Loading gives every key a first version of its own, in key order,
so the metadata comes back only where the calls have numbered the keys in the same way. -/
namespace MyEtcd
open Library

/-- The first version of a key, as the `i`-th write to a store and without a lease. -/
def firstVersion (i : Nat) (e : Bytes × Bytes) : KeyValue where
  key := e.1
  value := e.2
  createRevision := i + 1
  modRevision := i + 1
  version := 1

/-- The versions are those of puts without a lease, one for each of the listed keys. -/
structure Numbered (m : MVCC) (l : List (Bytes × Bytes)) : Prop where
  next : m.currentRev = l.length + 1
  untouched : ∀ key, (∀ e ∈ l, e.1 ≠ key) → m.index.get? key = none
  first : ∀ i e, l[i]? = some e → m.get e.1 0 = some (firstVersion i e)

namespace Numbered
variable {m : MVCC} {l : List (Bytes × Bytes)}

theorem fresh : Numbered {} [] := ⟨rfl, fun _ _ => rfl, fun i e h => by simp at h⟩

theorem put (h : Numbered m l) {e : Bytes × Bytes} (hnew : ∀ x ∈ l, x.1 ≠ e.1) :
    Numbered (KVStore.rebuildKey m e) (l ++ [e]) := by
  have hindex : (KVStore.rebuildKey m e).index =
      m.index.insert e.1 (({ key := e.1 } : KeyIndex).put m.currentRev e.2 0) := by
    simp only [KVStore.rebuildKey, MVCC.allocateRevision, MVCC.put, h.untouched _ hnew]
  refine ⟨?_, fun key hkey => ?_, fun i x hx => ?_⟩
  · simp only [KVStore.rebuildKey, MVCC.allocateRevision, MVCC.put, h.untouched _ hnew, h.next]
    simp
  · have hne : key ≠ e.1 := (hkey e (by simp)).symm
    rw [hindex, OrderedMap.get?_insert_ne _ _ hne]
    exact h.untouched key fun x hx => hkey x (by simp [hx])
  · rw [MVCC.get, hindex]
    rcases Nat.lt_or_ge i l.length with hlt | hge
    · rw [List.getElem?_append_left hlt] at hx
      rw [OrderedMap.get?_insert_ne _ _ (hnew x (List.mem_of_getElem? hx))]
      exact h.first i x hx
    · rw [List.getElem?_append_right hge, List.getElem?_singleton] at hx
      obtain ⟨hi, heq⟩ := Option.ite_none_right_eq_some.mp hx
      obtain rfl := Option.some.inj heq
      obtain rfl : i = l.length := by omega
      rw [OrderedMap.get?_insert_self, h.next]
      rfl

theorem compact (h : Numbered m l) (rev : Int) : Numbered (m.compact rev) l := by
  refine ⟨h.next, fun key hkey => ?_, fun i e he => ?_⟩
  · rw [MVCC.compact, OrderedMap.get?_filterMap, h.untouched key hkey]
    rfl
  · rw [m.get_compact_zero]
    exact h.first i e he

theorem get_eq {m' : MVCC} (h : Numbered m l) (h' : Numbered m' l) (key : Bytes) :
    m.get key 0 = m'.get key 0 := by
  by_cases hkey : ∃ e ∈ l, e.1 = key
  · obtain ⟨e, he, rfl⟩ := hkey
    obtain ⟨i, hi⟩ := List.mem_iff_getElem?.mp he
    rw [h.first i e hi, h'.first i e hi]
  · have hnone : ∀ e ∈ l, e.1 ≠ key := fun e he heq => hkey ⟨e, he, heq⟩
    rw [MVCC.get, MVCC.get, h.untouched key hnone, h'.untouched key hnone]

theorem rebuild (h : Numbered m l) {rest : List (Bytes × Bytes)}
    (hsorted : (l ++ rest).Pairwise fun a b => a.1 < b.1) :
    Numbered (rest.foldl KVStore.rebuildKey m) (l ++ rest) := by
  induction rest generalizing m l with
  | nil => rwa [List.append_nil]
  | cons e rest ih =>
    have hnew : ∀ x ∈ l, x.1 ≠ e.1 := fun x hx =>
      ((List.pairwise_append.mp hsorted).2.2 x hx e List.mem_cons_self).ne
    rw [List.append_cons] at hsorted ⊢
    exact ih (h.put hnew) hsorted

end Numbered

namespace KVStore

def Op.Plain : Op → Prop
  | .put _ _ leaseId | .putWithPrev _ _ leaseId => leaseId = 0
  | .delete _ => False
  | .compact _ => True

def Op.pair? : Op → Option (Bytes × Bytes)
  | .put key value _ | .putWithPrev key value _ => some (key, value)
  | _ => none

def pairs (ops : List Op) : List (Bytes × Bytes) := ops.filterMap Op.pair?

/-- The calls put keys in ascending order, without leases, and delete none; the snapshot has room
for the lengths of the strings and the number of pairs. -/
structure Ascending (ops : List Op) : Prop where
  plain : ∀ op ∈ ops, op.Plain
  ascending : (pairs ops).Pairwise fun a b => a.1 < b.1
  count : (pairs ops).length < 2 ^ 32
  key : ∀ e ∈ pairs ops, e.1.length < 2 ^ 32
  value : ∀ e ∈ pairs ops, e.2.length < 2 ^ 32

/-- A fresh store makes all of the store out of its snapshot. -/
def RestoresAll (s : KVStore) : Prop :=
  ∃ r, deserialize {} s.serialize = some (true, r) ∧ (∀ key, r.get key 0 = s.get key 0) ∧
    r.currentRevision = s.currentRevision

/-- Plain calls number the keys that they put. -/
theorem numbered_run {s : KVStore} {l : List (Bytes × Bytes)} (h : Numbered s.mvcc l)
    {ops : List Op} (hplain : ∀ op ∈ ops, op.Plain)
    (hsorted : (l ++ pairs ops).Pairwise fun a b => a.1 < b.1) :
    Numbered (run s ops).mvcc (l ++ pairs ops) := by
  induction ops generalizing s l with
  | nil =>
    rw [pairs, List.filterMap_nil, List.append_nil]
    exact h
  | cons op rest ih =>
    have hrest : ∀ op ∈ rest, op.Plain := fun op hop => hplain op (List.mem_cons_of_mem _ hop)
    have hput {key value : Bytes} {s' : KVStore}
        (hmvcc : s'.mvcc = rebuildKey s.mvcc (key, value))
        (hpairs : pairs (op :: rest) = (key, value) :: pairs rest) :
        Numbered (run s' rest).mvcc (l ++ pairs (op :: rest)) := by
      rw [hpairs] at hsorted ⊢
      have hnew : ∀ x ∈ l, x.1 ≠ key := fun x hx =>
        ((List.pairwise_append.mp hsorted).2.2 x hx (key, value) List.mem_cons_self).ne
      rw [List.append_cons] at hsorted ⊢
      refine ih ?_ hrest hsorted
      rw [hmvcc]
      exact h.put hnew
    cases op with
    | put key value leaseId =>
      obtain rfl : leaseId = 0 := hplain _ List.mem_cons_self
      exact hput rfl rfl
    | putWithPrev key value leaseId =>
      obtain rfl : leaseId = 0 := hplain _ List.mem_cons_self
      exact hput rfl rfl
    | delete key => exact absurd (hplain _ List.mem_cons_self) id
    | compact rev => exact ih (h.compact rev) hrest hsorted

/-- A numbered store that mirrors a map has the listed pairs in its backend. -/
theorem entries_of_numbered {s : KVStore} {m : LatestMap} (hmirrors : Mirrors s m)
    {l : List (Bytes × Bytes)} (h : Numbered s.mvcc l)
    (hsorted : l.Pairwise fun a b => a.1 < b.1) : s.backend.store.entries = l := by
  have hstore : s.backend.store = ⟨l, hsorted⟩ := by
    refine OrderedMap.ext_get? fun key => ?_
    have hget : s.backend.store.get? key = (s.mvcc.get key 0).map KeyValue.value := by
      rw [← Backend.get, hmirrors.stored, ← hmirrors.read, Option.map_map]
      rfl
    rw [hget]
    by_cases hkey : ∃ e ∈ l, e.1 = key
    · obtain ⟨e, he, rfl⟩ := hkey
      obtain ⟨i, hi⟩ := List.mem_iff_getElem?.mp he
      rw [h.first i e hi, (OrderedMap.mem_entries_iff ⟨l, hsorted⟩ e.1 e.2).mp he]
      rfl
    · have hnone : ∀ e ∈ l, e.1 ≠ key := fun e he heq => hkey ⟨e, he, heq⟩
      have hmissing : (⟨l, hsorted⟩ : OrderedMap Bytes Bytes).get? key = none := by
        rw [← Option.not_isSome_iff_eq_none, ← OrderedMap.mem_keys_iff]
        rintro hmem
        obtain ⟨e, he, heq⟩ := List.mem_map.mp hmem
        exact hnone e he heq
      rw [hmissing, MVCC.get, h.untouched key hnone]
      rfl
  rw [hstore]

theorem mirrors_run (ops : List Op) : Mirrors (run {} ops) (LatestMap.run {} ops) :=
  Mirrors.run ⟨rfl, fun _ => rfl, fun _ => rfl⟩ ops

theorem restoresAll_of_ascending {ops : List Op} (h : Ascending ops) : RestoresAll (run {} ops) := by
  have hrun : Numbered (run {} ops).mvcc (pairs ops) :=
    numbered_run (l := []) .fresh h.plain h.ascending
  have hentries := entries_of_numbered (mirrors_run ops) hrun h.ascending
  have hencodable : Encodable (run {} ops).backend.store := by
    refine ⟨?_, ?_, ?_⟩
    · rw [OrderedMap.size, hentries]
      exact h.count
    · rw [hentries]
      exact h.key
    · rw [hentries]
      exact h.value
  refine ⟨_, deserialize_serialize hencodable, fun key => ?_, ?_⟩
  · have hload : Numbered ((run {} ops).backend.store.entries.foldl rebuildKey {}) (pairs ops) := by
      rw [hentries]
      exact Numbered.fresh.rebuild h.ascending
    rw [get, get, hload.get_eq hrun]
    rfl
  · rw [hentries, currentRevision, currentRevision, hrun.next]
    exact (Numbered.fresh.rebuild h.ascending).next

/-- The map has the listed pairs in it, each as the write of its place in the list. -/
structure Lists (m : LatestMap) (l : List (Bytes × Bytes)) : Prop where
  next : m.next = l.length + 1
  content : ∀ (i : Nat) e, l[i]? = some e → m.contents.get? e.1 = some ⟨e.2, i + 1, 0⟩

theorem modRevision_lt_next (ops : List Op) : 1 ≤ (LatestMap.run {} ops).next ∧
    ∀ key c, (LatestMap.run {} ops).contents.get? key = some c →
      c.modRevision < (LatestMap.run {} ops).next := by
  induction ops using List.reverseRecOn with
  | nil => exact ⟨le_rfl, fun key c hc => by cases hc⟩
  | append_singleton rest op ih =>
    have hrun : LatestMap.run {} (rest ++ [op]) = (LatestMap.run {} rest).after op := by
      simp [LatestMap.run]
    obtain ⟨hpos, hbound⟩ := ih
    have hput (key value : Bytes) (leaseId : Int) : ∀ k c,
        ((LatestMap.run {} rest).contents.insert key
          ⟨value, (LatestMap.run {} rest).next, leaseId⟩).get? k = some c →
        c.modRevision < (LatestMap.run {} rest).next + 1 := by
      intro k c hc
      rw [OrderedMap.get?_insert] at hc
      split_ifs at hc
      · obtain rfl := Option.some.inj hc
        exact Int.lt_succ _
      · exact (hbound k c hc).trans (Int.lt_succ _)
    rw [hrun]
    cases op with
    | put key value leaseId => exact ⟨Int.le_add_one hpos, hput key value leaseId⟩
    | putWithPrev key value leaseId => exact ⟨Int.le_add_one hpos, hput key value leaseId⟩
    | delete key =>
      refine ⟨Int.le_add_one hpos, fun k c hc => ?_⟩
      have hc : ((LatestMap.run {} rest).contents.erase key).get? k = some c := hc
      rw [OrderedMap.get?_erase] at hc
      obtain ⟨_, hc⟩ := Option.ite_none_left_eq_some.mp hc
      exact (hbound k c hc).trans (Int.lt_succ _)
    | compact rev => exact ⟨hpos, hbound⟩

section
variable {m : LatestMap} {l : List (Bytes × Bytes)} {key value : Bytes} {leaseId : Int}

/-- The last of the listed pairs is the one that has just been put: no older content has its
revision. -/
theorem Lists.of_put (hpos : 1 ≤ m.next)
    (hbound : ∀ k c, m.contents.get? k = some c → c.modRevision < m.next)
    (h : Lists { next := m.next + 1, contents := m.contents.insert key ⟨value, m.next, leaseId⟩ } l) :
    leaseId = 0 ∧ ∃ front, l = front ++ [(key, value)] ∧ Lists m front := by
  have hnext : m.next = l.length := by
    have hnext := h.next
    dsimp only at hnext
    omega
  have hne : l ≠ [] := by
    rintro rfl
    rw [List.length_nil] at hnext
    omega
  obtain ⟨front, e, rfl⟩ := List.eq_nil_or_concat l |>.resolve_left hne
  rw [List.concat_eq_append] at *
  rw [List.length_append, List.length_singleton] at hnext
  have hlast := h.content front.length e (by simp)
  rw [OrderedMap.get?_insert] at hlast
  have hkey : e.1 = key := by
    by_contra hne
    rw [if_neg hne] at hlast
    have hlt := hbound e.1 _ hlast
    dsimp only at hlt
    omega
  rw [if_pos hkey] at hlast
  obtain ⟨hvalue, _, hlease⟩ := Content.mk.injEq .. ▸ Option.some.inj hlast
  refine ⟨hlease, front, by rw [← hkey, hvalue], by omega, fun i x hx => ?_⟩
  have hlt := (List.getElem?_eq_some_iff.mp hx).1
  have hcontent := h.content i x (by rwa [List.getElem?_append_left hlt])
  rw [OrderedMap.get?_insert] at hcontent
  split_ifs at hcontent with hsame
  · have hrevision := congrArg Content.modRevision (Option.some.inj hcontent)
    dsimp only at hrevision
    omega
  · exact hcontent

/-- Where a revision has gone into a deletion, fewer pairs are live than there have been revisions. -/
theorem Lists.not_of_delete (hpos : 1 ≤ m.next)
    (hbound : ∀ k c, m.contents.get? k = some c → c.modRevision < m.next) :
    ¬ Lists { next := m.next + 1, contents := m.contents.erase key } l := by
  intro h
  have hnext : m.next + 1 = l.length + 1 := h.next
  obtain ⟨i, hi⟩ : ∃ i, l.length = i + 1 := ⟨l.length - 1, by omega⟩
  obtain ⟨e, he⟩ : ∃ e, l[i]? = some e := ⟨_, List.getElem?_eq_getElem (by omega)⟩
  have hcontent : (m.contents.erase key).get? e.1 = some ⟨e.2, i + 1, 0⟩ := h.content i e he
  rw [OrderedMap.get?_erase] at hcontent
  obtain ⟨_, hcontent⟩ := Option.ite_none_left_eq_some.mp hcontent
  have hlt : ((i : Int) + 1) < m.next := hbound e.1 _ hcontent
  omega

end

/-- As many live keys as writes, in the order of their writes and without leases: then the calls
were plain, and these are their pairs. -/
theorem plain_of_lists {ops : List Op} {l : List (Bytes × Bytes)}
    (h : Lists (LatestMap.run {} ops) l) : (∀ op ∈ ops, op.Plain) ∧ pairs ops = l := by
  induction ops using List.reverseRecOn generalizing l with
  | nil =>
    have hlen : (1 : Int) = l.length + 1 := h.next
    obtain rfl : l = [] := List.length_eq_zero_iff.mp (by omega)
    exact ⟨fun op hop => absurd hop List.not_mem_nil, rfl⟩
  | append_singleton rest op ih =>
    have hrun : LatestMap.run {} (rest ++ [op]) = (LatestMap.run {} rest).after op := by
      simp [LatestMap.run]
    obtain ⟨hpos, hbound⟩ := modRevision_lt_next rest
    have hpairs : pairs (rest ++ [op]) = pairs rest ++ op.pair?.toList := by
      rw [pairs, List.filterMap_append]
      cases hpair : op.pair? with
      | none => simp [pairs, hpair]
      | some e => simp [pairs, hpair]
    have hplain (hrest : ∀ op ∈ rest, op.Plain) (hop : op.Plain) : ∀ op' ∈ rest ++ [op], op'.Plain := by
      intro op' hop'
      rcases List.mem_append.mp hop' with hop' | hop'
      · exact hrest op' hop'
      · exact List.mem_singleton.mp hop' ▸ hop
    rw [hrun] at h
    cases op with
    | put key value leaseId | putWithPrev key value leaseId =>
      obtain ⟨hlease, front, rfl, hfront⟩ := Lists.of_put hpos hbound h
      obtain ⟨hrest, rfl⟩ := ih hfront
      exact ⟨hplain hrest hlease, hpairs⟩
    | delete key => exact absurd h (Lists.not_of_delete hpos hbound)
    | compact rev =>
      obtain ⟨hrest, rfl⟩ := ih h
      exact ⟨hplain hrest trivial, hpairs.trans (List.append_nil _)⟩

theorem readU32_mod {data : Bytes} {offset n : Nat} (h : StandsAt data offset (writeU32 n)) :
    readU32 data offset = some (n % 2 ^ 32, offset + 4) := by
  have hbytes := h.bytesAt
  have hwidth : (256 : Nat) ^ 4 = 2 ^ 32 := by decide
  rw [writeU32, length_toLittleEndian] at hbytes
  rw [readU32, hbytes, Option.map_some, ofLittleEndian_toLittleEndian_mod, hwidth]

/-- Of a string whose length has no room in its field only a beginning is read. -/
theorem readStr_mod {data : Bytes} {offset : Nat} {s : Bytes}
    (h : StandsAt data offset (writeStr s)) : readStr data offset =
      some (s.take (s.length % 2 ^ 32), offset + 4 + s.length % 2 ^ 32) := by
  obtain ⟨hlen, hbytes⟩ := StandsAt.append.mp h
  rw [writeU32, length_toLittleEndian] at hbytes
  have hpiece := (hbytes.take (s.length % 2 ^ 32)).bytesAt
  rw [List.length_take, Nat.min_eq_left (Nat.mod_le _ _)] at hpiece
  simp only [readStr, readU32_mod hlen, hpiece]

/-- Every pair adds at most one key, and where each adds one nothing is overwritten. -/
theorem size_readPairs {data : Bytes} {count offset : Nat} {kvs kvs' : OrderedMap Bytes Bytes}
    (h : readPairs data count offset kvs = some kvs') : kvs'.size ≤ kvs.size + count ∧
      (kvs'.size = kvs.size + count → ∀ k v, kvs.get? k = some v → kvs'.get? k = some v) := by
  induction count generalizing offset kvs with
  | zero =>
    obtain rfl := Option.some.inj h
    exact ⟨le_rfl, fun _ _ _ hv => hv⟩
  | succ count ih =>
    rw [readPairs] at h
    split_ifs at h
    · obtain rfl := Option.some.inj h
      exact ⟨Nat.le_add_right _ _, fun hsize => by omega⟩
    · split at h
      · cases h
      · rename_i key afterKey _
        split at h
        · cases h
        · rename_i value afterValue _
          obtain ⟨hle, hkeep⟩ := ih h
          have hinsert := kvs.size_insert key value
          refine ⟨?_, fun hsize k v hv => hkeep ?_ k v ?_⟩
          · split_ifs at hinsert <;> omega
          · split_ifs at hinsert <;> omega
          · have hnew : ¬ (kvs.get? key).isSome := by
              intro hthere
              rw [if_pos hthere] at hinsert
              omega
            have hne : k ≠ key := by
              rintro rfl
              exact hnew (by rw [hv]; rfl)
            rwa [OrderedMap.get?_insert_ne _ _ hne]

theorem take_lt {k : Bytes} {n : Nat} (h : n < k.length) : k.take n < k := by
  refine lt_of_le_of_ne (le_of_isPrefix (List.take_prefix _ _)) fun heq => ?_
  have hlength := congrArg List.length heq
  rw [List.length_take] at hlength
  omega

/-- A listed pair whose key is new, and not behind the key of the next pair, is the next pair. -/
theorem eq_of_new {older rest : List (Bytes × Bytes)} {e : Bytes × Bytes} {k v : Bytes}
    {kvs : OrderedMap Bytes Bytes} (holder : ∀ x ∈ older, (kvs.get? x.1).isSome)
    (hlater : ∀ x ∈ rest, e.1 < x.1) (hnew : ¬ (kvs.get? k).isSome) (hle : k ≤ e.1)
    (hfound : (k, v) ∈ older ++ e :: rest) : (k, v) = e := by
  rcases List.mem_append.mp hfound with hfound | hfound
  · exact absurd (holder _ hfound) hnew
  · refine (List.mem_cons.mp hfound).resolve_right fun hfound => ?_
    exact absurd (hlater _ hfound) (not_lt.mpr hle)

/-- Where every pair that is read adds the pair that was written, the lengths had room. -/
theorem lengths_of_readPairs {data : Bytes} {offset : Nat} {older entries : List (Bytes × Bytes)}
    {kvs kvs' : OrderedMap Bytes Bytes} (h : StandsAt data offset (entries.flatMap writePair))
    (hsorted : (older ++ entries).Pairwise fun a b => a.1 < b.1)
    (holder : ∀ e ∈ older, (kvs.get? e.1).isSome)
    (hread : readPairs data entries.length offset kvs = some kvs')
    (hsize : kvs'.size = kvs.size + entries.length)
    (hresult : ∀ k v, kvs'.get? k = some v → (k, v) ∈ older ++ entries) :
    ∀ e ∈ entries, e.1.length < 2 ^ 32 ∧ e.2.length < 2 ^ 32 := by
  induction entries generalizing offset older kvs with
  | nil => exact fun e he => absurd he List.not_mem_nil
  | cons e rest ih =>
    obtain ⟨hpair, hrest⟩ := StandsAt.append.mp h
    obtain ⟨hk, hv⟩ := StandsAt.append.mp hpair
    have hfits := hk.fits
    rw [length_writeStr] at hfits hv
    obtain ⟨_, htail, hcross⟩ := List.pairwise_append.mp hsorted
    have hlater := (List.pairwise_cons.mp htail).1
    rw [List.length_cons, readPairs, if_neg (by omega), readStr_mod hk] at hread
    dsimp only at hread
    cases hvalue : readStr data (offset + 4 + e.1.length % 2 ^ 32) with
    | none =>
      rw [hvalue] at hread
      cases hread
    | some r =>
      obtain ⟨value, next⟩ := r
      rw [hvalue] at hread
      dsimp only at hread
      obtain ⟨hle, hkeep⟩ := size_readPairs hread
      have hinsert := kvs.size_insert (e.1.take (e.1.length % 2 ^ 32)) value
      rw [List.length_cons] at hsize
      have hnew : ¬ (kvs.get? (e.1.take (e.1.length % 2 ^ 32))).isSome := by
        intro hthere
        rw [if_pos hthere] at hinsert
        omega
      rw [if_neg hnew] at hinsert
      have hfound := hresult _ _ (hkeep (by omega) _ _ (OrderedMap.get?_insert_self _ _ _))
      have hsame := eq_of_new holder hlater hnew (le_of_isPrefix (List.take_prefix _ _)) hfound
      have hkey : e.1.length % 2 ^ 32 = e.1.length := by
        by_contra hne
        exact (take_lt (lt_of_le_of_ne (Nat.mod_le _ _) hne)).ne (congrArg Prod.fst hsame)
      obtain rfl : value = e.2 := congrArg Prod.snd hsame
      rw [hkey, List.take_length] at hread hnew
      rw [hkey, Nat.add_assoc, readStr_mod hv] at hvalue
      obtain ⟨hvalue, hnext⟩ := Prod.mk.inj (Option.some.inj hvalue)
      have hlength : e.2.length % 2 ^ 32 = e.2.length := by
        have htake := congrArg List.length hvalue
        rw [List.length_take] at htake
        have := Nat.mod_le e.2.length (2 ^ 32)
        omega
      have hat : next = offset + (writePair e).length := by
        rw [← hnext, hlength, writePair, List.length_append, length_writeStr, length_writeStr]
        omega
      rw [hat] at hread
      rw [List.append_cons] at hsorted hresult
      have holder' : ∀ x ∈ older ++ [e], ((kvs.insert e.1 e.2).get? x.1).isSome := by
        intro x hx
        rw [← OrderedMap.mem_keys_iff, OrderedMap.mem_keys_insert]
        rcases List.mem_append.mp hx with hx | hx
        · exact .inr ((OrderedMap.mem_keys_iff _ _).mpr (holder x hx))
        · exact .inl (congrArg Prod.fst (List.mem_singleton.mp hx))
      have hgrown := kvs.size_insert e.1 e.2
      rw [if_neg hnew] at hgrown
      have hall := ih hrest hsorted holder' hread (by omega) hresult
      intro x hx
      rcases List.mem_cons.mp hx with rfl | hx
      · have := Nat.mod_lt x.1.length (by omega : 2 ^ 32 > 0)
        have := Nat.mod_lt x.2.length (by omega : 2 ^ 32 > 0)
        omega
      · exact hall x hx

theorem Mirrors.content_get {s : KVStore} {m : LatestMap} (h : Mirrors s m) (key : Bytes) :
    (s.get key 0).map KeyValue.content = m.contents.get? key := by
  rw [get, ← h.read, Option.map_map]
  refine Option.map_congr fun kv hkv => ?_
  rw [Function.comp_apply, if_pos rfl, h.refreshed_eq hkv]

/-- The whole of a store comes back from its snapshot exactly after ascending calls. -/
theorem snapshot_keeps_iff (ops : List Op) : RestoresAll (run {} ops) ↔ Ascending ops := by
  refine ⟨fun ⟨r, hdeserialize, hget, hrevision⟩ => ?_, restoresAll_of_ascending⟩
  have hmirrors := mirrors_run ops
  have hstands : StandsAt (run {} ops).serialize 0 (run {} ops).serialize := ⟨[], [], by simp, rfl⟩
  nth_rewrite 2 [serialize_eq] at hstands
  obtain ⟨hcount, hpairs⟩ := StandsAt.append.mp hstands
  rw [writeU32, length_toLittleEndian] at hpairs
  rw [deserialize, readU32_mod hcount] at hdeserialize
  obtain ⟨kvs, hread, heq⟩ := Option.map_eq_some_iff.mp hdeserialize
  obtain ⟨_, rfl⟩ := Prod.mk.inj heq
  -- what has been loaded is numbered, so what is read from the store is, too
  have hload : Numbered (kvs.entries.foldl rebuildKey {}) kvs.entries :=
    Numbered.fresh.rebuild (l := []) kvs.sorted
  have hlists : Lists (LatestMap.run {} ops) kvs.entries := by
    refine ⟨?_, fun i e he => ?_⟩
    · rw [← hmirrors.next, ← hrevision]
      exact hload.next
    · have hloaded : (Backend.batchPut {} kvs).get e.1 = some e.2 := by
        have hstore : Backend.batchPut {} kvs = { store := kvs } := Backend.putAll_entries kvs
        rw [hstore]
        exact (OrderedMap.mem_entries_iff kvs e.1 e.2).mp (List.mem_of_getElem? he)
      have hfirst := hget e.1
      rw [get, hload.first i e he, Option.map_some, if_pos rfl, refreshed, hloaded] at hfirst
      rw [← hmirrors.content_get, ← hfirst]
      rfl
  obtain ⟨hplain, hpairsEq⟩ := plain_of_lists hlists
  have hsorted : (pairs ops).Pairwise fun a b => a.1 < b.1 := hpairsEq ▸ kvs.sorted
  have hrun : Numbered (run {} ops).mvcc (pairs ops) :=
    numbered_run (l := []) .fresh hplain hsorted
  have hentries : (run {} ops).backend.store.entries = kvs.entries :=
    (entries_of_numbered hmirrors hrun hsorted).trans hpairsEq
  have hsame : (run {} ops).backend.store = kvs :=
    OrderedMap.ext_get? (OrderedMap.entries_inj.mp hentries)
  rw [hsame] at hread hpairs
  have hcountLe := (size_readPairs hread).1
  have hempty : (∅ : OrderedMap Bytes Bytes).size = 0 := rfl
  rw [hempty, Nat.zero_add] at hcountLe
  have hmod := Nat.mod_lt kvs.size (by omega : 2 ^ 32 > 0)
  rw [Nat.mod_eq_of_lt (by omega)] at hread
  have hnone : ∀ e ∈ ([] : List (Bytes × Bytes)), ((∅ : OrderedMap Bytes Bytes).get? e.1).isSome :=
    fun e he => absurd he List.not_mem_nil
  have hordered : ([] ++ kvs.entries).Pairwise fun (a b : Bytes × Bytes) => a.1 < b.1 := kvs.sorted
  have hlengths := lengths_of_readPairs hpairs hordered hnone hread
    (by rw [hempty, OrderedMap.size]; omega)
    (fun k v hv => (OrderedMap.mem_entries_iff kvs k v).mpr hv)
  refine ⟨hplain, hsorted, ?_, ?_, ?_⟩
  · rw [hpairsEq]
    exact hcountLe.trans_lt hmod
  · exact fun e he => (hlengths e (hpairsEq ▸ he)).1
  · exact fun e he => (hlengths e (hpairsEq ▸ he)).2

/-- A key that is put a second time loses its version and its revision on the way. -/
theorem snapshot_forgets : ¬ RestoresAll (run {} [.put [107] [1] 0, .put [107] [2] 0]) := by
  rintro ⟨r, hdeserialize, -, hrevision⟩
  have hloaded : (deserialize {} (run {} [.put [107] [1] 0, .put [107] [2] 0]).serialize).map
      (fun r => r.2.currentRevision) = some 2 := by decide
  have hstore : (run {} [.put [107] [1] 0, .put [107] [2] 0]).currentRevision = 3 := by decide
  rw [hdeserialize, Option.map_some, hrevision, hstore] at hloaded
  exact absurd hloaded (by decide)

end KVStore
end MyEtcd
