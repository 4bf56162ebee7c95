import MyEtcd.Common.Types
import MyEtcd.Library.Lexicographic

/-! The versions of every key in memory: writing, reading at a revision, and compaction.
The readers go through the index in key order and stop at the end of the range or at the limit. -/
namespace MyEtcd
open Library

structure MvccVersion where
  revision : Int
  version : Nat
  createRevision : Int
  tombstone : Bool
  /-- Not set in a tombstone, where nothing reads it. -/
  leaseId : Int := 0
  value : Bytes := []
  deriving DecidableEq

/-- What a reader returns of a version. -/
def MvccVersion.keyValue (v : MvccVersion) (key : Bytes) : KeyValue where
  key := key
  value := v.value
  createRevision := v.createRevision
  modRevision := v.revision
  version := v.version
  leaseId := v.leaseId

/-- All versions of a key, the oldest first. -/
structure KeyIndex where
  key : Bytes
  versions : List MvccVersion := []
  lastRevision : Int := 0
  deriving DecidableEq

namespace KeyIndex

def nextVersion (ki : KeyIndex) : Nat :=
  match ki.versions.getLast? with
  | none => 1
  | some back => back.version + 1

def createRevision (ki : KeyIndex) (rev : Int) : Int :=
  match ki.versions.head? with
  | none => rev
  | some front => front.createRevision

def put (ki : KeyIndex) (rev : Int) (value : Bytes) (leaseId : Int) : KeyIndex :=
  let ver : MvccVersion :=
    { revision := rev
      version := ki.nextVersion
      createRevision := ki.createRevision rev
      tombstone := false
      leaseId
      value }
  { ki with versions := ki.versions ++ [ver], lastRevision := rev }

def tombstone (ki : KeyIndex) (rev : Int) : KeyIndex :=
  let ver : MvccVersion :=
    { revision := rev
      version := ki.nextVersion
      createRevision := ki.createRevision rev
      tombstone := true }
  { ki with versions := ki.versions ++ [ver], lastRevision := rev }

def isDeleted (ki : KeyIndex) : Bool :=
  match ki.versions.getLast? with
  | none => true
  | some back => back.tombstone

/-- The position of the last version up to `rev`, zero if there is none. -/
def keepUntil (ki : KeyIndex) (rev : Int) : Nat :=
  ki.versions.zipIdx.foldl (fun keep v => if v.1.revision ≤ rev then v.2 else keep) 0

def compact (ki : KeyIndex) (rev : Int) : KeyIndex :=
  { ki with versions := ki.versions.drop (ki.keepUntil rev) }

/-- What `Get`, `Range` and `PrefixRange` find for a key: nothing if it is deleted now, the newest
version at revision zero, and else the newest version up to `atRev` that is no tombstone. -/
def read (ki : KeyIndex) (key : Bytes) (atRev : Int) : Option KeyValue :=
  if ki.isDeleted then none
  else
    let ver :=
      if atRev = 0 then ki.versions.getLast?
      else ki.versions.reverse.find? fun v => v.revision ≤ atRev && !v.tombstone
    match ver with
    | none => none
    | some v => if v.tombstone then none else some (v.keyValue key)

/-- The newest version up to a revision that is no tombstone. -/
def search (versions : List MvccVersion) (atRev : Int) : Option MvccVersion :=
  versions.reverse.find? fun v => v.revision ≤ atRev && !v.tombstone

/-- No reader comes upon a tombstone, as the last version is none and the search skips them. -/
theorem read_eq (ki : KeyIndex) (key : Bytes) (atRev : Int) :
    ki.read key atRev = if ki.isDeleted then none
      else (if atRev = 0 then ki.versions.getLast? else search ki.versions atRev).map
        fun v => v.keyValue key := by
  unfold read
  split_ifs with hdeleted hzero
  · rfl
  · unfold isDeleted at hdeleted
    cases hlast : ki.versions.getLast? with
    | none => rfl
    | some back =>
      rw [hlast] at hdeleted
      exact if_neg hdeleted
  · dsimp only [search]
    cases hfound : ki.versions.reverse.find? fun v => v.revision ≤ atRev && !v.tombstone with
    | none => rfl
    | some v =>
      have hv := List.find?_some hfound
      rw [Bool.and_eq_true, Bool.not_eq_true'] at hv
      exact if_neg (by rw [hv.2]; exact Bool.false_ne_true)

theorem isSome_read_zero (ki : KeyIndex) (key : Bytes) :
    (ki.read key 0).isSome = !ki.isDeleted := by
  rw [read_eq, if_pos rfl]
  unfold isDeleted
  cases ki.versions.getLast? with
  | none => rfl
  | some back => cases hback : back.tombstone <;> simp [hback]

theorem read_key {ki : KeyIndex} {key : Bytes} {atRev : Int} {kv : KeyValue}
    (h : ki.read key atRev = some kv) : kv.key = key := by
  rw [read_eq] at h
  obtain ⟨_, hver⟩ := Option.ite_none_left_eq_some.mp h
  obtain ⟨v, _, rfl⟩ := Option.map_eq_some_iff.mp hver
  rfl

end KeyIndex

/-- The first `limit` elements, all of them unless `limit` is positive. -/
def truncate {α : Type} (limit : Int) (l : List α) : List α :=
  if limit > 0 then l.take limit.toNat else l

theorem map_truncate {α β : Type} (f : α → β) (limit : Int) (l : List α) :
    (truncate limit l).map f = truncate limit (l.map f) := by
  unfold truncate
  split_ifs
  · exact List.map_take
  · rfl

/-- Two lists agree up to every limit if they agree without one. -/
theorem truncate_inj {α : Type} {a b : List α} :
    (∀ limit, truncate limit a = truncate limit b) ↔ a = b := by
  constructor
  · exact fun h => h 0
  · rintro rfl limit
    rfl

structure MVCC where
  index : OrderedMap Bytes KeyIndex := ∅
  currentRev : Int := 1

namespace MVCC

def put (m : MVCC) (key : Bytes) (rev : Int) (value : Bytes) (leaseId : Int) : MVCC :=
  match m.index.get? key with
  | none => { m with index := m.index.insert key (({ key } : KeyIndex).put rev value leaseId) }
  | some ki => { m with index := m.index.insert key (ki.put rev value leaseId) }

def delete (m : MVCC) (key : Bytes) (rev : Int) : MVCC :=
  match m.index.get? key with
  | none => { m with index := m.index.insert key (({ key } : KeyIndex).tombstone rev) }
  | some ki => { m with index := m.index.insert key (ki.tombstone rev) }

def get (m : MVCC) (key : Bytes) (atRev : Int) : Option KeyValue :=
  match m.index.get? key with
  | none => none
  | some ki => ki.read key atRev

/-- The loop of `Range` and `PrefixRange` over the rest of the index. -/
def scan (inside : Bytes → Bool) (atRev limit : Int) :
    List (Bytes × KeyIndex) → List KeyValue → List KeyValue
  | [], result => result
  | (key, ki) :: rest, result =>
    if ¬ inside key then result
    else if limit > 0 ∧ (result.length : Int) ≥ limit then result
    else
      match ki.read key atRev with
      | none => scan inside atRev limit rest result
      | some kv => scan inside atRev limit rest (result ++ [kv])

def range (m : MVCC) (start stop : Bytes) (atRev limit : Int) : List KeyValue :=
  scan (OrderedMap.below stop) atRev limit (m.index.lowerBound start) []

def prefixRange (m : MVCC) (front : Bytes) (atRev limit : Int) : List KeyValue :=
  scan (fun key => front.isPrefixOf key) atRev limit (m.index.lowerBound front) []

def keys (m : MVCC) : List Bytes := (m.index.entries.filter fun e => !e.2.isDeleted).map Prod.fst

/-- Compact every key, and drop those with nothing left but an old tombstone. -/
def compact (m : MVCC) (rev : Int) : MVCC :=
  { m with index := m.index.filterMap fun _ ki =>
      let ki := ki.compact rev
      if ki.versions.isEmpty ∨ ki.isDeleted ∧ ki.lastRevision ≤ rev then none else some ki }

def allocateRevision (m : MVCC) : Int × MVCC :=
  (m.currentRev, { m with currentRev := m.currentRev + 1 })

def visible (m : MVCC) (atRev : Int) : OrderedMap Bytes KeyValue :=
  m.index.filterMap fun key ki => ki.read key atRev

def keyIndex (m : MVCC) (key : Bytes) : KeyIndex := (m.index.get? key).getD { key }

theorem get_keyIndex (m : MVCC) (key : Bytes) (atRev : Int) :
    m.get key atRev = (m.keyIndex key).read key atRev := by
  unfold get keyIndex
  cases m.index.get? key <;> rfl

theorem get_eq (m : MVCC) (key : Bytes) (atRev : Int) :
    m.get key atRev = (m.visible atRev).get? key := by
  rw [visible, OrderedMap.get?_filterMap, get]
  cases m.index.get? key <;> rfl

theorem keys_eq (m : MVCC) : m.keys = (m.visible 0).keys := by
  rw [keys, visible, OrderedMap.keys, OrderedMap.filterMap, List.map_filterMap,
    ← List.filterMap_eq_filter, List.map_filterMap]
  refine List.filterMap_congr fun e _ => ?_
  have he := e.2.isSome_read_zero e.1
  cases hread : e.2.read e.1 0 <;> simp_all [Option.guard]

theorem scan_eq (inside : Bytes → Bool) (atRev limit : Int) (l : List (Bytes × KeyIndex)) :
    scan inside atRev limit l [] =
      truncate limit ((l.takeWhile (fun e => inside e.1)).filterMap fun e => e.2.read e.1 atRev) := by
  have hall {result : List KeyValue} (hroom : 0 < limit → result.length ≤ limit.toNat) :
      truncate limit result = result := by
    unfold truncate
    split_ifs with hpos
    · exact List.take_of_length_le (hroom hpos)
    · rfl
  have hscan (result : List KeyValue) (hroom : 0 < limit → result.length ≤ limit.toNat) :
      scan inside atRev limit l result = truncate limit (result ++
        (l.takeWhile (fun e => inside e.1)).filterMap fun e => e.2.read e.1 atRev) := by
    induction l generalizing result with
    | nil => simp [scan, hall hroom]
    | cons e rest ih =>
      unfold scan
      by_cases hinside : inside e.1
      · have hmore : (e :: rest).takeWhile (fun e => inside e.1) =
            e :: rest.takeWhile (fun e => inside e.1) := List.takeWhile_cons_of_pos hinside
        rw [if_neg (not_not.mpr hinside), hmore]
        split_ifs with hlimit
        · have hlen : result.length = limit.toNat := by
            have := hroom hlimit.1
            omega
          rw [truncate, if_pos hlimit.1, ← hlen, List.take_left]
        · cases hread : e.2.read e.1 atRev with
          | none =>
            simp only [List.filterMap_cons, hread]
            exact ih result hroom
          | some kv =>
            simp only [List.filterMap_cons, hread]
            have hnext : 0 < limit → (result ++ [kv]).length ≤ limit.toNat := by
              intro hpos
              rw [List.length_append, List.length_singleton]
              omega
            simpa using ih (result ++ [kv]) hnext
      · have hnone : (e :: rest).takeWhile (fun e => inside e.1) = [] :=
          List.takeWhile_cons_of_neg hinside
        rw [if_pos hinside, hnone, List.filterMap_nil, List.append_nil, hall hroom]
  simpa using hscan [] (fun _ => Nat.zero_le _)

private theorem scan_visible (m : MVCC) {start : Bytes} {inside : Bytes → Bool} (atRev limit : Int)
    (hconvex : ∀ a b, start ≤ a → a < b → inside b = true → inside a = true) :
    scan inside atRev limit (m.index.lowerBound start) [] = truncate limit
      ((m.visible atRev).within fun key => start ≤ key ∧ inside key).values := by
  rw [scan_eq, m.index.takeWhile_lowerBound hconvex, OrderedMap.within, OrderedMap.values_filterMap,
    List.filterMap_filter, visible, OrderedMap.filterMap, List.filterMap_filterMap]
  congr 1
  refine List.filterMap_congr fun e _ => ?_
  cases e.2.read e.1 atRev <;> simp

/-- A range reads what is visible between its bounds. -/
theorem range_eq (m : MVCC) (start stop : Bytes) (atRev limit : Int) :
    m.range start stop atRev limit = truncate limit
      ((m.visible atRev).within fun key => start ≤ key ∧ OrderedMap.below stop key).values := by
  exact m.scan_visible atRev limit fun a b _ => OrderedMap.below_of_lt

/-- So does a prefix range, the bound being implied by the prefix. -/
theorem prefixRange_eq (m : MVCC) (front : Bytes) (atRev limit : Int) :
    m.prefixRange front atRev limit =
      truncate limit ((m.visible atRev).within fun key => front.isPrefixOf key).values := by
  have hinside : (fun key => decide (front ≤ key ∧ front.isPrefixOf key = true)) =
      fun key => front.isPrefixOf key := by
    funext key
    cases hkey : front.isPrefixOf key with
    | true => simp [le_of_isPrefix (List.isPrefixOf_iff_prefix.mp hkey)]
    | false => simp
  rw [prefixRange, m.scan_visible atRev limit, hinside]
  intro a b ha hab hb
  rw [List.isPrefixOf_iff_prefix] at hb ⊢
  exact isPrefix_of_between ha hab.le hb

theorem key_of_get {m : MVCC} {key : Bytes} {atRev : Int} {kv : KeyValue}
    (h : m.get key atRev = some kv) : kv.key = key := by
  rw [get_keyIndex] at h
  exact KeyIndex.read_key h

theorem get_of_mem_values {m : MVCC} {atRev : Int} {inside : Bytes → Bool} {kv : KeyValue}
    (h : kv ∈ ((m.visible atRev).within inside).values) : m.get kv.key atRev = some kv := by
  obtain ⟨⟨key, kv⟩, he, rfl⟩ := List.mem_map.mp h
  have hget := (OrderedMap.mem_entries_iff _ key kv).mp he
  rw [OrderedMap.get?_within, ← get_eq] at hget
  obtain ⟨_, hget⟩ := Option.ite_none_right_eq_some.mp hget
  rwa [key_of_get hget]

/-- The keys of what is visible, each with something of its value, are again a map. -/
theorem visible_labelled {α : Type} (m : MVCC) (atRev : Int) (inside : Bytes → Bool)
    (f : KeyValue → α) :
    ((m.visible atRev).within inside).values.map (fun kv => (kv.key, f kv)) =
      (((m.visible atRev).within inside).map f).entries := by
  rw [OrderedMap.entries_map, OrderedMap.values, List.map_map]
  refine List.map_congr_left fun e he => ?_
  obtain ⟨key, kv⟩ := e
  have hget := (OrderedMap.mem_entries_iff _ key kv).mp he
  rw [OrderedMap.get?_within, ← get_eq] at hget
  obtain ⟨_, hget⟩ := Option.ite_none_right_eq_some.mp hget
  simp [key_of_get hget]

end MVCC
end MyEtcd
