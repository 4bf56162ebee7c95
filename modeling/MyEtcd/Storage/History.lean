import MyEtcd.Storage.Mvcc

/-! The writes behind an index, and what reads at an old revision make of them.
A plain map that goes through the writes up to a revision says what should be read there. -/
namespace MyEtcd
open Library

/-- A write to the index, at its revision. -/
inductive Write where
  | put (key : Bytes) (revision : Int) (value : Bytes) (leaseId : Int)
  | delete (key : Bytes) (revision : Int)
  deriving DecidableEq

/-- What the last put has left under a key. -/
structure Content where
  value : Bytes
  modRevision : Int
  leaseId : Int
  deriving DecidableEq

namespace Write

def key : Write → Bytes
  | put key _ _ _ => key
  | delete key _ => key

def revision : Write → Int
  | put _ revision _ _ => revision
  | delete _ revision => revision

/-- What the write leaves under its key. -/
def content : Write → Option Content
  | put _ revision value leaseId => some ⟨value, revision, leaseId⟩
  | delete _ _ => none

def apply (m : OrderedMap Bytes Content) (w : Write) : OrderedMap Bytes Content :=
  match w.content with
  | some content => m.insert w.key content
  | none => m.erase w.key

/-- The write on the versions of its key. -/
def record (ki : KeyIndex) : Write → KeyIndex
  | put _ revision value leaseId => ki.put revision value leaseId
  | delete _ revision => ki.tombstone revision

def latest (writes : List Write) : OrderedMap Bytes Content := writes.foldl apply ∅

def contentAt (writes : List Write) (atRev : Int) : OrderedMap Bytes Content :=
  latest (writes.filter fun w => w.revision ≤ atRev)

theorem get?_apply (m : OrderedMap Bytes Content) (w : Write) (key : Bytes) :
    (w.apply m).get? key = if w.key = key then w.content else m.get? key := by
  unfold apply
  split_ifs with hkey
  · subst hkey
    cases w.content with
    | none => exact m.get?_erase_self _
    | some c => exact m.get?_insert_self _ c
  · cases w.content with
    | none => exact m.get?_erase_ne (Ne.symm hkey)
    | some c => exact m.get?_insert_ne c (Ne.symm hkey)

def on (writes : List Write) (key : Bytes) : List Write := writes.filter fun w => w.key = key

theorem get?_latest (writes : List Write) (key : Bytes) :
    (latest writes).get? key = (on writes key).getLast?.bind content := by
  induction writes using List.reverseRecOn with
  | nil => rfl
  | append_singleton rest w ih =>
    rw [latest, List.foldl_append, List.foldl_cons, List.foldl_nil, get?_apply, ← latest, ih, on, on,
      List.filter_append]
    split_ifs with hkey
    · simp [hkey]
    · simp [hkey]

theorem get?_contentAt (writes : List Write) (key : Bytes) (atRev : Int) :
    (contentAt writes atRev).get? key =
      ((on writes key).filter fun w => w.revision ≤ atRev).getLast?.bind content := by
  rw [contentAt, get?_latest, on, on, List.filter_filter, List.filter_filter]
  simp only [Bool.and_comm]

end Write

def MvccVersion.write (v : MvccVersion) (key : Bytes) : Write :=
  if v.tombstone then .delete key v.revision else .put key v.revision v.value v.leaseId

@[simp] theorem MvccVersion.revision_write (v : MvccVersion) (key : Bytes) :
    (v.write key).revision = v.revision := by
  unfold MvccVersion.write
  split_ifs <;> rfl

@[simp] theorem MvccVersion.isSome_content_write (v : MvccVersion) (key : Bytes) :
    (v.write key).content.isSome = !v.tombstone := by
  unfold MvccVersion.write
  split_ifs with htombstone
  · rw [htombstone]
    rfl
  · rw [Bool.eq_false_iff.mpr htombstone]
    rfl

def KeyValue.content (kv : KeyValue) : Content := ⟨kv.value, kv.modRevision, kv.leaseId⟩

def Content.dated (c : Content) : Bytes × Int := (c.value, c.modRevision)

theorem MvccVersion.content_write {v : MvccVersion} (h : v.tombstone = false) (key name : Bytes) :
    (v.write key).content = some (v.keyValue name).content := by
  rw [MvccVersion.write, h]
  rfl

namespace KeyIndex

def writes (ki : KeyIndex) : List Write := ki.versions.map fun v => v.write ki.key

theorem writes_record {ki : KeyIndex} {w : Write} (h : w.key = ki.key) :
    (w.record ki).key = ki.key ∧ (w.record ki).writes = ki.writes ++ [w] := by
  cases w with
  | put key rev value leaseId =>
    obtain rfl : key = ki.key := h
    simp [Write.record, KeyIndex.put, writes, MvccVersion.write]
  | delete key rev =>
    obtain rfl : key = ki.key := h
    simp [Write.record, KeyIndex.tombstone, writes, MvccVersion.write]

theorem writes_foldl {ki : KeyIndex} {writes : List Write} (h : ∀ w ∈ writes, w.key = ki.key) :
    (writes.foldl Write.record ki).writes = ki.writes ++ writes := by
  induction writes generalizing ki with
  | nil => simp
  | cons w rest ih =>
    obtain ⟨hkey, hnext⟩ := writes_record (h w List.mem_cons_self)
    rw [List.foldl_cons, ih fun x hx => (h x (List.mem_cons_of_mem _ hx)).trans hkey.symm, hnext,
      List.append_assoc, List.singleton_append]

end KeyIndex

namespace Write

/-- What a reader makes of the writes to a key. -/
def found (writes : List Write) (atRev : Int) : Option Content :=
  if (writes.getLast?.bind content).isNone then none
  else if atRev = 0 then writes.getLast?.bind content
  else (writes.filter fun w => w.revision ≤ atRev && w.content.isSome).getLast?.bind content

end Write

namespace KeyIndex

theorem isDeleted_eq (ki : KeyIndex) :
    ki.isDeleted = (ki.writes.getLast?.bind Write.content).isNone := by
  rw [writes, List.getLast?_map, isDeleted]
  cases ki.versions.getLast? with
  | none => rfl
  | some back =>
    have hback := back.isSome_content_write ki.key
    rw [Option.map_some, Option.bind_some, ← Option.not_isSome, hback, Bool.not_not]

theorem search_eq (ki : KeyIndex) (key : Bytes) (atRev : Int) :
    (search ki.versions atRev).map (fun v => (v.keyValue key).content) =
      (ki.writes.filter fun w => w.revision ≤ atRev && w.content.isSome).getLast?.bind
        Write.content := by
  rw [writes, List.filter_map, List.getLast?_map, ← List.head?_reverse, ← List.filter_reverse,
    List.head?_filter, search]
  simp only [Function.comp_def, MvccVersion.revision_write, MvccVersion.isSome_content_write]
  cases hfound : ki.versions.reverse.find? fun v => v.revision ≤ atRev && !v.tombstone with
  | none => rfl
  | some v =>
    have hv := List.find?_some hfound
    rw [Bool.and_eq_true, Bool.not_eq_true'] at hv
    exact (MvccVersion.content_write hv.2 ki.key key).symm

theorem content_read (ki : KeyIndex) (key : Bytes) (atRev : Int) :
    (ki.read key atRev).map KeyValue.content = Write.found ki.writes atRev := by
  rw [read_eq, Write.found, isDeleted_eq]
  split_ifs with hnone hzero
  · rfl
  · rw [writes, List.getLast?_map] at hnone ⊢
    cases hlast : ki.versions.getLast? with
    | none => rfl
    | some back =>
      have hback := back.isSome_content_write ki.key
      rw [hlast, Option.map_some, Option.bind_some, ← Option.not_isSome, hback, Bool.not_not,
        Bool.not_eq_true] at hnone
      exact (MvccVersion.content_write hnone ki.key key).symm
  · rw [← search_eq ki key, Option.map_map]
    rfl

end KeyIndex

namespace MVCC

def write (m : MVCC) : Write → MVCC
  | .put key revision value leaseId => m.put key revision value leaseId
  | .delete key revision => m.delete key revision

def written (writes : List Write) : MVCC := writes.foldl write {}

theorem write_index (m : MVCC) (w : Write) :
    (m.write w).index = m.index.insert w.key (w.record (m.keyIndex w.key)) := by
  cases w with
  | put key revision value leaseId =>
    simp only [write, MVCC.put, Write.key, keyIndex]
    cases m.index.get? key <;> rfl
  | delete key revision =>
    simp only [write, MVCC.delete, Write.key, keyIndex]
    cases m.index.get? key <;> rfl

theorem keyIndex_write (m : MVCC) (w : Write) (key : Bytes) :
    (m.write w).keyIndex key =
      if w.key = key then w.record (m.keyIndex key) else m.keyIndex key := by
  unfold keyIndex
  rw [write_index, OrderedMap.get?_insert]
  by_cases hkey : key = w.key
  · rw [if_pos hkey, if_pos hkey.symm, hkey]
    rfl
  · rw [if_neg hkey, if_neg (Ne.symm hkey)]

theorem keyIndex_writes (m : MVCC) (writes : List Write) (key : Bytes) :
    (writes.foldl write m).keyIndex key =
      (Write.on writes key).foldl Write.record (m.keyIndex key) := by
  induction writes generalizing m with
  | nil => rfl
  | cons w rest ih =>
    rw [List.foldl_cons, ih, keyIndex_write, Write.on, Write.on, List.filter_cons]
    by_cases hkey : w.key = key
    · simp [hkey]
    · simp [hkey]

theorem writes_keyIndex (writes : List Write) (key : Bytes) :
    ((written writes).keyIndex key).writes = Write.on writes key := by
  rw [written, keyIndex_writes]
  exact KeyIndex.writes_foldl fun w hw => of_decide_eq_true (List.mem_filter.mp hw).2

/-- What is read under a key is found among the writes to it. -/
theorem content_get (writes : List Write) (key : Bytes) (atRev : Int) :
    ((written writes).get key atRev).map KeyValue.content =
      Write.found (Write.on writes key) atRev := by
  rw [get_keyIndex, KeyIndex.content_read, writes_keyIndex]

end MVCC

namespace Write

/-- The key is there now if it was there at the revision, and if it is there now but was not there
then, it had not been put before. -/
structure Legible (writes : List Write) (key : Bytes) (atRev : Int) : Prop where
  kept : ((contentAt writes atRev).get? key).isSome → ((latest writes).get? key).isSome
  buried : (contentAt writes atRev).get? key = none → ((latest writes).get? key).isSome →
    ∀ w ∈ on writes key, w.revision ≤ atRev → w.content = none

/-- A legible revision reads as it was, and any other one shows a key too few or one too many. -/
theorem found_on (writes : List Write) (key : Bytes) {atRev : Int} (h : 1 ≤ atRev) :
    (Legible writes key atRev →
      found (on writes key) atRev = (contentAt writes atRev).get? key) ∧
    ((found (on writes key) atRev).isSome = ((contentAt writes atRev).get? key).isSome →
      Legible writes key atRev) := by
  have hfound : found (on writes key) atRev =
      if ((latest writes).get? key).isNone then none
      else (((on writes key).filter fun w => w.revision ≤ atRev).filter
        fun w => w.content.isSome).getLast?.bind content := by
    rw [found, get?_latest, if_neg (by omega : ¬ atRev = 0), List.filter_filter]
    simp only [Bool.and_comm]
  have hthen := get?_contentAt writes key atRev
  generalize hpast : (on writes key).filter (fun w => w.revision ≤ atRev) = past at hfound hthen
  have hlast {c : Content} (hc : past.getLast?.bind content = some c) :
      (past.filter fun w => w.content.isSome).getLast?.bind content = some c := by
    obtain ⟨w, hw, hwc⟩ := Option.bind_eq_some_iff.mp hc
    obtain ⟨before, rfl⟩ := List.getLast?_eq_some_iff.mp hw
    simp [List.filter_append, hwc]
  constructor
  · intro hlegible
    rw [hfound, hthen]
    split_ifs with hnow
    · cases hc : past.getLast?.bind content with
      | none => rfl
      | some c =>
        have hkept := hlegible.kept (by rw [hthen, hc]; rfl)
        simp [Option.isNone_iff_eq_none.mp hnow] at hkept
    · cases hc : past.getLast?.bind content with
      | some c => exact hlast hc
      | none =>
        have hburied := hlegible.buried (hthen.trans hc) (by
          rwa [Bool.not_eq_true, Option.isNone_eq_false_iff] at hnow)
        have hnone : past.filter (fun w => w.content.isSome) = [] := by
          refine List.filter_eq_nil_iff.mpr fun w hw => ?_
          rw [← hpast] at hw
          obtain ⟨hon, hrev⟩ := List.mem_filter.mp hw
          simp [hburied w hon (of_decide_eq_true hrev)]
        rw [hnone]
        rfl
  · intro hsame
    rw [hfound, hthen] at hsame
    refine ⟨fun hthere => ?_, fun hgone hnow w hw hrev => ?_⟩
    · rw [hthen] at hthere
      rw [hthere] at hsame
      by_contra hnow
      rw [if_pos (by simpa using hnow)] at hsame
      cases hsame
    · rw [hthen] at hgone
      rw [hgone, if_neg (by rwa [Bool.not_eq_true, Option.isNone_eq_false_iff])] at hsame
      by_contra hput
      have hmem : w ∈ past.filter fun w => w.content.isSome := by
        rw [← hpast]
        refine List.mem_filter.mpr ⟨List.mem_filter.mpr ⟨hw, decide_eq_true hrev⟩, ?_⟩
        exact Option.isSome_iff_ne_none.mpr hput
      cases hend : (past.filter fun w => w.content.isSome).getLast? with
      | none => simp [List.getLast?_eq_none_iff.mp hend] at hmem
      | some back =>
        have hback := (List.mem_filter.mp (List.mem_of_getLast? hend)).2
        rw [hend, Option.bind_some] at hsame
        rw [hsame] at hback
        cases hback

end Write

namespace MVCC

/-- What a range finds is what the plain map has in it, if every key in it reads alike. -/
theorem labelled_iff (m : MVCC) (atRev : Int) (plain : OrderedMap Bytes Content)
    (inside : Bytes → Bool) :
    (∀ limit, (truncate limit ((m.visible atRev).within inside).values).map
        (fun kv => (kv.key, kv.content.dated)) =
      truncate limit ((plain.within inside).map Content.dated).entries) ↔
    ∀ key, inside key →
      (m.get key atRev).map (fun kv => kv.content.dated) = (plain.get? key).map Content.dated := by
  simp only [map_truncate, visible_labelled, truncate_inj, OrderedMap.entries_inj,
    OrderedMap.get?_map, OrderedMap.get?_within, get_eq]
  refine forall_congr' fun key => ?_
  cases inside key <;> simp

/-- Exactly the legible keys read as they were at a revision: by themselves, in a range and in a
prefix range, up to any limit. -/
theorem historical_reads_iff (writes : List Write) {atRev : Int} (h : 1 ≤ atRev) :
    (∀ key, (((written writes).get key atRev).map fun kv => kv.content.dated) =
        ((Write.contentAt writes atRev).get? key).map Content.dated ↔
      Write.Legible writes key atRev) ∧
    (∀ start stop, (∀ limit, ((written writes).range start stop atRev limit).map
          (fun kv => (kv.key, kv.content.dated)) =
        truncate limit (((Write.contentAt writes atRev).within fun key =>
          start ≤ key ∧ OrderedMap.below stop key).map Content.dated).entries) ↔
      ∀ key, start ≤ key → OrderedMap.below stop key → Write.Legible writes key atRev) ∧
    (∀ front, (∀ limit, ((written writes).prefixRange front atRev limit).map
          (fun kv => (kv.key, kv.content.dated)) =
        truncate limit (((Write.contentAt writes atRev).within fun key =>
          front.isPrefixOf key).map Content.dated).entries) ↔
      ∀ key, front.isPrefixOf key → Write.Legible writes key atRev) := by
  have hkey (key : Bytes) : (((written writes).get key atRev).map fun kv => kv.content.dated) =
      ((Write.contentAt writes atRev).get? key).map Content.dated ↔
        Write.Legible writes key atRev := by
    obtain ⟨hright, hwrong⟩ := Write.found_on writes key h
    have hget := content_get writes key atRev
    constructor
    · intro hsame
      have hboth := congrArg Option.isSome hsame
      rw [Option.isSome_map, Option.isSome_map] at hboth
      exact hwrong (by rw [← hget, Option.isSome_map, hboth])
    · intro hlegible
      rw [← hright hlegible, ← hget, Option.map_map]
      rfl
  refine ⟨hkey, fun start stop => ?_, fun front => ?_⟩
  · simp only [range_eq, labelled_iff, hkey, decide_eq_true_eq, and_imp]
  · simp only [prefixRange_eq, labelled_iff, hkey]

/-- A deleted key is gone from the revisions before, and a key that is there again is also found
where it had been deleted. -/
theorem rewritten_history :
    (written [.put [107] 1 [97] 0, .delete [107] 2]).get [107] 1 = none ∧
    (Write.contentAt [.put [107] 1 [97] 0, .delete [107] 2] 1).get? [107] = some ⟨[97], 1, 0⟩ ∧
    ((written [.put [107] 1 [97] 0, .delete [107] 2, .put [107] 3 [98] 0]).get [107] 2).map
      KeyValue.content = some ⟨[97], 1, 0⟩ ∧
    (Write.contentAt [.put [107] 1 [97] 0, .delete [107] 2, .put [107] 3 [98] 0] 2).get? [107] =
      none := by
  decide

/-- Two keys, one put twice and one deleted before it was ever put. -/
theorem historical_reads_iff_twoKeys :
    (((written [.put [107] 1 [97] 0, .delete [108] 2, .put [107] 3 [98] 0,
      .put [108] 4 [99] 0]).get [107] 2).map fun kv => kv.content.dated) = some ([97], 1) :=
  (((historical_reads_iff _ (by decide : (1 : Int) ≤ 2)).1 [107]).mpr
    ⟨by decide, by decide⟩).trans (by decide)

end MVCC

end MyEtcd
