import MyEtcd.Storage.Compaction

/-! What a compaction keeps of an index whose writes came at rising revisions, and what two
compactions keep. A front part of the versions of each key is dropped, and its length is counted. -/
namespace MyEtcd
open Library

section
variable {l : List MvccVersion} {a b rev : Int}

def Rising (l : List MvccVersion) : Prop := l.Pairwise fun v w => v.revision < w.revision

def oldCount (l : List MvccVersion) (rev : Int) : Nat := l.countP fun v => v.revision ≤ rev

/-- The last version up to `rev`, and all versions after `rev`. -/
def keptVersions (l : List MvccVersion) (rev : Int) : List MvccVersion :=
  (l.filter fun v => v.revision ≤ rev).getLast?.toList ++ l.filter fun v => rev < v.revision

theorem oldCount_drop (h : Rising l) (n : Nat) : oldCount (l.drop n) rev = oldCount l rev - n := by
  induction l generalizing n with
  | nil => simp [oldCount]
  | cons v rest ih =>
    obtain ⟨hlater, hrest⟩ := List.pairwise_cons.mp h
    cases n with
    | zero => rfl
    | succ n =>
      rw [List.drop_succ_cons, ih hrest, oldCount, oldCount, List.countP_cons]
      by_cases hv : v.revision ≤ rev
      · simp [hv]
      · have hnone : rest.countP (fun v => v.revision ≤ rev) = 0 := by
          rw [List.countP_eq_zero]
          intro w hw
          have := hlater w hw
          simp only [decide_eq_true_eq]
          omega
        simp [hv, hnone]

theorem oldCount_max (l : List MvccVersion) (a b : Int) :
    oldCount l (max a b) = max (oldCount l a) (oldCount l b) := by
  have hmono {a b : Int} (hab : a ≤ b) : oldCount l a ≤ oldCount l b :=
    List.countP_mono_left fun v _ hv => by
      simp only [decide_eq_true_eq] at hv ⊢
      exact hv.trans hab
  rcases le_total a b with hab | hab
  · rw [max_eq_right hab, max_eq_right (hmono hab)]
  · rw [max_eq_left hab, max_eq_left (hmono hab)]

end

namespace KeyIndex

/-- The versions of a key that is in the index. -/
structure Settled (ki : KeyIndex) : Prop where
  rising : Rising ki.versions
  last : ∃ back, ki.versions.getLast? = some back ∧ ki.lastRevision = back.revision

/-- The newest version is a tombstone, as old as `rev`. -/
def vanishes (ki : KeyIndex) (rev : Int) : Bool :=
  ki.versions.getLast?.any fun back => back.tombstone && decide (back.revision ≤ rev)

/-- The split at the last version up to `rev`, in counts. -/
theorem compact_eq_drop {ki : KeyIndex} (h : Rising ki.versions) (rev : Int) :
    (ki.compact rev).versions = ki.versions.drop (oldCount ki.versions rev - 1) ∧
      (ki.compact rev).versions = keptVersions ki.versions rev := by
  rcases ki.compact_split rev with
    ⟨hrecent, heq⟩ | ⟨front, v, recent, hversions, hv, hrecent, hcompact⟩
  · have hnone : ki.versions.filter (fun u => u.revision ≤ rev) = [] := by
      rw [List.filter_eq_nil_iff]
      intro u hu
      simpa using hrecent u hu
    have hall : ki.versions.filter (fun u => rev < u.revision) = ki.versions := by
      rw [List.filter_eq_self]
      intro u hu
      simpa using hrecent u hu
    rw [heq, oldCount, List.countP_eq_length_filter, keptVersions, hnone, hall]
    exact ⟨rfl, rfl⟩
  · have hfront : ∀ u ∈ front, u.revision ≤ rev := by
      intro u hu
      rw [Rising, hversions, List.pairwise_append] at h
      exact (h.2.2 u hu v List.mem_cons_self).le.trans hv
    have hold : ki.versions.filter (fun u => u.revision ≤ rev) = front ++ [v] := by
      have hnone : recent.filter (fun u => u.revision ≤ rev) = [] := by
        rw [List.filter_eq_nil_iff]
        intro u hu
        simpa using hrecent u hu
      rw [hversions, List.filter_append, List.filter_cons_of_pos (by simpa using hv), hnone,
        List.filter_eq_self.mpr (by simpa using hfront)]
    have hnew : ki.versions.filter (fun u => rev < u.revision) = recent := by
      have hnone : front.filter (fun u => rev < u.revision) = [] := by
        rw [List.filter_eq_nil_iff]
        intro u hu
        simpa using hfront u hu
      rw [hversions, List.filter_append, hnone, List.filter_cons_of_neg (by simpa using hv),
        List.nil_append, List.filter_eq_self.mpr (by simpa using hrecent)]
    constructor
    · rw [hcompact, oldCount, List.countP_eq_length_filter, hold, hversions, List.length_append,
        List.length_singleton, Nat.add_sub_cancel, List.drop_left]
    · rw [hcompact, keptVersions, hold, hnew, List.getLast?_concat]
      rfl

/-- What is dropped by two compactions is what the later one of their revisions drops. -/
theorem compact_compact {ki : KeyIndex} (h : Rising ki.versions) (a b : Int) :
    (ki.compact a).compact b = ki.compact (max a b) := by
  have hfirst := (compact_eq_drop h a).1
  have hrising : Rising (ki.compact a).versions := by
    rw [hfirst]
    exact h.drop
  have hversions : ((ki.compact a).compact b).versions = (ki.compact (max a b)).versions := by
    rw [(compact_eq_drop hrising b).1, hfirst, oldCount_drop h, List.drop_drop,
      (compact_eq_drop h _).1, oldCount_max]
    congr 1
    omega
  calc (ki.compact a).compact b
      = { ki with versions := ((ki.compact a).compact b).versions } := rfl
    _ = { ki with versions := (ki.compact (max a b)).versions } := by rw [hversions]
    _ = ki.compact (max a b) := rfl

theorem vanishes_compact (ki : KeyIndex) (a b : Int) : (ki.compact a).vanishes b = ki.vanishes b := by
  rw [vanishes, getLast?_compact, ← vanishes]

theorem vanishes_max (ki : KeyIndex) (a b : Int) :
    ki.vanishes (max a b) = (ki.vanishes a || ki.vanishes b) := by
  unfold vanishes
  cases ki.versions.getLast? with
  | none => rfl
  | some back =>
    rw [Option.any_some, Option.any_some, Option.any_some, ← Bool.and_or_distrib_left,
      ← Bool.decide_or]
    simp only [le_max_iff]

theorem Settled.compact {ki : KeyIndex} (h : Settled ki) (rev : Int) : Settled (ki.compact rev) where
  rising := by
    rw [(compact_eq_drop h.rising rev).1]
    exact h.rising.drop
  last := by
    rw [getLast?_compact]
    exact h.last

/-- The condition under which a compaction erases a key of the index. -/
theorem Settled.erased_iff {ki : KeyIndex} (h : Settled ki) (rev : Int) :
    ((ki.compact rev).versions.isEmpty = true ∨
      (ki.compact rev).isDeleted = true ∧ (ki.compact rev).lastRevision ≤ rev) ↔
        ki.vanishes rev = true := by
  obtain ⟨back, hback, hlast⟩ := h.last
  have hlast' : (ki.compact rev).versions.getLast? = some back := by rw [getLast?_compact, hback]
  have hnonempty : (ki.compact rev).versions.isEmpty = false := by
    cases hversions : (ki.compact rev).versions with
    | nil => simp [hversions] at hlast'
    | cons => rfl
  have hrevision : (ki.compact rev).lastRevision = back.revision := hlast
  rw [hnonempty, isDeleted, hlast', hrevision, vanishes, hback]
  simp

end KeyIndex

namespace MVCC

inductive Call where
  | write (w : Write)
  | compact (rev : Int)

def call (m : MVCC) : Call → MVCC
  | .write w => m.write w
  | .compact rev => m.compact rev

def after (calls : List Call) : MVCC := calls.foldl call {}

/-- The revisions of the writes among the calls. -/
def writeRevisions (calls : List Call) : List Int :=
  calls.filterMap fun
    | .write w => some w.revision
    | .compact _ => none

/-- Every key in the index is settled, at revisions that have been written. -/
def Tidy (m : MVCC) (revisions : List Int) : Prop :=
  ∀ key ki, m.index.get? key = some ki → ki.Settled ∧ ∀ v ∈ ki.versions, v.revision ∈ revisions

theorem get?_compact_index (m : MVCC) (rev : Int) (key : Bytes)
    (h : ∀ ki, m.index.get? key = some ki → ki.Settled) :
    (m.compact rev).index.get? key = (m.index.get? key).bind fun ki =>
      if ki.vanishes rev then none else some (ki.compact rev) := by
  rw [compact, OrderedMap.get?_filterMap]
  cases hget : m.index.get? key with
  | none => rfl
  | some ki =>
    rw [Option.bind_some, Option.bind_some]
    exact if_congr ((h ki hget).erased_iff rev) rfl rfl

theorem Tidy.write {m : MVCC} {revisions : List Int} (h : m.Tidy revisions) {w : Write}
    (hw : ∀ rev ∈ revisions, rev < w.revision) : (m.write w).Tidy (revisions ++ [w.revision]) := by
  intro key ki hget
  rw [write_index, OrderedMap.get?_insert] at hget
  split_ifs at hget with hkey
  · obtain rfl := Option.some.inj hget
    have hbefore : Rising (m.keyIndex w.key).versions ∧
        ∀ v ∈ (m.keyIndex w.key).versions, v.revision ∈ revisions := by
      unfold keyIndex
      cases hold : m.index.get? w.key with
      | none => exact ⟨List.Pairwise.nil, nofun⟩
      | some old => exact ⟨(h _ _ hold).1.rising, (h _ _ hold).2⟩
    refine ⟨⟨?_, ?_⟩, ?_⟩
    · rw [Rising, KeyIndex.versions_record, List.pairwise_append]
      refine ⟨hbefore.1, List.pairwise_singleton _ _, fun v hv u hu => ?_⟩
      rw [List.mem_singleton.mp hu, Write.revision_version]
      exact hw _ (hbefore.2 v hv)
    · rw [KeyIndex.versions_record, List.getLast?_concat, KeyIndex.lastRevision_record]
      exact ⟨_, rfl, (Write.revision_version _ _ _).symm⟩
    · intro v hv
      rw [KeyIndex.versions_record] at hv
      rcases List.mem_append.mp hv with hv | hv
      · exact List.mem_append_left _ (hbefore.2 v hv)
      · rw [List.mem_singleton.mp hv, Write.revision_version]
        exact List.mem_append_right _ (List.mem_singleton_self _)
  · obtain ⟨hsettled, hrevisions⟩ := h key ki hget
    exact ⟨hsettled, fun v hv => List.mem_append_left _ (hrevisions v hv)⟩

theorem Tidy.compact {m : MVCC} {revisions : List Int} (h : m.Tidy revisions) (rev : Int) :
    (m.compact rev).Tidy revisions := by
  intro key ki hget
  rw [get?_compact_index m rev key fun ki hki => (h key ki hki).1] at hget
  obtain ⟨old, hold, hget⟩ := Option.bind_eq_some_iff.mp hget
  obtain ⟨_, hki⟩ := Option.ite_none_left_eq_some.mp hget
  obtain ⟨hsettled, hrevisions⟩ := h key old hold
  rw [← Option.some.inj hki]
  refine ⟨hsettled.compact rev, fun v hv => hrevisions v ?_⟩
  rw [(KeyIndex.compact_eq_drop hsettled.rising rev).1] at hv
  exact List.mem_of_mem_drop hv

theorem tidy_after (calls : List Call) (h : (writeRevisions calls).Pairwise (· < ·)) :
    (after calls).Tidy (writeRevisions calls) := by
  induction calls using List.reverseRecOn with
  | nil => exact nofun
  | append_singleton calls c ih =>
    rw [writeRevisions, List.filterMap_append] at h ⊢
    rw [after, List.foldl_append]
    have hbefore := ih (List.pairwise_append.mp h).1
    cases c with
    | write w =>
      have hlater : ∀ rev ∈ writeRevisions calls, rev < w.revision := fun rev hrev =>
        (List.pairwise_append.mp h).2.2 rev hrev _ (List.mem_singleton_self _)
      exact hbefore.write hlater
    | compact rev =>
      have hsame := hbefore.compact rev
      rwa [← List.append_nil (writeRevisions calls)] at hsame

/-- Two compactions are one at the later of their revisions. Each leaves a key the versions after its
revision and the last one before them, unless a tombstone as old as the revision is the newest. -/
theorem compactions_compose (calls : List Call) (h : (writeRevisions calls).Pairwise (· < ·)) :
    (∀ a b, (((after calls).compact a).compact b).index = ((after calls).compact (max a b)).index) ∧
    ∀ rev key, ((after calls).compact rev).index.get? key =
      ((after calls).index.get? key).bind fun ki =>
        if ki.vanishes rev then none
        else some { ki with versions := keptVersions ki.versions rev } := by
  have htidy := tidy_after calls h
  constructor
  · intro a b
    apply OrderedMap.ext_get?
    intro key
    rw [get?_compact_index _ b key fun ki hki => ((htidy.compact a) key ki hki).1,
      get?_compact_index _ a key fun ki hki => (htidy key ki hki).1,
      get?_compact_index _ _ key fun ki hki => (htidy key ki hki).1]
    cases hget : (after calls).index.get? key with
    | none => rfl
    | some ki =>
      rw [Option.bind_some, Option.bind_some, KeyIndex.vanishes_max]
      cases ki.vanishes a with
      | true => rfl
      | false =>
        rw [Bool.false_or, if_neg Bool.false_ne_true, Option.bind_some, KeyIndex.vanishes_compact,
          KeyIndex.compact_compact (htidy key ki hget).1.rising]
  · intro rev key
    rw [get?_compact_index _ rev key fun ki hki => (htidy key ki hki).1]
    cases hget : (after calls).index.get? key with
    | none => rfl
    | some ki =>
      rw [Option.bind_some, Option.bind_some, ←
        (KeyIndex.compact_eq_drop (htidy key ki hget).1.rising rev).2]
      rfl

/-- A key put twice and deleted, with a compaction on the way. -/
theorem compactions_compose_deleted :
    let calls : List Call :=
      [.write (.put [107] 1 [1] 0), .write (.put [107] 3 [2] 0), .compact 2, .write (.delete [107] 4)]
    (∀ a b, (((after calls).compact a).compact b).index = ((after calls).compact (max a b)).index) ∧
    ∀ rev key, ((after calls).compact rev).index.get? key =
      ((after calls).index.get? key).bind fun ki =>
        if ki.vanishes rev then none
        else some { ki with versions := keptVersions ki.versions rev } :=
  compactions_compose _ (by decide)

end MVCC
end MyEtcd
