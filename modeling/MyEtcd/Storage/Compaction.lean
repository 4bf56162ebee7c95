import MyEtcd.Storage.History

/-! Reads after a compaction, beside those of the same writes without it.
A compaction either cuts off the oldest versions of a key, or drops a deleted key as a whole, so
that the next put of it begins anew. -/
namespace MyEtcd
open Library

/-- The version that a write adds, with the number and the creation revision given to it. -/
def Write.version (number : Nat) (created : Int) : Write → MvccVersion
  | put _ revision value leaseId =>
    { revision, version := number, createRevision := created, tombstone := false, leaseId, value }
  | delete _ revision =>
    { revision, version := number, createRevision := created, tombstone := true }

@[simp] theorem Write.revision_version (w : Write) (number : Nat) (created : Int) :
    (w.version number created).revision = w.revision := by
  cases w <;> rfl

namespace KeyIndex

theorem versions_record (ki : KeyIndex) (w : Write) : (w.record ki).versions =
    ki.versions ++ [w.version ki.nextVersion (ki.createRevision w.revision)] := by
  cases w <;> rfl

theorem lastRevision_record (ki : KeyIndex) (w : Write) :
    (w.record ki).lastRevision = w.revision := by
  cases w <;> rfl

theorem nextVersion_record (ki : KeyIndex) (w : Write) :
    (w.record ki).nextVersion = ki.nextVersion + 1 := by
  unfold nextVersion
  rw [versions_record, List.getLast?_concat]
  cases w <;> rfl

theorem createRevision_record {ki : KeyIndex} (h : ki.versions ≠ []) (w : Write) (rev : Int) :
    (w.record ki).createRevision rev = ki.createRevision rev := by
  unfold createRevision
  rw [versions_record]
  cases hversions : ki.versions with
  | nil => exact absurd hversions h
  | cons => rfl

/-- How versions written one by one to a fresh key look. -/
structure Recorded (ki : KeyIndex) : Prop where
  last : ∀ v, ki.versions.getLast? = some v → ki.lastRevision = v.revision
  created : ∀ v ∈ ki.versions, ∀ rev, v.createRevision = ki.createRevision rev
  numbered : ∀ v ∈ ki.versions, 0 < v.version

theorem Recorded.record {ki : KeyIndex} (h : Recorded ki) (w : Write) :
    Recorded (w.record ki) where
  last v hv := by
    rw [versions_record, List.getLast?_concat] at hv
    rw [lastRevision_record, ← Option.some.inj hv, Write.revision_version]
  created v hv rev := by
    rw [versions_record] at hv
    by_cases hnil : ki.versions = []
    · rw [hnil, List.nil_append, List.mem_singleton] at hv
      rw [createRevision, versions_record, hnil, hv]
      rfl
    · rw [createRevision_record hnil]
      rcases List.mem_append.mp hv with hold | hnew
      · exact h.created v hold rev
      · obtain ⟨front, rest, hversions⟩ := List.exists_cons_of_ne_nil hnil
        rw [List.mem_singleton.mp hnew]
        cases w <;> simp [Write.version, createRevision, hversions]
  numbered v hv := by
    rw [versions_record] at hv
    rcases List.mem_append.mp hv with hold | hnew
    · exact h.numbered v hold
    · have hnext : 0 < ki.nextVersion := by
        unfold nextVersion
        cases ki.versions.getLast? <;> exact Nat.succ_pos _
      rw [List.mem_singleton.mp hnew]
      cases w <;> exact hnext

theorem recorded_foldl (key : Bytes) (writes : List Write) :
    Recorded (writes.foldl Write.record { key }) := by
  induction writes using List.reverseRecOn with
  | nil => exact ⟨nofun, nofun, nofun⟩
  | append_singleton rest w ih =>
    rw [List.foldl_append]
    exact ih.record w

theorem search_append (old recent : List MvccVersion) (atRev : Int) :
    search (old ++ recent) atRev = (search recent atRev).or (search old atRev) := by
  simp [search, List.find?_append]

theorem isSome_search_iff {versions : List MvccVersion} {atRev : Int} :
    (search versions atRev).isSome ↔
      ∃ v ∈ versions, v.revision ≤ atRev ∧ v.tombstone = false := by
  simp [search]

/-- A put among the writes to a key is a version that is no tombstone. -/
theorem exists_put_iff (ki : KeyIndex) (p : Int → Prop) :
    (∃ w ∈ ki.writes, p w.revision ∧ w.content.isSome) ↔
      ∃ v ∈ ki.versions, p v.revision ∧ v.tombstone = false := by
  simp [writes]

/-- The same versions, but for some of the oldest. -/
structure Trimmed (dropped : List MvccVersion) (whole rest : KeyIndex) : Prop where
  versions : whole.versions = dropped ++ rest.versions
  kept : rest.versions = [] → dropped = []
  created : ∀ rev, whole.createRevision rev = rest.createRevision rev

namespace Trimmed
variable {dropped : List MvccVersion} {whole rest : KeyIndex}

theorem getLast?_eq (h : Trimmed dropped whole rest) :
    whole.versions.getLast? = rest.versions.getLast? := by
  rw [h.versions]
  by_cases hnil : rest.versions = []
  · rw [h.kept hnil, hnil]
    rfl
  · exact List.getLast?_append_of_ne_nil dropped hnil

theorem record (h : Trimmed dropped whole rest) (w : Write) :
    Trimmed dropped (w.record whole) (w.record rest) where
  versions := by
    have hnext : whole.nextVersion = rest.nextVersion := by
      unfold nextVersion
      rw [h.getLast?_eq]
    rw [versions_record, versions_record, h.versions, hnext, h.created, List.append_assoc]
  kept hnil := by
    rw [versions_record] at hnil
    exact absurd hnil (List.concat_ne_nil _ _)
  created rev := by
    by_cases hnil : rest.versions = []
    · have hwhole : whole.versions = [] := by rw [h.versions, h.kept hnil, hnil, List.append_nil]
      have hfirst : whole.createRevision w.revision = rest.createRevision w.revision := h.created _
      unfold createRevision at hfirst ⊢
      rw [versions_record, versions_record, hwhole, hnil]
      cases w <;> exact hfirst
    · have hwhole : whole.versions ≠ [] := by
        rw [h.versions]
        exact List.append_ne_nil_of_right_ne_nil dropped hnil
      rw [createRevision_record hwhole, createRevision_record hnil, h.created]

/-- Reads differ where the version found is one of those cut off. -/
theorem read_iff (h : Trimmed dropped whole rest) (key : Bytes) (atRev : Int) :
    rest.read key atRev = whole.read key atRev ↔ whole.isDeleted ∨ atRev = 0 ∨
      search dropped atRev = none ∨ (search rest.versions atRev).isSome := by
  have hdeleted : rest.isDeleted = whole.isDeleted := by
    unfold isDeleted
    rw [h.getLast?_eq]
  rw [read_eq, read_eq, hdeleted, h.getLast?_eq]
  by_cases hgone : whole.isDeleted
  · simp [hgone]
  by_cases hzero : atRev = 0
  · simp [hzero]
  rw [h.versions, search_append]
  cases search rest.versions atRev with
  | some v => simp
  | none => cases search dropped atRev <;> simp [hgone, hzero]

end Trimmed

/-- A version with a higher number and another creation revision. -/
def renumber (n : Nat) (created : Int) (v : MvccVersion) : MvccVersion :=
  { v with version := v.version + n, createRevision := created }

theorem search_renumber (n : Nat) (created : Int) (versions : List MvccVersion) (atRev : Int) :
    search (versions.map (renumber n created)) atRev =
      (search versions atRev).map (renumber n created) := by
  rw [search, ← List.map_reverse, List.find?_map]
  rfl

/-- The versions since a key was dropped, which have lower numbers and a creation of their own. -/
structure Restarted (old : List MvccVersion) (n : Nat) (created : Int) (whole rest : KeyIndex) :
    Prop where
  versions : whole.versions = old ++ rest.versions.map (renumber n created)
  before : old ≠ []
  positive : 0 < n
  number : whole.nextVersion = rest.nextVersion + n
  created : ∀ rev, whole.createRevision rev = created
  gone : rest.versions = [] → whole.isDeleted = true

namespace Restarted
variable {old : List MvccVersion} {n : Nat} {created : Int} {whole rest : KeyIndex}

theorem record (h : Restarted old n created whole rest) (w : Write) :
    Restarted old n created (w.record whole) (w.record rest) where
  versions := by
    rw [versions_record, versions_record, h.versions, h.number, h.created, List.map_append,
      List.append_assoc]
    cases w <;> rfl
  before := h.before
  positive := h.positive
  number := by rw [nextVersion_record, nextVersion_record, h.number, Nat.add_right_comm]
  created rev := by
    have hwhole : whole.versions ≠ [] := by
      rw [h.versions]
      exact List.append_ne_nil_of_left_ne_nil h.before _
    rw [createRevision_record hwhole, h.created]
  gone hnil := by
    rw [versions_record] at hnil
    exact absurd hnil (List.concat_ne_nil _ _)

theorem isDeleted_eq (h : Restarted old n created whole rest) :
    rest.isDeleted = whole.isDeleted := by
  by_cases hnil : rest.versions = []
  · rw [h.gone hnil, isDeleted, hnil]
    rfl
  · have hmapped : rest.versions.map (renumber n created) ≠ [] := by simpa using hnil
    unfold isDeleted
    rw [h.versions, List.getLast?_append_of_ne_nil old hmapped, List.getLast?_map]
    cases rest.versions.getLast? <;> rfl

/-- Nothing that is there reads as before. -/
theorem read_iff (h : Restarted old n created whole rest) (key : Bytes) (atRev : Int) :
    rest.read key atRev = whole.read key atRev ↔
      whole.isDeleted ∨ atRev ≠ 0 ∧ search whole.versions atRev = none := by
  have hlater (v : MvccVersion) : v.keyValue key ≠ (renumber n created v).keyValue key := by
    intro heq
    have hnumber : v.version = v.version + n := congrArg KeyValue.version heq
    have := h.positive
    omega
  rw [read_eq, read_eq, h.isDeleted_eq]
  by_cases hgone : whole.isDeleted
  · simp [hgone]
  by_cases hzero : atRev = 0
  · have hnil : rest.versions ≠ [] := fun hnil => hgone (h.gone hnil)
    have hmapped : rest.versions.map (renumber n created) ≠ [] := by simpa using hnil
    rw [h.versions, List.getLast?_append_of_ne_nil old hmapped, List.getLast?_map,
      List.getLast?_eq_some_getLast hnil]
    simp [hgone, hzero, hlater]
  · rw [h.versions, search_append, search_renumber]
    cases search rest.versions atRev with
    | some v => simp [hgone, hzero, hlater]
    | none => cases search old atRev <;> simp [hgone, hzero]

end Restarted

theorem trimmed_foldl {dropped : List MvccVersion} {whole rest : KeyIndex}
    (h : Trimmed dropped whole rest) (writes : List Write) :
    Trimmed dropped (writes.foldl Write.record whole) (writes.foldl Write.record rest) := by
  induction writes generalizing whole rest with
  | nil => exact h
  | cons w _ ih => exact ih (h.record w)

theorem restarted_foldl {old : List MvccVersion} {n : Nat} {created : Int} {whole rest : KeyIndex}
    (h : Restarted old n created whole rest) (writes : List Write) :
    Restarted old n created (writes.foldl Write.record whole) (writes.foldl Write.record rest) := by
  induction writes generalizing whole rest with
  | nil => exact h
  | cons w _ ih => exact ih (h.record w)

theorem versions_foldl (ki : KeyIndex) (writes : List Write) :
    ∃ more, (writes.foldl Write.record ki).versions = ki.versions ++ more := by
  induction writes generalizing ki with
  | nil => exact ⟨[], (List.append_nil _).symm⟩
  | cons w _ ih =>
    obtain ⟨more, hmore⟩ := ih (w.record ki)
    rw [versions_record, List.append_assoc] at hmore
    exact ⟨_, hmore⟩

private theorem keep_foldl {recent : List MvccVersion} {rev : Int}
    (h : ∀ u ∈ recent, rev < u.revision) (keep start : Nat) :
    (recent.zipIdx start).foldl (fun keep u => if u.1.revision ≤ rev then u.2 else keep) keep =
      keep := by
  induction recent generalizing start with
  | nil => rfl
  | cons u rest ih =>
    rw [List.zipIdx_cons, List.foldl_cons, if_neg (not_le.mpr (h u List.mem_cons_self))]
    exact ih (fun x hx => h x (List.mem_cons_of_mem _ hx)) _

/-- The last version up to a revision is the first one that a compaction keeps. -/
theorem versions_compact {ki : KeyIndex} {front recent : List MvccVersion} {v : MvccVersion}
    {rev : Int} (hversions : ki.versions = front ++ v :: recent) (hv : v.revision ≤ rev)
    (hrecent : ∀ u ∈ recent, rev < u.revision) : (ki.compact rev).versions = v :: recent := by
  have hkeep : ki.keepUntil rev = front.length := by
    rw [keepUntil, hversions, List.zipIdx_append, List.foldl_append, List.zipIdx_cons,
      List.foldl_cons, if_pos hv, keep_foldl hrecent, Nat.zero_add]
  rw [compact, hkeep, hversions, List.drop_left]

theorem compact_of_recent {ki : KeyIndex} {rev : Int} (h : ∀ u ∈ ki.versions, rev < u.revision) :
    ki.compact rev = ki := by
  rw [compact, keepUntil, keep_foldl h, List.drop_zero]

/-- Either a compaction has nothing to cut off, or there is a last version up to its revision. -/
theorem compact_split (ki : KeyIndex) (rev : Int) :
    ((∀ u ∈ ki.versions, rev < u.revision) ∧ ki.compact rev = ki) ∨
    ∃ front v recent, ki.versions = front ++ v :: recent ∧ v.revision ≤ rev ∧
      (∀ u ∈ recent, rev < u.revision) ∧ (ki.compact rev).versions = v :: recent := by
  by_cases hold : ∀ v ∈ ki.versions, rev < v.revision
  · exact .inl ⟨hold, compact_of_recent hold⟩
  · have hfound : (ki.versions.reverse.find? fun u => u.revision ≤ rev).isSome := by
      simpa using hold
    obtain ⟨v, hv⟩ := Option.isSome_iff_exists.mp hfound
    obtain ⟨hrev, after, before, hsplit, hafter⟩ := List.find?_eq_some_iff_append.mp hv
    have hversions : ki.versions = before.reverse ++ v :: after.reverse := by
      rw [← List.reverse_reverse ki.versions, hsplit]
      simp
    have hrecent : ∀ u ∈ after.reverse, rev < u.revision := by
      simpa using hafter
    replace hrev := of_decide_eq_true hrev
    exact .inr ⟨_, v, _, hversions, hrev, hrecent, versions_compact hversions hrev hrecent⟩

theorem getLast?_compact (ki : KeyIndex) (rev : Int) :
    (ki.compact rev).versions.getLast? = ki.versions.getLast? := by
  rcases ki.compact_split rev with ⟨_, heq⟩ | ⟨front, v, recent, hversions, _, _, hcompact⟩
  · rw [heq]
  · rw [hcompact, hversions, List.getLast?_append_of_ne_nil front (List.cons_ne_nil v recent)]

/-- A compaction leaves the last version up to the revision and those after it, or nothing if that
is a tombstone and there are none after it. -/
theorem compact_cases {ki rest : KeyIndex} {key : Bytes} {rev : Int} (h : Recorded ki)
    (hrest : rest = if (ki.compact rev).versions.isEmpty ∨
      (ki.compact rev).isDeleted ∧ (ki.compact rev).lastRevision ≤ rev then { key }
        else ki.compact rev) :
    ((∀ u ∈ ki.versions, rev < u.revision) ∧ Trimmed [] ki rest) ∨
    ∃ front v recent, ki.versions = front ++ v :: recent ∧ v.revision ≤ rev ∧
      (∀ u ∈ recent, rev < u.revision) ∧
      ((v.tombstone = true ∧ recent = [] ∧ ∃ n created, Restarted ki.versions n created ki rest) ∨
        ((v.tombstone = true → recent ≠ []) ∧ Trimmed front ki rest)) := by
  rcases ki.compact_split rev with
    ⟨hold, heq⟩ | ⟨front, v, recent, hversions, hrev, hrecent, hcompact⟩
  · refine .inl ⟨hold, ?_⟩
    rw [heq] at hrest
    by_cases hnil : ki.versions = []
    · rw [if_pos (.inl (by rw [hnil]; rfl))] at hrest
      exact ⟨by rw [hrest, hnil]; rfl, fun _ => rfl, fun _ => by rw [hrest, createRevision, hnil]; rfl⟩
    · have hlast := List.getLast?_eq_some_getLast hnil
      have hlater := hold _ (List.getLast_mem hnil)
      rw [← h.last _ hlast] at hlater
      rw [if_neg (by simp [hnil, hlater])] at hrest
      exact ⟨by rw [hrest]; rfl, fun _ => rfl, fun _ => by rw [hrest]⟩
  · have hmem : v ∈ ki.versions := by
      rw [hversions]
      simp
    have hcreated (created : Int) : ki.createRevision created = v.createRevision :=
      (h.created v hmem created).symm
    refine .inr ⟨front, v, recent, hversions, hrev, hrecent, ?_⟩
    have htrimmed (heq : rest = ki.compact rev) : Trimmed front ki rest := by
      refine ⟨by rw [heq, hcompact, hversions], fun hnil => ?_, fun created => ?_⟩
      · rw [heq, hcompact] at hnil
        cases hnil
      · rw [hcreated, heq, createRevision, hcompact]
        rfl
    have hlastRevision : (ki.compact rev).lastRevision = ki.lastRevision := rfl
    have hnonempty : ¬ (ki.compact rev).versions.isEmpty = true := by simp [hcompact]
    cases hrecent' : recent.getLast? with
    | none =>
      obtain rfl := List.getLast?_eq_none_iff.mp hrecent'
      have hlast : ki.versions.getLast? = some v := by
        rw [hversions, List.getLast?_concat]
      have hdeleted : (ki.compact rev).isDeleted = v.tombstone := by
        rw [isDeleted, hcompact]
        rfl
      rw [hlastRevision, h.last v hlast, hdeleted] at hrest
      by_cases htombstone : v.tombstone
      · rw [if_pos (.inr ⟨htombstone, hrev⟩)] at hrest
        refine .inl ⟨htombstone, rfl, v.version, v.createRevision, ?_⟩
        refine ⟨by rw [hrest]; simp, List.ne_nil_of_mem hmem, h.numbered v hmem, ?_, hcreated, ?_⟩
        · rw [hrest, nextVersion, hlast]
          exact Nat.add_comm _ _
        · intro _
          rw [isDeleted, hlast]
          exact htombstone
      · rw [if_neg (by simp [hnonempty, htombstone])] at hrest
        exact .inr ⟨fun h => absurd h htombstone, htrimmed hrest⟩
    | some u =>
      have hne : recent ≠ [] := by
        rintro rfl
        cases hrecent'
      have hlast : ki.versions.getLast? = some u := by
        rw [hversions, List.getLast?_append_of_ne_nil front (List.cons_ne_nil _ _),
          List.getLast?_cons, hrecent']
        rfl
      have hlater : ¬ u.revision ≤ rev :=
        not_le.mpr (hrecent u (List.mem_of_getLast? hrecent'))
      rw [hlastRevision, h.last u hlast, if_neg (by simp [hnonempty, hlater])] at hrest
      exact .inr ⟨fun _ => hne, htrimmed hrest⟩

end KeyIndex

namespace Write

def Ascending (writes : List Write) : Prop :=
  writes.Pairwise fun v w => v.revision < w.revision

instance (writes : List Write) : Decidable (Ascending writes) :=
  inferInstanceAs (Decidable (writes.Pairwise _))

/-- The key reads at `atRev` as if there had been no compaction at `r` after the writes `before`. -/
structure Spared (before after : List Write) (r : Int) (key : Bytes) (atRev : Int) : Prop where
  /-- A key dropped as a whole is not there later, or had not been put up to `atRev`. -/
  dropped : ∀ d, (on before key).getLast? = some d → d.revision ≤ r → d.content = none →
    ((latest (before ++ after)).get? key).isSome →
      atRev ≠ 0 ∧ ¬ ∃ w ∈ on (before ++ after) key, w.revision ≤ atRev ∧ w.content.isSome
  /-- A key whose tombstone at `r` was kept had been put since, or never up to `atRev`. -/
  cut : ∀ d, ((on before key).filter fun w => w.revision ≤ r).getLast? = some d →
    d.content = none → (∃ w ∈ on before key, r < w.revision) →
      ((latest (before ++ after)).get? key).isSome → atRev ≠ 0 →
        (∃ w ∈ on (before ++ after) key, w.revision ≤ atRev ∧ w.content.isSome) →
          ∃ w ∈ on (before ++ after) key,
            (r < w.revision ∧ w.revision ≤ atRev) ∧ w.content.isSome

end Write

namespace MVCC

theorem keyIndex_compact (m : MVCC) (rev : Int) (key : Bytes) : (m.compact rev).keyIndex key =
    if ((m.keyIndex key).compact rev).versions.isEmpty ∨
      ((m.keyIndex key).compact rev).isDeleted ∧
        ((m.keyIndex key).compact rev).lastRevision ≤ rev then { key }
    else (m.keyIndex key).compact rev := by
  unfold keyIndex
  rw [compact, OrderedMap.get?_filterMap]
  cases m.index.get? key with
  | none => rfl
  | some ki =>
    rw [Option.bind_some]
    dsimp only [Option.getD_some]
    split_ifs <;> rfl

/-- Two indices of ranges agree up to every limit if every key in the range reads alike. -/
theorem within_inj (m m' : MVCC) (atRev : Int) (inside : Bytes → Bool) :
    (∀ limit, truncate limit ((m.visible atRev).within inside).values =
        truncate limit ((m'.visible atRev).within inside).values) ↔
      ∀ key, inside key → m.get key atRev = m'.get key atRev := by
  rw [truncate_inj]
  constructor
  · intro h key hinside
    have hlabelled := congrArg (List.map fun kv => (kv.key, id kv)) h
    rw [visible_labelled, visible_labelled, OrderedMap.entries_inj] at hlabelled
    simpa [OrderedMap.get?_within, hinside, get_eq] using hlabelled key
  · intro h
    refine congrArg OrderedMap.values (OrderedMap.ext_get? fun key => ?_)
    rw [OrderedMap.get?_within, OrderedMap.get?_within, ← get_eq, ← get_eq]
    split_ifs with hinside
    · exact h key hinside
    · rfl

theorem keyIndex_append (before after : List Write) (key : Bytes) :
    (written (before ++ after)).keyIndex key =
      (Write.on after key).foldl Write.record ((written before).keyIndex key) := by
  rw [written, List.foldl_append, keyIndex_writes]
  rfl

theorem recorded_keyIndex (writes : List Write) (key : Bytes) :
    ((written writes).keyIndex key).Recorded := by
  rw [written, keyIndex_writes]
  exact KeyIndex.recorded_foldl key _

/-- Nobody comes or goes by a compaction. -/
theorem isDeleted_compacted (before after : List Write) (r : Int) (key : Bytes) :
    ((after.foldl write ((written before).compact r)).keyIndex key).isDeleted =
      ((written (before ++ after)).keyIndex key).isDeleted := by
  have htrim {dropped : List MvccVersion} {whole rest : KeyIndex}
      (h : KeyIndex.Trimmed dropped whole rest) : rest.isDeleted = whole.isDeleted := by
    unfold KeyIndex.isDeleted
    rw [h.getLast?_eq]
  rw [keyIndex_append, keyIndex_writes]
  rcases KeyIndex.compact_cases (recorded_keyIndex before key) (keyIndex_compact _ r key) with
    ⟨_, h⟩ | ⟨_, _, _, _, _, _, ⟨_, _, _, _, h⟩ | ⟨_, h⟩⟩
  · exact htrim (KeyIndex.trimmed_foldl h _)
  · exact (KeyIndex.restarted_foldl h _).isDeleted_eq
  · exact htrim (KeyIndex.trimmed_foldl h _)

theorem isSome_latest_iff (writes : List Write) (key : Bytes) :
    ((Write.latest writes).get? key).isSome ↔ ¬ ((written writes).keyIndex key).isDeleted := by
  rw [KeyIndex.isDeleted_eq, writes_keyIndex, Write.get?_latest, Bool.not_eq_true,
    Option.isNone_eq_false_iff]

theorem exists_put_on (writes : List Write) (key : Bytes) (p : Int → Prop) :
    (∃ w ∈ Write.on writes key, p w.revision ∧ w.content.isSome) ↔
      ∃ u ∈ ((written writes).keyIndex key).versions, p u.revision ∧ u.tombstone = false := by
  have hputs := ((written writes).keyIndex key).exists_put_iff p
  rwa [writes_keyIndex] at hputs

theorem pairwise_versions {writes : List Write} (h : Write.Ascending writes) (key : Bytes) :
    ((written writes).keyIndex key).versions.Pairwise fun u v => u.revision < v.revision := by
  have hon : (Write.on writes key).Pairwise fun v w => v.revision < w.revision := h.filter _
  rw [← writes_keyIndex, KeyIndex.writes, List.pairwise_map] at hon
  simpa only [MvccVersion.revision_write] using hon

theorem exists_version {writes : List Write} {key : Bytes} {w : Write} (h : w ∈ Write.on writes key) :
    ∃ u ∈ ((written writes).keyIndex key).versions, w.revision = u.revision := by
  rw [← writes_keyIndex] at h
  obtain ⟨u, hu, rfl⟩ := List.mem_map.mp h
  exact ⟨u, hu, u.revision_write _⟩

section Compacted
variable {before after : List Write} {r atRev : Int} {key : Bytes} {front recent : List MvccVersion}
  {v : MvccVersion}

/-- The last write up to `r` is the version that the compaction finds. -/
theorem getLast?_upTo (hversions : ((written before).keyIndex key).versions = front ++ v :: recent)
    (hv : v.revision ≤ r) (hrecent : ∀ u ∈ recent, r < u.revision) :
    ((Write.on before key).filter fun w => w.revision ≤ r).getLast? =
      some (v.write ((written before).keyIndex key).key) := by
  have hnone : recent.filter (fun u => u.revision ≤ r) = [] := by
    simpa using hrecent
  rw [← writes_keyIndex, KeyIndex.writes, hversions, List.filter_map, List.getLast?_map]
  simp [Function.comp_def, List.filter_append, hv, hnone]

/-- A key without writes up to `r` is left alone. -/
theorem get_recent_iff (hrecent : ∀ u ∈ ((written before).keyIndex key).versions, r < u.revision)
    (htrimmed : KeyIndex.Trimmed [] ((written before).keyIndex key)
      (((written before).compact r).keyIndex key)) :
    (after.foldl write ((written before).compact r)).get key atRev =
        (written (before ++ after)).get key atRev ↔
      Write.Spared before after r key atRev := by
  have hread := (KeyIndex.trimmed_foldl htrimmed (Write.on after key)).read_iff key atRev
  rw [← keyIndex_append] at hread
  have hafter : ∀ w ∈ Write.on before key, r < w.revision := by
    intro w hw
    obtain ⟨u, hu, hrevision⟩ := exists_version hw
    exact hrevision ▸ hrecent u hu
  rw [get_keyIndex, get_keyIndex, keyIndex_writes]
  refine hread.trans (iff_of_true (.inr (.inr (.inl rfl))) ⟨fun d hd hle => ?_, fun d hd => ?_⟩)
  · exact absurd hle (not_le.mpr (hafter d (List.mem_of_getLast? hd)))
  · obtain ⟨hmem, hle⟩ := List.mem_filter.mp (List.mem_of_getLast? hd)
    exact absurd (of_decide_eq_true hle) (not_le.mpr (hafter d hmem))

/-- A key whose last write is a deletion up to `r` is dropped; a later put begins it anew. -/
theorem get_restarted_iff (hascending : Write.Ascending (before ++ after)) {n : Nat} {created : Int}
    (hversions : ((written before).keyIndex key).versions = front ++ [v]) (hv : v.revision ≤ r)
    (htombstone : v.tombstone = true)
    (hrestarted : KeyIndex.Restarted ((written before).keyIndex key).versions n created
      ((written before).keyIndex key) (((written before).compact r).keyIndex key)) :
    (after.foldl write ((written before).compact r)).get key atRev =
        (written (before ++ after)).get key atRev ↔
      Write.Spared before after r key atRev := by
  have hread := (KeyIndex.restarted_foldl hrestarted (Write.on after key)).read_iff key atRev
  rw [← keyIndex_append, ← Option.not_isSome_iff_eq_none, KeyIndex.isSome_search_iff,
    ← exists_put_on _ _ (· ≤ atRev)] at hread
  have hpairwise := pairwise_versions (List.pairwise_append.mp hascending).1 key
  rw [hversions] at hpairwise
  have hup : ∀ w ∈ Write.on before key, w.revision ≤ r := by
    intro w hw
    obtain ⟨u, hu, hrevision⟩ := exists_version hw
    rw [hversions] at hu
    rcases List.mem_append.mp hu with hu | hu
    · have := (List.pairwise_append.mp hpairwise).2.2 u hu v List.mem_cons_self
      omega
    · rw [hrevision, List.mem_singleton.mp hu]
      exact hv
  have hall : (Write.on before key).filter (fun w => w.revision ≤ r) = Write.on before key :=
    List.filter_eq_self.mpr fun w hw => decide_eq_true (hup w hw)
  have hlast := getLast?_upTo hversions hv (by simp)
  rw [hall] at hlast
  rw [get_keyIndex, get_keyIndex, keyIndex_writes, hread]
  constructor
  · intro h
    refine ⟨fun d _ _ _ hthere => h.resolve_left ((isSome_latest_iff _ _).mp hthere),
      fun _ _ _ hex => ?_⟩
    obtain ⟨w, hw, hlt⟩ := hex
    exact absurd (hup w hw) (not_le.mpr hlt)
  · intro h
    refine or_iff_not_imp_left.mpr fun hthere => ?_
    refine h.dropped _ hlast (by simpa using hv) ?_ ((isSome_latest_iff _ _).mpr hthere)
    exact Option.not_isSome_iff_eq_none.mp (by simp [htombstone])

/-- Of a key that stays, the versions before the last one up to `r` are lost. -/
theorem get_trimmed_iff (hascending : Write.Ascending (before ++ after)) (hrev : atRev = 0 ∨ r ≤ atRev)
    (hversions : ((written before).keyIndex key).versions = front ++ v :: recent)
    (hv : v.revision ≤ r) (hrecent : ∀ u ∈ recent, r < u.revision)
    (hkept : v.tombstone = true → recent ≠ [])
    (htrimmed : KeyIndex.Trimmed front ((written before).keyIndex key)
      (((written before).compact r).keyIndex key)) :
    (after.foldl write ((written before).compact r)).get key atRev =
        (written (before ++ after)).get key atRev ↔
      Write.Spared before after r key atRev := by
  have hlive := isSome_latest_iff (before ++ after) key
  have hputs := exists_put_on (before ++ after) key
  have hlast := getLast?_upTo hversions hv hrecent
  obtain ⟨more, hmore⟩ := KeyIndex.versions_foldl ((written before).keyIndex key)
    (Write.on after key)
  rw [← keyIndex_append, hversions, List.append_assoc] at hmore
  have hpairwise := pairwise_versions hascending key
  rw [hmore] at hpairwise
  obtain ⟨-, hrest, hfront⟩ := List.pairwise_append.mp hpairwise
  have htrimmed := KeyIndex.trimmed_foldl htrimmed (Write.on after key)
  have hread := htrimmed.read_iff key atRev
  have hversions' := htrimmed.versions
  rw [← keyIndex_append] at hread hversions'
  rw [hversions', List.append_cancel_left_eq] at hmore
  rw [get_keyIndex, get_keyIndex, keyIndex_writes]
  generalize (Write.on after key).foldl Write.record
    (((written before).compact r).keyIndex key) = rest at hread hversions' hmore ⊢
  have htombstone {name : Bytes} (hnone : (v.write name).content = none) : v.tombstone = true := by
    have hsome := v.isSome_content_write name
    rw [hnone] at hsome
    simpa using hsome
  have hfound : (KeyIndex.search rest.versions atRev).isSome ↔
      ∃ u ∈ v :: (recent ++ more), u.revision ≤ atRev ∧ u.tombstone = false := by
    rw [KeyIndex.isSome_search_iff, hmore]
    rfl
  have hsince (hgone : v.tombstone = true) : (KeyIndex.search rest.versions atRev).isSome ↔
      ∃ w ∈ Write.on (before ++ after) key,
        (r < w.revision ∧ w.revision ≤ atRev) ∧ w.content.isSome := by
    have hlater : ∀ u ∈ recent ++ more, r < u.revision := by
      intro u hu
      rcases List.mem_append.mp hu with hu | hu
      · exact hrecent u hu
      · obtain ⟨x, hx⟩ := List.exists_mem_of_ne_nil recent (hkept hgone)
        have hxu := (List.pairwise_append.mp hrest).2.2 x (List.mem_cons_of_mem v hx) u hu
        exact (hrecent x hx).trans hxu
    rw [hfound, hputs fun rev => r < rev ∧ rev ≤ atRev, hversions', hmore]
    constructor
    · rintro ⟨u, hu, hle, hput⟩
      refine ⟨u, List.mem_append_right front hu, ⟨?_, hle⟩, hput⟩
      rcases List.mem_cons.mp hu with rfl | hu
      · rw [hgone] at hput
        cases hput
      · exact hlater u hu
    · rintro ⟨u, hu, ⟨hlt, hle⟩, hput⟩
      rcases List.mem_append.mp hu with hu | hu
      · have := hfront u hu v List.mem_cons_self
        omega
      · exact ⟨u, hu, hle, hput⟩
  have hany : (∃ w ∈ Write.on (before ++ after) key, w.revision ≤ atRev ∧ w.content.isSome) ↔
      ¬ KeyIndex.search front atRev = none ∨ (KeyIndex.search rest.versions atRev).isSome := by
    rw [hputs (· ≤ atRev), ← KeyIndex.isSome_search_iff, hversions', KeyIndex.search_append,
      Option.isSome_or, Bool.or_eq_true, or_comm, Option.isSome_iff_ne_none]
  rw [hread]
  constructor
  · intro h
    refine ⟨fun d hd hle hnone _ => ?_, fun d hd hnone _ hthere hne hput => ?_⟩
    · rw [← writes_keyIndex, KeyIndex.writes, hversions, List.getLast?_map,
        List.getLast?_append_of_ne_nil front (List.cons_ne_nil v recent), List.getLast?_cons,
        Option.map_some, Option.some.injEq] at hd
      cases hend : recent.getLast? with
      | none =>
        rw [hend] at hd
        subst hd
        exact absurd (List.getLast?_eq_none_iff.mp hend) (hkept (htombstone hnone))
      | some u =>
        rw [hend] at hd
        subst hd
        have hu := hrecent u (List.mem_of_getLast? hend)
        rw [MvccVersion.revision_write] at hle
        exact absurd hle (not_le.mpr hu)
    · obtain rfl := Option.some.inj (hlast.symm.trans hd)
      rw [← hsince (htombstone hnone)]
      have hcut := (h.resolve_left (hlive.mp hthere)).resolve_left hne
      exact (hany.mp hput).elim (fun hold => hcut.resolve_left hold) id
  · intro h
    by_cases hgone : v.tombstone
    · refine or_iff_not_imp_left.mpr fun hthere => or_iff_not_imp_left.mpr fun hne =>
        or_iff_not_imp_left.mpr fun hold => (hsince hgone).mpr ?_
      refine h.cut _ hlast ?_ ?_ (hlive.mpr hthere) hne (hany.mpr (.inl hold))
      · exact Option.not_isSome_iff_eq_none.mp (by simp [hgone])
      · obtain ⟨x, hx⟩ := List.exists_mem_of_ne_nil recent (hkept hgone)
        rw [← writes_keyIndex, KeyIndex.writes, hversions]
        refine ⟨_, List.mem_map_of_mem (List.mem_append_right front (List.mem_cons_of_mem v hx)), ?_⟩
        rw [MvccVersion.revision_write]
        exact hrecent x hx
    · refine .inr (hrev.imp id fun hle => .inr (hfound.mpr ⟨v, List.mem_cons_self, ?_, ?_⟩))
      · exact hv.trans hle
      · exact Bool.eq_false_iff.mpr hgone

end Compacted

theorem get_compacted_iff {before after : List Write} {r atRev : Int} (key : Bytes)
    (hascending : Write.Ascending (before ++ after)) (hrev : atRev = 0 ∨ r ≤ atRev) :
    (after.foldl write ((written before).compact r)).get key atRev =
        (written (before ++ after)).get key atRev ↔
      Write.Spared before after r key atRev := by
  rcases KeyIndex.compact_cases (recorded_keyIndex before key) (keyIndex_compact _ r key) with
    ⟨hrecent, htrimmed⟩ | ⟨front, v, recent, hversions, hv, hrecent, hcases⟩
  · exact get_recent_iff hrecent htrimmed
  rcases hcases with ⟨htombstone, rfl, n, created, hrestarted⟩ | ⟨hkept, htrimmed⟩
  · exact get_restarted_iff hascending hversions hv htombstone hrestarted
  · exact get_trimmed_iff hascending hrev hversions hv hrecent hkept htrimmed

/-- A compaction leaves the keys as they are, and exactly the spared ones read as without it. -/
theorem compaction_transparent_iff (before after : List Write) {r atRev : Int}
    (hascending : Write.Ascending (before ++ after)) (hrev : atRev = 0 ∨ r ≤ atRev) :
    (after.foldl write ((written before).compact r)).keys = (written (before ++ after)).keys ∧
    (∀ key, (after.foldl write ((written before).compact r)).get key atRev =
        (written (before ++ after)).get key atRev ↔ Write.Spared before after r key atRev) ∧
    (∀ start stop, (∀ limit,
        (after.foldl write ((written before).compact r)).range start stop atRev limit =
          (written (before ++ after)).range start stop atRev limit) ↔
      ∀ key, start ≤ key → OrderedMap.below stop key →
        Write.Spared before after r key atRev) ∧
    (∀ front, (∀ limit,
        (after.foldl write ((written before).compact r)).prefixRange front atRev limit =
          (written (before ++ after)).prefixRange front atRev limit) ↔
      ∀ key, front.isPrefixOf key → Write.Spared before after r key atRev) := by
  have hget (key : Bytes) := get_compacted_iff key hascending hrev
  refine ⟨?_, hget, fun start stop => ?_, fun front => ?_⟩
  · rw [keys_eq, keys_eq]
    refine OrderedMap.keys_congr fun key => ?_
    rw [← get_eq, ← get_eq, get_keyIndex, get_keyIndex, KeyIndex.isSome_read_zero,
      KeyIndex.isSome_read_zero, isDeleted_compacted]
  · simp only [range_eq, within_inj, hget, decide_eq_true_eq, and_imp]
  · simp only [prefixRange_eq, within_inj, hget]

/-- A key put again after it was dropped starts over with its first version, and a search that had
passed over the tombstone of a key finds nothing beyond it. -/
theorem compaction_shows :
    ((written [.put [107] 1 [97] 0, .delete [107] 2, .put [107] 3 [98] 0]).get [107] 0) =
      some ⟨[107], [98], 1, 3, 3, 0⟩ ∧
    (([.put [107] 3 [98] 0] : List Write).foldl write
      ((written [.put [107] 1 [97] 0, .delete [107] 2]).compact 2)).get [107] 0 =
        some ⟨[107], [98], 3, 3, 1, 0⟩ ∧
    ((written [.put [107] 1 [97] 0, .delete [107] 2, .put [107] 3 [98] 0]).get [107] 2) =
      some ⟨[107], [97], 1, 1, 1, 0⟩ ∧
    ((written [.put [107] 1 [97] 0, .delete [107] 2, .put [107] 3 [98] 0]).compact 2).get [107] 2 =
      none := by
  decide

/-- A compaction between two puts of a key. -/
theorem compaction_transparent_iff_twoPuts :
    (([.put [107] 3 [99] 0] : List Write).foldl write
      ((written [.put [107] 1 [97] 0, .put [107] 2 [98] 0]).compact 2)).get [107] 2 =
        (written [.put [107] 1 [97] 0, .put [107] 2 [98] 0, .put [107] 3 [99] 0]).get [107] 2 := by
  refine ((compaction_transparent_iff [.put [107] 1 [97] 0, .put [107] 2 [98] 0]
    [.put [107] 3 [99] 0] (r := 2) (by decide) (.inr le_rfl)).2.1 [107]).mpr ⟨?_, ?_⟩
  · rintro d hd - hnone
    obtain rfl : Write.put [107] 2 [98] 0 = d := Option.some.inj hd
    cases hnone
  · rintro d hd hnone
    obtain rfl : Write.put [107] 2 [98] 0 = d := Option.some.inj hd
    cases hnone

end MVCC
end MyEtcd
