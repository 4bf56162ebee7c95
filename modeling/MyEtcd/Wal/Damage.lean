import MyEtcd.Wal.Acceptance
import MyEtcd.Wal.Runs

/-! A record whose bytes behind the length field have been damaged.
The reader steps over it by its length, so that the records behind it are read all the same. -/
namespace MyEtcd
open Library

namespace WAL

/-- The entries that are read back stand in front of the others. -/
def Front (entries : List RaftEntry) : Prop :=
  ∃ read unread, entries = read ++ unread ∧ (∀ e ∈ read, Readable e) ∧ ∀ e ∈ unread, ¬ Readable e

/-- What is read from the directory is the beginning of what has been written. -/
def ReplaysPrefix (disk : Disk) (written : List RaftEntry) : Prop :=
  ∃ entries, (openDir disk).readAllEntries.map Prod.fst = some entries ∧
    entries <+: written.map persisted

/-- Behind a record that comes out without an index, none comes out with one. -/
def SkipsAtEnd (entries : List RaftEntry) : Prop :=
  entries.Pairwise fun earlier later => 0 < later.index → 0 < earlier.index

/-- Replaying the directory, whose only file is `file`, has no holes. -/
def Unbroken (disk : Disk) (file : Bytes) (written : List RaftEntry) : Prop :=
  ReplaysPrefix disk written ∧ ∃ entries, decoded file 0 = some entries ∧ SkipsAtEnd entries

/-- When it does no harm that the record of `x`, at `offset`, has been damaged. -/
inductive Harmless (file : Bytes) (offset : Nat) (before : List RaftEntry) (x : RaftEntry)
    (after : List RaftEntry) : Prop where
  /-- The damage is noticed, and nothing behind it can be read anyway. -/
  | noticed (refused : ¬ Accepted file offset) (front : Front before)
      (behind : ∀ e ∈ after, ¬ Readable e)
  /-- The damage does not show. -/
  | unseen (accepted : Accepted file offset) (same : Shows file offset x)
      (front : ∀ e ∈ before, Readable e) (behind : Front after)

section
variable {before after entries : List RaftEntry} {x c : RaftEntry}

theorem front_cons_iff {e : RaftEntry} :
    Front (e :: entries) ↔ if Readable e then Front entries else ∀ y ∈ entries, ¬ Readable y := by
  constructor
  · rintro ⟨read, unread, hsplit, hread, hunread⟩
    cases read with
    | nil =>
      obtain rfl : e :: entries = unread := hsplit
      obtain ⟨he, hothers⟩ := List.forall_mem_cons.mp hunread
      rwa [if_neg he]
    | cons u read =>
      obtain ⟨rfl, rfl⟩ := List.cons.inj hsplit
      obtain ⟨he, hothers⟩ := List.forall_mem_cons.mp hread
      rw [if_pos he]
      exact ⟨read, unread, rfl, hothers, hunread⟩
  · intro h
    split_ifs at h with he
    · obtain ⟨read, unread, rfl, hread, hunread⟩ := h
      exact ⟨e :: read, unread, rfl, List.forall_mem_cons.mpr ⟨he, hread⟩, hunread⟩
    · exact ⟨[], e :: entries, rfl, by simp, List.forall_mem_cons.mpr ⟨he, h⟩⟩

theorem skipsAtEnd_outcome_iff : SkipsAtEnd (entries.map outcome) ↔ Front entries := by
  induction entries with
  | nil => exact iff_of_true .nil ⟨[], [], rfl, by simp, by simp⟩
  | cons e entries ih =>
    rw [SkipsAtEnd, List.map_cons, List.pairwise_cons, List.forall_mem_map, ← SkipsAtEnd, ih,
      front_cons_iff]
    simp only [outcome_index_pos_iff]
    split_ifs with he
    · exact ⟨And.right, fun h => ⟨fun _ _ _ => he, h⟩⟩
    · constructor
      · intro h y hy hread
        exact he (h.1 y hy hread)
      · intro h
        exact ⟨fun y hy hread => absurd hread (h y hy), [], entries, rfl, by simp, h⟩

/-- What comes out around a damaged record. -/
theorem skipsAtEnd_damaged_iff :
    SkipsAtEnd (before.map outcome ++ c :: after.map outcome) ↔
      if 0 < c.index then (∀ e ∈ before, Readable e) ∧ Front after
      else Front before ∧ ∀ e ∈ after, ¬ Readable e := by
  rw [SkipsAtEnd, List.pairwise_append, List.pairwise_cons, ← SkipsAtEnd, ← SkipsAtEnd,
    skipsAtEnd_outcome_iff, skipsAtEnd_outcome_iff]
  simp only [List.forall_mem_cons, List.forall_mem_map, outcome_index_pos_iff]
  split_ifs with hc
  · constructor
    · rintro ⟨_, ⟨_, hafter⟩, hbefore⟩
      exact ⟨fun e he => (hbefore e he).1 hc, hafter⟩
    · rintro ⟨hbefore, hafter⟩
      exact ⟨⟨before, [], by simp, hbefore, by simp⟩, ⟨fun _ _ _ => hc, hafter⟩,
        fun e he => ⟨fun _ => hbefore e he, fun _ _ _ => hbefore e he⟩⟩
  · constructor
    · rintro ⟨hbefore, ⟨hbehind, _⟩, _⟩
      exact ⟨hbefore, fun e he hread => hc (hbehind e he hread)⟩
    · rintro ⟨hbefore, hnone⟩
      exact ⟨hbefore, ⟨fun e he hread => absurd hread (hnone e he), [], after, rfl, by simp, hnone⟩,
        fun e he => ⟨fun hpos => absurd hpos hc, fun y hy hread => absurd hread (hnone y hy)⟩⟩

/-- Readable records in front of the others are the beginning of them all. -/
theorem Front.readable_isPrefix (h : Front entries) (rest : List RaftEntry) :
    readable entries <+: (entries ++ rest).map persisted := by
  obtain ⟨read, unread, rfl, hread, hunread⟩ := h
  rw [readable_append, readable_eq_map_iff.mpr hread, readable_eq_nil_iff.mpr hunread,
    List.append_nil, List.append_assoc, List.map_append]
  exact List.prefix_append _ _

end

/-- A log file in which the record of `x` reads `body` behind its length field. -/
def damagedFile (before : List RaftEntry) (x : RaftEntry) (body : Bytes)
    (after : List RaftEntry) : Bytes :=
  before.flatMap serializeEntry ++
    ((serializeEntry x).take 4 ++ body ++ after.flatMap serializeEntry)

section
variable {before after : List RaftEntry} {x : RaftEntry} {body : Bytes}

theorem damagedFile_drop : damagedFile before x ((serializeEntry x).drop 4) after =
    (before ++ x :: after).flatMap serializeEntry := by
  rw [damagedFile, List.take_append_drop, List.flatMap_append, List.flatMap_cons]

theorem decoded_damagedFile (hfits : ∀ e ∈ before ++ x :: after, Fits e)
    (hbody : 4 + body.length = (serializeEntry x).length) :
    decoded (damagedFile before x body after) 0 =
      (deserializeEntry (damagedFile before x body after)
        (before.flatMap serializeEntry).length).map fun c =>
          before.map outcome ++ c :: after.map outcome := by
  obtain ⟨hbefore, hrest⟩ := List.forall_mem_append.mp hfits
  obtain ⟨hx, hafter⟩ := List.forall_mem_cons.mp hrest
  have hshort := hx.length
  have htake := take_serializeEntry hbody
  have hlen : ((serializeEntry x).take 4 ++ body).length = 4 + body.length := by
    rw [htake, List.length_append, length_writeU32]
  obtain ⟨file, hfile⟩ : ∃ file, file = damagedFile before x body after := ⟨_, rfl⟩
  rw [← hfile]
  rw [damagedFile] at hfile
  have hfront : StandsAt file 0 (before.flatMap serializeEntry) :=
    ⟨[], _, hfile, rfl⟩
  have hdamaged : StandsAt file (before.flatMap serializeEntry).length
      (writeU32 body.length ++ body) := htake ▸ ⟨_, _, hfile, rfl⟩
  have hbehind : StandsAt file ((before.flatMap serializeEntry).length + 4 + body.length)
      (after.flatMap serializeEntry) := by
    refine ⟨before.flatMap serializeEntry ++ ((serializeEntry x).take 4 ++ body), [], ?_, ?_⟩
    · simp only [hfile, List.append_assoc, List.append_nil]
    · rw [List.length_append, hlen, Nat.add_assoc]
  have hend : (before.flatMap serializeEntry).length + 4 + body.length +
      (after.flatMap serializeEntry).length = file.length := by
    rw [hfile, List.length_append, List.length_append, hlen]
    omega
  obtain ⟨hframed, hlength⟩ := framed_of hdamaged (body_ne_nil hbody) (by omega)
  rw [decoded_records hbefore hfront, Nat.zero_add, decoded_of_framed hframed, hlength,
    decoded_records hafter hbehind, hend, decoded_end]
  cases deserializeEntry file (before.flatMap serializeEntry).length with
  | none => rfl
  | some c => simp

theorem readAllEntries_withFile {w : WAL} (h : Tidy w) (hseq : w.walSeq = 0) (file : Bytes) :
    (openDir (w.withFile file)).readAllEntries.map Prod.fst = readRecords file 0 := by
  obtain ⟨hopen, hget⟩ := h.openDir_withFile file
  have hfile : (openDir (w.withFile file)).disk.walFiles.get? 0 = some file := by
    rw [hget, hseq, if_pos rfl]
  rw [readAllEntries_of_file (hopen.trans hseq) hfile, Option.map_map]
  exact Option.map_id'

theorem Tidy.unbroken_iff {w : WAL} (h : Tidy w) (hseq : w.walSeq = 0)
    (hfits : ∀ e ∈ before ++ x :: after, Fits e)
    (hbody : 4 + body.length = (serializeEntry x).length) :
    let file := damagedFile before x body after
    let offset := (before.flatMap serializeEntry).length
    Unbroken (w.withFile file) file (before ++ x :: after) ↔
      Inside file offset ∧ Harmless file offset before x after := by
  intro file offset
  have hx : Fits x := hfits x (by simp)
  have hdecoded := decoded_damagedFile hfits hbody
  rw [Unbroken, ReplaysPrefix, readAllEntries_withFile h hseq, readRecords_eq_decoded, hdecoded,
    Option.map_map, ← isSome_deserializeEntry]
  cases hc : deserializeEntry file offset with
  | none => simp
  | some c =>
    have haccepted := index_pos_iff_accepted hc
    simp only [Option.map_some, Option.some.injEq, exists_eq_left', Function.comp_apply,
      Option.isSome_some, true_and, List.filter_append, List.filter_cons, filter_outcome,
      skipsAtEnd_damaged_iff, decide_eq_true_eq]
    by_cases hpos : 0 < c.index
    · simp only [hpos, if_true]
      constructor
      · rintro ⟨hle, hfront, hbehind⟩
        rw [readable_eq_map_iff.mpr hfront, List.map_append, List.prefix_append_right_inj,
          List.map_cons, List.cons_prefix_cons] at hle
        have hshows := (eq_persisted_iff_shows hc (haccepted.mp hpos) hx).mp hle.1
        exact .unseen (haccepted.mp hpos) hshows hfront hbehind
      · intro h
        cases h with
        | noticed refused => exact absurd (haccepted.mp hpos) refused
        | unseen accepted same front behind =>
          refine ⟨?_, front, behind⟩
          rw [readable_eq_map_iff.mpr front, List.map_append, List.prefix_append_right_inj,
            List.map_cons, List.cons_prefix_cons]
          have hle := behind.readable_isPrefix []
          rw [List.append_nil] at hle
          exact ⟨(eq_persisted_iff_shows hc accepted hx).mpr same, hle⟩
    · simp only [hpos, if_false]
      constructor
      · rintro ⟨_, hfront, hbehind⟩
        exact .noticed (fun h => hpos (haccepted.mpr h)) hfront hbehind
      · intro h
        cases h with
        | noticed refused front behind =>
          refine ⟨?_, front, behind⟩
          rw [readable_eq_nil_iff.mpr behind, List.append_nil]
          exact front.readable_isPrefix _
        | unseen accepted => exact absurd (haccepted.mpr accepted) hpos

theorem run_batches {batches : List (List RaftEntry)} (hfits : ∀ e ∈ batches.flatten, Fits e) :
    Tidy (batches.foldl appendEntries (openDir {})) ∧
      (batches.foldl appendEntries (openDir {})).walSeq = 0 := by
  rw [foldl_appendEntries, appendEntries_walSeq]
  exact ⟨tidy_run (run_appendEntries hfits), rfl⟩

/-- Before the damage the file is the log's own. -/
theorem file_undamaged {batches : List (List RaftEntry)} (hfits : ∀ e ∈ batches.flatten, Fits e)
    (hwritten : accepted 0 batches.flatten = before ++ x :: after) :
    (batches.foldl appendEntries (openDir {})).disk.walFiles.get? 0 =
      some (damagedFile before x ((serializeEntry x).drop 4) after) := by
  have hfile : Holds ((openDir {}).appendEntries batches.flatten).disk 0
      (accepted 0 batches.flatten) := holds_fresh.appendEntries hfits
  rw [foldl_appendEntries, hfile.file, hwritten, damagedFile_drop]

/-- Whatever happens to the bytes of one record behind its length field, a replay yields the
beginning of what has been written and skips nothing in front of it exactly when the reader stays
inside the file and the damage is harmless. -/
theorem damaged_replay_iff {batches : List (List RaftEntry)} (hfits : ∀ e ∈ batches.flatten, Fits e)
    (hwritten : accepted 0 batches.flatten = before ++ x :: after)
    (hbody : 4 + body.length = (serializeEntry x).length) :
    let file := damagedFile before x body after
    let offset := (before.flatMap serializeEntry).length
    Unbroken ((batches.foldl appendEntries (openDir {})).withFile file) file (before ++ x :: after) ↔
      Inside file offset ∧ Harmless file offset before x after := by
  obtain ⟨htidy, hseq⟩ := run_batches hfits
  exact htidy.unbroken_iff hseq (fun e he => hfits e (mem_of_mem_accepted (hwritten ▸ he))) hbody

end

/-- The body of the second put, with another term. -/
def flipped : Bytes := ((serializeEntry nextLuckyPut).drop 4).set 1 255

/-- Damage to the last record is noticed, and the first one is replayed alone. -/
theorem damaged_replay_last :
    Unbroken (([[luckyPut], [nextLuckyPut]].foldl appendEntries (openDir {})).withFile
        (damagedFile [luckyPut] nextLuckyPut flipped []))
      (damagedFile [luckyPut] nextLuckyPut flipped []) [luckyPut, nextLuckyPut] :=
  (@damaged_replay_iff [luckyPut] [] nextLuckyPut flipped [[luckyPut], [nextLuckyPut]]
    fits_luckyPuts rfl rfl).mpr ⟨by decide +kernel, .noticed (by decide +kernel)
      ⟨[luckyPut], [], rfl, by simp [readable_luckyPut], by simp⟩ (by simp)⟩

/-- What is left of the body of either of them. -/
def smashed : Bytes := List.replicate 38 255

/-- The first record is damaged, and the second one is replayed alone. -/
theorem replay_with_hole :
    ¬ Unbroken (([[luckyPut, nextLuckyPut]].foldl appendEntries (openDir {})).withFile
        (damagedFile [] luckyPut smashed [nextLuckyPut]))
      (damagedFile [] luckyPut smashed [nextLuckyPut]) [luckyPut, nextLuckyPut] := by
  obtain ⟨htidy, hseq⟩ := @run_batches [[luckyPut, nextLuckyPut]] fits_luckyPuts
  have hrefused : ¬ Accepted (damagedFile [] luckyPut smashed [nextLuckyPut]) 0 := by decide +kernel
  intro h
  obtain ⟨_, hharmless⟩ := (@Tidy.unbroken_iff [] [nextLuckyPut] luckyPut smashed _ htidy hseq
    fits_luckyPuts rfl).mp h
  cases hharmless with
  | noticed _ _ hnone => exact hnone nextLuckyPut List.mem_cons_self readable_nextLuckyPut
  | unseen haccepted => exact hrefused haccepted

end WAL
end MyEtcd
