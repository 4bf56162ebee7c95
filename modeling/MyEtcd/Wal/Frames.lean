import MyEtcd.Wal.Wal

/-! How the reader of a log file finds its records: it steps from one length field to the next,
whatever stands between them. -/
namespace MyEtcd
open Library

namespace WAL

/-- Where `ReadAllEntriesUnlocked` calls `DeserializeEntry`, from `offset` on, in a file that is
shorter than 4 GiB (its 32-bit sum `4 + len` does not wrap there). -/
def frames (data : Bytes) (offset : Nat) : List Nat :=
  if offset + 4 ≤ data.length then
    let len := lengthAt data offset
    if len = 0 ∨ offset + 4 + len > data.length then []
    else offset :: frames data (offset + 4 + len)
  else []
termination_by data.length - offset

theorem readU32_eq (data : Bytes) (offset : Nat) :
    readU32 data offset =
      if offset + 4 ≤ data.length then some (lengthAt data offset, offset + 4) else none := by
  unfold readU32 bytesAt lengthAt
  split_ifs <;> rfl

/-- A frame at `offset`: its length field is there, is not zero and does not reach past the end. -/
def Framed (data : Bytes) (offset : Nat) : Prop :=
  offset + 4 ≤ data.length ∧ lengthAt data offset ≠ 0 ∧
    offset + 4 + lengthAt data offset ≤ data.length

instance (data : Bytes) (offset : Nat) : Decidable (Framed data offset) :=
  inferInstanceAs (Decidable (_ ∧ _ ∧ _))

/-- What the reader makes of the frames from `offset` on. -/
def decoded (data : Bytes) (offset : Nat) : Option (List RaftEntry) :=
  (frames data offset).mapM (deserializeEntry data)

/-- The entries of a file are those of its frames that have an index. -/
theorem readRecords_eq_decoded (data : Bytes) (offset : Nat) :
    readRecords data offset =
      (decoded data offset).map (List.filter fun entry => entry.index > 0) := by
  unfold decoded
  fun_induction frames data offset with
  | case1 offset hle len hstop =>
    rw [readRecords, if_pos hle, readU32_eq, if_pos hle]
    simp only [Option.bind_eq_bind, Option.bind_some]
    rw [if_pos hstop]
    rfl
  | case2 offset hle len hgo ih =>
    rw [readRecords, if_pos hle, readU32_eq, if_pos hle]
    simp only [Option.bind_eq_bind, Option.bind_some]
    rw [if_neg hgo, ih, List.mapM_cons]
    cases deserializeEntry data offset with
    | none => rfl
    | some entry =>
      simp only [Option.bind_eq_bind, Option.bind_some, Option.pure_def]
      cases (frames data (offset + 4 + len)).mapM (deserializeEntry data) with
      | none => rfl
      | some rest =>
        simp only [Option.map_some, Option.bind_some, List.filter_cons, decide_eq_true_eq]
  | case3 offset hend =>
    rw [readRecords, if_neg hend]
    rfl

section
variable {data : Bytes} {offset : Nat}

theorem lengthAt_of {v : Nat} (h : StandsAt data offset (writeU32 v)) (hv : v < 2 ^ 32) :
    lengthAt data offset = v := by
  have hread := readU32_of h hv
  have hle : offset + 4 ≤ data.length := by
    have := h.fits
    rwa [length_writeU32] at this
  rw [readU32_eq, if_pos hle] at hread
  exact (Prod.mk.inj (Option.some.inj hread)).1

/-- The reader stops where there is no frame. -/
theorem decoded_of_not_framed (h : ¬ Framed data offset) : decoded data offset = some [] := by
  have hframes : frames data offset = [] := by
    rw [frames]
    by_cases hle : offset + 4 ≤ data.length
    · rw [if_pos hle]
      unfold Framed at h
      exact if_pos (by omega)
    · rw [if_neg hle]
  rw [decoded, hframes]
  rfl

theorem decoded_end (data : Bytes) : decoded data data.length = some [] :=
  decoded_of_not_framed fun h => by have := h.1; omega

/-- A frame is followed to the next one, whatever it holds. -/
theorem decoded_of_framed (h : Framed data offset) :
    decoded data offset = (deserializeEntry data offset).bind fun entry =>
      (decoded data (offset + 4 + lengthAt data offset)).map (entry :: ·) := by
  have hframes : frames data offset =
      offset :: frames data (offset + 4 + lengthAt data offset) := by
    rw [frames, if_pos h.1]
    have hle := h.2.2
    exact if_neg fun hstop => hstop.elim h.2.1 (by omega)
  rw [decoded, hframes, List.mapM_cons, ← decoded]
  cases deserializeEntry data offset with
  | none => rfl
  | some entry => exact (Option.map_eq_bind ..).symm

/-- A length field and the bytes that it counts are a frame, whatever the bytes. -/
theorem framed_of {body : Bytes} (h : StandsAt data offset (writeU32 body.length ++ body))
    (hne : body ≠ []) (hlt : body.length < 2 ^ 32) :
    Framed data offset ∧ lengthAt data offset = body.length := by
  have hend := h.fits
  rw [List.length_append, length_writeU32] at hend
  have hpos := List.length_pos_of_ne_nil hne
  have hlen := lengthAt_of (StandsAt.append.mp h).1 hlt
  refine ⟨⟨by omega, ?_, ?_⟩, hlen⟩
  · omega
  · omega

end

/-- A record that is read back. -/
def Readable (entry : RaftEntry) : Prop := 0 < entry.index ∧ ChecksumAgrees entry

instance (entry : RaftEntry) : Decidable (Readable entry) := inferInstanceAs (Decidable (_ ∧ _))

def readable (records : List RaftEntry) : List RaftEntry :=
  (records.filter fun e => Readable e).map persisted

theorem readable_cons (e : RaftEntry) (entries : List RaftEntry) :
    readable (e :: entries) =
      if Readable e then persisted e :: readable entries else readable entries := by
  unfold readable
  by_cases h : Readable e <;> simp [h]

theorem readable_append (a b : List RaftEntry) : readable (a ++ b) = readable a ++ readable b := by
  rw [readable, List.filter_append, List.map_append]
  rfl

theorem readable_eq_nil_iff {records : List RaftEntry} :
    readable records = [] ↔ ∀ e ∈ records, ¬ Readable e := by
  simp [readable]

theorem readable_eq_map_iff {records : List RaftEntry} :
    readable records = records.map persisted ↔ ∀ e ∈ records, Readable e := by
  rw [readable]
  constructor
  · intro h
    have hlength := congrArg List.length h
    rw [List.length_map, List.length_map] at hlength
    exact fun e he => of_decide_eq_true (List.length_filter_eq_length_iff.mp hlength e he)
  · intro h
    rw [List.filter_eq_self.mpr fun e he => decide_eq_true (h e he)]

def outcome (entry : RaftEntry) : RaftEntry := if ChecksumAgrees entry then persisted entry else {}

theorem outcome_index_pos_iff {e : RaftEntry} : 0 < (outcome e).index ↔ Readable e := by
  unfold outcome
  split_ifs with hagree
  · rw [persisted_index]
    exact ⟨fun hpos => ⟨hpos, hagree⟩, And.left⟩
  · exact iff_of_false (Nat.lt_irrefl 0) fun h => hagree h.2

theorem filter_outcome (records : List RaftEntry) :
    (records.map outcome).filter (fun entry => entry.index > 0) = readable records := by
  induction records with
  | nil => rfl
  | cons e records ih =>
    rw [List.map_cons, List.filter_cons, ih, readable_cons]
    by_cases hread : Readable e
    · rw [if_pos (decide_eq_true (outcome_index_pos_iff.mpr hread)), if_pos hread, outcome,
        if_pos hread.2]
    · have hzero : ¬ (outcome e).index > 0 := fun hpos => hread (outcome_index_pos_iff.mp hpos)
      rw [if_neg (by rwa [decide_eq_true_eq]), if_neg hread]

/-- The body of a record, which its length field counts. -/
theorem serializeEntry_eq (entry : RaftEntry) :
    ∃ body : Bytes, serializeEntry entry = writeU32 body.length ++ body ∧
      body.length = 5 + (fields entry).length := by
  refine ⟨_, rfl, ?_⟩
  have hlen := length_serializeEntry entry
  unfold serializeEntry at hlen
  simp only [List.length_append, length_writeU32] at hlen ⊢
  omega

/-- A record begins with its length field. -/
theorem take_serializeEntry {e : RaftEntry} {n : Nat} (h : 4 + n = (serializeEntry e).length) :
    (serializeEntry e).take 4 = writeU32 n := by
  obtain ⟨body, hbody, _⟩ := serializeEntry_eq e
  rw [hbody, List.length_append, length_writeU32, Nat.add_left_cancel_iff] at h
  rw [hbody, h]
  exact List.take_left' (length_writeU32 _)

theorem body_ne_nil {e : RaftEntry} {body : Bytes} (h : 4 + body.length = (serializeEntry e).length) :
    body ≠ [] := by
  rintro rfl
  rw [length_serializeEntry, List.length_nil] at h
  omega

theorem decoded_record {data : Bytes} {offset : Nat} {e : RaftEntry} (hfits : Fits e)
    (h : StandsAt data offset (serializeEntry e)) :
    decoded data offset =
      (decoded data (offset + (serializeEntry e).length)).map (outcome e :: ·) := by
  have hentry := deserializeEntry_of hfits h
  have hshort := hfits.length
  obtain ⟨body, hbody, _⟩ := serializeEntry_eq e
  have hlen : 4 + body.length = (serializeEntry e).length := by
    rw [hbody, List.length_append, length_writeU32]
  rw [hbody] at h
  obtain ⟨hframed, hlength⟩ := framed_of h (body_ne_nil hlen) (by omega)
  rw [decoded_of_framed hframed, hentry, Option.bind_some, hlength, Nat.add_assoc, hlen, ← outcome]

/-- Proper records come out one by one, whatever stands in front of them and behind them. -/
theorem decoded_records {data : Bytes} {records : List RaftEntry} (hfits : ∀ e ∈ records, Fits e)
    {offset : Nat} (h : StandsAt data offset (records.flatMap serializeEntry)) :
    decoded data offset =
      (decoded data (offset + (records.flatMap serializeEntry).length)).map
        (records.map outcome ++ ·) := by
  induction records generalizing offset with
  | nil => simp
  | cons e records ih =>
    obtain ⟨he, hrecords⟩ := List.forall_mem_cons.mp hfits
    rw [List.flatMap_cons, StandsAt.append] at h
    rw [decoded_record he h.1, ih hrecords h.2, Option.map_map, List.flatMap_cons,
      List.length_append, ← Nat.add_assoc]
    rfl

theorem readRecords_records {records : List RaftEntry} (hfits : ∀ e ∈ records, Fits e) :
    readRecords (records.flatMap serializeEntry) 0 = some (readable records) := by
  have hstands : StandsAt (records.flatMap serializeEntry) 0 (records.flatMap serializeEntry) :=
    ⟨[], [], by simp, rfl⟩
  rw [readRecords_eq_decoded, decoded_records hfits hstands, Nat.zero_add, decoded_end,
    Option.map_some, Option.map_some, List.append_nil, filter_outcome]

end WAL
end MyEtcd
