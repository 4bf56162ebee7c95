import MyEtcd.Library.LoweredReading
import MyEtcd.Library.Pieces
import MyEtcd.Raft.MessageSize

/-! A call over a connection.
The bytes come in pieces of any length and can end anywhere, in either direction. The peer takes the
request whole or not at all; the caller fills up an answer with zeros where it breaks off. -/
namespace MyEtcd
open Library
namespace TcpTransport
open BinaryWriter BinaryReader

/-- The length in the first four bytes, and what comes behind them. -/
def readHeader (pieces : List Bytes) : Option (Nat × List Bytes) :=
  let (lenBuf, rest) := readUpTo 4 [] pieces
  if lenBuf.length < 4 then none
  else
    let len := ((readBigEndian 4 0).run lenBuf).1
    if len > kMaxMessageSize then none else some (len, rest)

/-- What `HandleClient` reads, unless it closes the connection. -/
def receiveMsg (pieces : List Bytes) : Option Bytes := do
  let (msgLen, rest) ← readHeader pieces
  let msgData := (readUpTo msgLen [] rest).1
  if msgData.length < msgLen then none else some msgData

/-- What `SendAndReceive` reads. The vector for the answer holds zeros before that. -/
def receiveResp (pieces : List Bytes) : Bytes :=
  match readHeader pieces with
  | none => []
  | some (respLen, rest) =>
    let respData := (readUpTo respLen [] rest).1
    respData ++ List.replicate (respLen - respData.length) 0

def respond (processIncomingMsg : Bytes → Bytes) (there : List Bytes) : Bytes :=
  match receiveMsg there with
  | none => []
  | some msgData => framed (processIncomingMsg msgData)

def sendAndReceive (sent : Bool) (back : List Bytes) : Bytes := if sent then receiveResp back else []

/-- No more than an answer says: where it grants or reports something, so does `answer`. -/
structure RequestVoteUnder (resp answer : RequestVoteResponse) : Prop where
  term : resp.term ≤ answer.term
  voteGranted : resp.voteGranted → answer.voteGranted

structure AppendEntriesUnder (resp answer : AppendEntriesResponse) : Prop where
  term : resp.term ≤ answer.term
  success : resp.success → answer.success
  lastLogIndex : resp.lastLogIndex ≤ answer.lastLogIndex
  conflictIndex : resp.conflictIndex ≤ answer.conflictIndex
  conflictTerm : resp.conflictTerm ≤ answer.conflictTerm

variable {pieces there back : List Bytes} {data body : Bytes}

theorem length_framed (data : Bytes) : (framed data).length = 4 + data.length :=
  List.length_append

/-- A connection breaks in the length or behind it. -/
theorem prefix_framed {came : Bytes} (h : came <+: framed data) :
    came.length < 4 ∨ came = toBigEndian 4 data.length ++ data.take (came.length - 4) := by
  rcases lt_or_ge came.length 4 with hshort | hlong
  · exact .inl hshort
  · have hheader : (toBigEndian 4 data.length).take came.length = toBigEndian 4 data.length :=
      List.take_of_length_le hlong
    have hcame := List.prefix_iff_eq_take.mp h
    rw [framed, List.take_append, hheader] at hcame
    exact .inr hcame

theorem readHeader_short (h : (arrived pieces).length < 4) : readHeader pieces = none := by
  have hlength : (readUpTo 4 [] pieces).1.length < 4 := by
    rw [readUpTo_eq (Nat.zero_le _), List.nil_append]
    exact (List.length_take_le' _ _).trans_lt h
  rw [readHeader]
  exact if_pos hlength

theorem readHeader_long {len : Nat} (hlen : len < 2 ^ 32)
    (h : arrived pieces = toBigEndian 4 len ++ body) :
    (kMaxMessageSize < len ∧ readHeader pieces = none) ∨
      ∃ rest, len ≤ kMaxMessageSize ∧ readHeader pieces = some (len, rest) ∧ arrived rest = body := by
  have hheader : (readUpTo 4 [] pieces).1 = toBigEndian 4 len := by
    rw [readUpTo_eq (Nat.zero_le _), h]
    exact List.take_left' rfl
  have hrest : arrived (readUpTo 4 [] pieces).2 = body := by
    have henough : 4 ≤ (arrived pieces).length := by
      rw [h, List.length_append]
      exact Nat.le_add_right 4 _
    rw [arrived_readUpTo (Nat.zero_le _) (by simpa using henough), h]
    exact List.drop_left' rfl
  have hnumber : ((readBigEndian 4 0).run (toBigEndian 4 len)).1 = len := by
    rw [(readBigEndian_toBigEndian (by omega)).whole]
  have hlong : ¬ (toBigEndian 4 len).length < 4 := lt_irrefl 4
  unfold readHeader
  dsimp only
  rw [hheader, if_neg hlong, hnumber]
  split_ifs with hmax
  · exact .inl ⟨hmax, rfl⟩
  · exact .inr ⟨_, not_lt.mp hmax, rfl, hrest⟩

theorem readUpTo_body {n : Nat} (h : arrived pieces = data.take n) :
    (readUpTo data.length [] pieces).1 = data.take n := by
  rw [readUpTo_eq (Nat.zero_le _), h]
  exact List.take_of_length_le (List.length_take_le' _ _)

theorem came_whole_iff {came : Bytes} {n : Nat}
    (h : came = toBigEndian 4 data.length ++ data.take n) :
    came = framed data ↔ ¬ (data.take n).length < data.length := by
  rw [h, framed, List.append_cancel_left_eq, List.take_eq_self_iff, List.length_take]
  omega

theorem came_short {came : Bytes} (h : came.length < 4) : came ≠ framed data := by
  intro heq
  rw [heq, length_framed] at h
  omega

/-- The peer takes what has been sent, all of it and only if it is short enough. -/
theorem receiveMsg_eq (hlen : data.length < 2 ^ 32) (h : arrived there <+: framed data) :
    receiveMsg there =
      if data.length ≤ kMaxMessageSize ∧ arrived there = framed data then some data else none := by
  rcases prefix_framed h with hshort | hbody
  · rw [if_neg (fun h => came_short hshort h.2), receiveMsg, readHeader_short hshort]
    rfl
  · have hwhole := came_whole_iff hbody
    generalize (arrived there).length - 4 = n at hbody hwhole
    rcases readHeader_long hlen hbody with ⟨hover, hnone⟩ | ⟨rest, hmax, hsome, hrest⟩
    · rw [if_neg (fun h => absurd h.1 (not_le.mpr hover)), receiveMsg, hnone]
      rfl
    · have htaken : receiveMsg there =
          if (data.take n).length < data.length then none else some (data.take n) := by
        rw [receiveMsg, hsome, ← readUpTo_body hrest]
        rfl
      rw [htaken]
      split_ifs with hpart hall hall
      · exact absurd hpart (hwhole.mp hall.2)
      · rfl
      · rw [List.take_of_length_le]
        rw [List.length_take] at hpart
        omega
      · exact absurd ⟨hmax, hwhole.mpr hpart⟩ hall

/-- The caller takes an answer with zeros for what is missing, or nothing at all. -/
theorem receiveResp_eq (hmax : data.length ≤ kMaxMessageSize) (h : arrived back <+: framed data) :
    (receiveResp back = [] ∧ arrived back ≠ framed data) ∨
      ∃ n, receiveResp back = data.take n ++ List.replicate (data.length - n) 0 ∧
        (arrived back = framed data → data.length ≤ n) := by
  rcases prefix_framed h with hshort | hbody
  · exact .inl ⟨by rw [receiveResp, readHeader_short hshort], came_short hshort⟩
  · have hwhole := came_whole_iff hbody
    generalize (arrived back).length - 4 = n at hbody hwhole
    have hlen : data.length < 2 ^ 32 := hmax.trans_lt (by decide)
    rcases readHeader_long hlen hbody with ⟨hover, _⟩ | ⟨rest, _, hsome, hrest⟩
    · exact absurd hmax (not_le.mpr hover)
    · refine .inr ⟨n, ?_, fun heq => ?_⟩
      · rw [receiveResp, hsome]
        dsimp only
        rw [readUpTo_body hrest, List.length_take]
        congr 2
        omega
      · have hall := hwhole.mp heq
        rw [List.length_take] at hall
        omega

/-- So the bytes of an answer are never more than what was sent, and whole if all of it has come. -/
theorem sendAndReceive_lowered (sent : Bool) (hmax : data.length ≤ kMaxMessageSize)
    (h : arrived back <+: framed data) :
    (sendAndReceive sent back = [] ∨ Lowered (sendAndReceive sent back) data) ∧
      (sent = true → arrived back = framed data → sendAndReceive sent back = data) := by
  cases sent with
  | false => exact ⟨.inl rfl, fun h => by cases h⟩
  | true =>
    change (receiveResp back = [] ∨ Lowered (receiveResp back) data) ∧
      (_ → _ → receiveResp back = data)
    rcases receiveResp_eq hmax h with ⟨hnone, hbroken⟩ | ⟨n, hfilled, hwhole⟩
    · exact ⟨.inl hnone, fun _ heq => absurd heq hbroken⟩
    · rw [hfilled]
      refine ⟨.inr (lowered_filled data n), fun _ heq => ?_⟩
      rw [List.take_of_length_le (hwhole heq), Nat.sub_eq_zero_of_le (hwhole heq),
        List.replicate_zero, List.append_nil]

theorem lowers_u8 : Lowers (· ≤ ·) readU8 readU8 := by
  intro a b hab
  cases hab with
  | nil => exact ⟨UInt8.le_refl 0, .nil⟩
  | cons hbyte hrest => exact ⟨hbyte, hrest⟩

theorem lowers_u64 : Lowers (· ≤ ·) readU64 readU64 := lowers_bigEndian 8 le_rfl

private theorem flag_lowered {b c : UInt8} (h : b ≤ c) (hb : decide (b ≠ 0) = true) :
    decide (c ≠ 0) = true := by
  have hle := UInt8.le_iff_toNat_le.mp h
  rw [decide_eq_true_eq] at hb ⊢
  intro hc
  rw [hc] at hle
  exact hb (UInt8.toNat_inj.mp (Nat.le_zero.mp hle))

theorem lowers_requestVoteResp :
    Lowers RequestVoteUnder readRequestVoteResp readRequestVoteResp := by
  refine lowers_u8.bind fun _ _ _ => ?_
  refine lowers_u64.bind fun _ _ hterm => ?_
  refine lowers_u8.bind fun _ _ hgranted => ?_
  exact .pure ⟨hterm, flag_lowered hgranted⟩

theorem lowers_appendEntriesResp :
    Lowers AppendEntriesUnder readAppendEntriesResp readAppendEntriesResp := by
  refine lowers_u8.bind fun _ _ _ => ?_
  refine lowers_u64.bind fun _ _ hterm => ?_
  refine lowers_u8.bind fun _ _ hsuccess => ?_
  refine lowers_u64.bind fun _ _ hlast => ?_
  refine lowers_u64.bind fun _ _ hindex => ?_
  refine lowers_u64.bind fun _ _ hconflict => ?_
  exact .pure ⟨hterm, flag_lowered hsuccess, hlast, hindex, hconflict⟩

theorem length_requestVoteBytes (req : RequestVoteRequest) : (requestVoteBytes req).length = 33 := rfl

/-- The peer's handler gets the request as it was made, or is not called at all: wherever the
connection breaks, however the bytes come, and if the request is longer than the peer takes. -/
theorem handled_as_sent :
    (∀ req there, RequestVoteFits req → arrived there <+: framed (requestVoteBytes req) →
      (receiveMsg there).map (fun msgData => (readMsg.run msgData).1) =
        if arrived there = framed (requestVoteBytes req) then some (.requestVote req) else none) ∧
    (∀ req there, AppendEntriesFits req → (appendEntriesBytes req).length < 2 ^ 32 →
      arrived there <+: framed (appendEntriesBytes req) →
      (receiveMsg there).map (fun msgData => (readMsg.run msgData).1) =
        if (appendEntriesBytes req).length ≤ kMaxMessageSize ∧
            arrived there = framed (appendEntriesBytes req)
        then some (.appendEntries req) else none) := by
  constructor
  · intro req there hfits hcame
    have hshort : (requestVoteBytes req).length ≤ kMaxMessageSize := by
      rw [length_requestVoteBytes]
      decide
    rw [receiveMsg_eq (hshort.trans_lt (by decide)) hcame]
    split_ifs with hall hwhole hwhole
    · rw [Option.map_some, (reads_requestVote hfits).whole]
    · exact absurd hall.2 hwhole
    · exact absurd ⟨hshort, hwhole⟩ hall
    · rfl
  · intro req there hfits hlen hcame
    rw [receiveMsg_eq hlen hcame]
    split_ifs with hall
    · rw [Option.map_some, (reads_appendEntries hfits).whole]
    · rfl

theorem handled_as_sent_in_pieces :
    let req : RequestVoteRequest := ⟨2, 1, 7, 1⟩
    let there : List Bytes := [[0, 0], [0], 33 :: (requestVoteBytes req).take 20,
      (requestVoteBytes req).drop 20]
    (receiveMsg there).map (fun msgData => (readMsg.run msgData).1) = some (.requestVote req) := by
  intro req there
  have hall : arrived there = framed (requestVoteBytes req) := by decide
  have hhandled := handled_as_sent.1 req there ⟨by decide, by decide, by decide, by decide⟩
    (hall ▸ List.prefix_rfl)
  rwa [if_pos hall] at hhandled

/-- Nothing comes back from a connection that the peer has closed. -/
theorem sendAndReceive_closed {processIncomingMsg : Bytes → Bytes} (sent : Bool)
    (hclosed : receiveMsg there = none) (h : arrived back <+: respond processIncomingMsg there) :
    sendAndReceive sent back = [] := by
  rw [respond, hclosed, List.prefix_nil] at h
  cases sent with
  | false => rfl
  | true =>
    change receiveResp back = []
    rw [receiveResp, readHeader_short (by rw [h]; decide)]

theorem receiveMsg_cases (hlen : data.length < 2 ^ 32) (h : arrived there <+: framed data) :
    receiveMsg there = none ∨ receiveMsg there = some data := by
  rw [receiveMsg_eq hlen h]
  split_ifs
  · exact .inr rfl
  · exact .inl rfl

section
variable {ρ : Type} {unreachable answer : ρ} {read : BinaryReader ρ} {Under : ρ → ρ → Prop}

/-- What both calls make of the bytes that come back, where an answer that breaks off reads as less
than the answer. -/
theorem answer_under (sent : Bool) (hlowers : Lowers Under read read)
    (hunreachable : Under unreachable answer) (hread : (read.run data).1 = answer)
    (hlong : ¬ data.length < 2) (hmax : data.length ≤ kMaxMessageSize)
    (hback : arrived back <+: framed data) :
    let respData := sendAndReceive sent back
    let resp := if respData.length < 2 then unreachable else (read.run respData).1
    Under resp answer ∧ (sent = true → arrived back = framed data → resp = answer) := by
  intro respData resp
  obtain ⟨hlowered, hwhole⟩ := sendAndReceive_lowered sent hmax hback
  constructor
  · rcases hlowered with hnone | hlowered
    · have hresp : resp = unreachable := by
        change (if (sendAndReceive sent back).length < 2 then _ else _) = _
        rw [hnone]
        rfl
      rwa [hresp]
    · have hresp : resp = (read.run respData).1 := by
        refine if_neg ?_
        rwa [hlowered.length_eq]
      rw [hresp, ← hread]
      exact (hlowers _ _ hlowered).1
  · intro hsent hall
    have hrespData : respData = data := hwhole hsent hall
    change (if respData.length < 2 then _ else _) = _
    rw [hrespData, if_neg hlong, hread]

theorem call_under {processIncomingMsg : Bytes → Bytes} {resp : Bytes} (sent : Bool)
    (hlen : data.length < 2 ^ 32) (hthere : arrived there <+: framed data)
    (hback : arrived back <+: respond processIncomingMsg there)
    (hprocess : processIncomingMsg data = resp) (hlowers : Lowers Under read read)
    (hunreachable : ∀ a, Under unreachable a) (hread : (read.run resp).1 = answer)
    (hlong : ¬ resp.length < 2) (hmax : resp.length ≤ kMaxMessageSize) :
    let respData := sendAndReceive sent back
    let got := if respData.length < 2 then unreachable else (read.run respData).1
    let given := (receiveMsg there).elim unreachable fun _ => answer
    Under got given ∧
      (sent = true → arrived back = respond processIncomingMsg there → got = given) := by
  rcases receiveMsg_cases hlen hthere with hclosed | htaken
  · rw [sendAndReceive_closed sent hclosed hback, hclosed]
    exact ⟨hunreachable _, fun _ _ => rfl⟩
  · rw [respond, htaken] at hback ⊢
    dsimp only at hback ⊢
    rw [hprocess] at hback ⊢
    exact answer_under sent hlowers (hunreachable _) hread hlong hmax hback

end

theorem requestVoteUnder_unreachable (answer : RequestVoteResponse) :
    RequestVoteUnder .unreachable answer :=
  ⟨Nat.zero_le _, fun h => by cases h⟩

theorem appendEntriesUnder_unreachable (answer : AppendEntriesResponse) :
    AppendEntriesUnder .unreachable answer :=
  ⟨Nat.zero_le _, (fun h => by cases h), Nat.zero_le _, Nat.zero_le _, Nat.zero_le _⟩

section
variable {requestVoteHandler : Option (RequestVoteRequest → RequestVoteResponse)}
  {appendEntriesHandler : Option (AppendEntriesRequest → AppendEntriesResponse)}

theorem processIncomingMsg_requestVote {handler : RequestVoteRequest → RequestVoteResponse}
    {req : RequestVoteRequest} (hfits : RequestVoteFits req) :
    processIncomingMsg (some handler) appendEntriesHandler (requestVoteBytes req) =
      requestVoteRespBytes (handler req) := by
  rw [processIncomingMsg, if_neg (by simp [requestVoteBytes, writeU8]),
    (reads_requestVote hfits).whole]
  rfl

theorem processIncomingMsg_appendEntries {handler : AppendEntriesRequest → AppendEntriesResponse}
    {req : AppendEntriesRequest} (hfits : AppendEntriesFits req) :
    processIncomingMsg requestVoteHandler (some handler) (appendEntriesBytes req) =
      appendEntriesRespBytes (handler req) := by
  rw [processIncomingMsg, if_neg (by simp [appendEntriesBytes, writeU8]),
    (reads_appendEntries hfits).whole]
  rfl

end

/-- A caller never gets more than its peer's handler has answered: no vote and no success that was
not given, no term and no index above the answer's, and nothing from a peer that has not been called.
It gets the answer itself when no byte is lost. -/
theorem no_more_than_answered :
    (∀ (handler : RequestVoteRequest → RequestVoteResponse) appendEntriesHandler req there back sent,
      RequestVoteFits req → (handler req).term < 2 ^ 64 →
      arrived there <+: framed (requestVoteBytes req) →
      arrived back <+: respond (processIncomingMsg (some handler) appendEntriesHandler) there →
      let resp := sendRequestVote (fun _ => sendAndReceive sent back) req
      let given := (receiveMsg there).elim .unreachable fun _ => handler req
      RequestVoteUnder resp given ∧ (sent = true →
        arrived back = respond (processIncomingMsg (some handler) appendEntriesHandler) there →
        resp = given)) ∧
    (∀ (handler : AppendEntriesRequest → AppendEntriesResponse) requestVoteHandler req there back sent,
      AppendEntriesFits req → (appendEntriesBytes req).length < 2 ^ 32 →
      AppendEntriesRespFits (handler req) →
      arrived there <+: framed (appendEntriesBytes req) →
      arrived back <+: respond (processIncomingMsg requestVoteHandler (some handler)) there →
      let resp := sendAppendEntries (fun _ => sendAndReceive sent back) req
      let given := (receiveMsg there).elim .unreachable fun _ => handler req
      AppendEntriesUnder resp given ∧ (sent = true →
        arrived back = respond (processIncomingMsg requestVoteHandler (some handler)) there →
        resp = given)) := by
  constructor
  · intro handler appendEntriesHandler req there back sent hfits hresp hthere hback
    have hlength : (requestVoteRespBytes (handler req)).length = 10 := rfl
    refine call_under sent ?_ hthere hback (processIncomingMsg_requestVote hfits)
      lowers_requestVoteResp requestVoteUnder_unreachable
      (congrArg Prod.fst (reads_requestVoteResp hresp).whole) ?_ ?_
    · rw [length_requestVoteBytes]
      decide
    · rw [hlength]
      decide
    · rw [hlength]
      decide
  · intro handler requestVoteHandler req there back sent hfits hlen hresp hthere hback
    have hlength : (appendEntriesRespBytes (handler req)).length = 34 := rfl
    refine call_under sent hlen hthere hback (processIncomingMsg_appendEntries hfits)
      lowers_appendEntriesResp appendEntriesUnder_unreachable
      (congrArg Prod.fst (reads_appendEntriesResp hresp).whole) ?_ ?_
    · rw [hlength]
      decide
    · rw [hlength]
      decide

/-- The peer grants its vote at term 258 and the connection breaks in the middle of the term. -/
theorem no_more_than_answered_torn :
    let req : RequestVoteRequest := ⟨258, 1, 7, 1⟩
    let handler : RequestVoteRequest → RequestVoteResponse := fun req => ⟨req.term, true⟩
    let there : List Bytes := [framed (requestVoteBytes req)]
    let back : List Bytes := [[0, 0, 0, 10], [2, 0, 0, 0, 0, 0, 0, 1]]
    RequestVoteUnder (sendRequestVote (fun _ => sendAndReceive true back) req)
      ((receiveMsg there).elim .unreachable fun _ => handler req) := by
  intro req handler there back
  refine (no_more_than_answered.1 handler none req there back true
    ⟨by decide, by decide, by decide, by decide⟩ (by decide) ?_ ?_).1
  · exact List.prefix_rfl
  · decide

end TcpTransport
end MyEtcd
