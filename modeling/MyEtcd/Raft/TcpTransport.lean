import MyEtcd.Library.Reading
import MyEtcd.Raft.Transport
import MyEtcd.Wal.Record

/-! The two Raft calls as bytes on a connection.
The sender's writer and the receiver's reader are written apart from each other, as in the source;
a message whose numbers fit their fields comes out as it went in. -/
namespace MyEtcd
open Library

namespace BinaryWriter

def writeU8 (v : UInt8) : Bytes := [v]

def writeU64 (v : Nat) : Bytes := [7, 6, 5, 4, 3, 2, 1, 0].map fun i => UInt8.ofNat (v >>> (i * 8))

def writeString (s : Bytes) : Bytes := writeU64 s.length ++ s

end BinaryWriter

/-- A reader works on the bytes between `pos` and `end`. -/
abbrev BinaryReader := StateM Bytes

namespace BinaryReader

def readU8 : BinaryReader UInt8 := do
  match ← get with
  | [] => pure 0
  | b :: rest =>
    set rest
    pure b

def readU64 : BinaryReader Nat := readBigEndian 8 0

def readString : BinaryReader Bytes := do
  let len ← readU64
  let bytes ← get
  let len := if len > bytes.length then bytes.length else len
  set (bytes.drop len)
  pure (bytes.take len)

end BinaryReader

namespace TcpTransport
open BinaryWriter BinaryReader

inductive MsgType where
  | requestVoteReq
  | requestVoteResp
  | appendEntriesReq
  | appendEntriesResp
  deriving DecidableEq

def MsgType.toByte : MsgType → UInt8
  | requestVoteReq => 1
  | requestVoteResp => 2
  | appendEntriesReq => 3
  | appendEntriesResp => 4

def requestVoteBytes (req : RequestVoteRequest) : Bytes :=
  writeU8 MsgType.requestVoteReq.toByte ++ (writeU64 req.term ++ (writeU64 req.candidateId ++
    (writeU64 req.lastLogIndex ++ writeU64 req.lastLogTerm)))

/-- What a `confChange` entry carries on top of the others. -/
def confChangeBytes (cc : ConfChange) : Bytes :=
  writeU8 cc.type.toByte ++ (writeU64 cc.nodeId ++ writeString cc.peerAddr)

def entryBytes (e : RaftEntry) : Bytes :=
  writeU64 e.term ++ (writeU64 e.index ++ (writeU8 e.type.toByte ++ (writeString e.key ++
    (writeString e.value ++ (writeU64 (WAL.leaseBits e.leaseId) ++
      if e.type = .confChange then confChangeBytes e.confChange else [])))))

def appendEntriesBytes (req : AppendEntriesRequest) : Bytes :=
  writeU8 MsgType.appendEntriesReq.toByte ++ (writeU64 req.term ++ (writeU64 req.leaderId ++
    (writeU64 req.prevLogIndex ++ (writeU64 req.prevLogTerm ++ (writeU64 req.leaderCommit ++
      (writeU64 req.entries.length ++ req.entries.flatMap entryBytes))))))

def requestVoteRespBytes (resp : RequestVoteResponse) : Bytes :=
  writeU8 MsgType.requestVoteResp.toByte ++ (writeU64 resp.term ++
    writeU8 (if resp.voteGranted then 1 else 0))

def appendEntriesRespBytes (resp : AppendEntriesResponse) : Bytes :=
  writeU8 MsgType.appendEntriesResp.toByte ++ (writeU64 resp.term ++
    (writeU8 (if resp.success then 1 else 0) ++ (writeU64 resp.lastLogIndex ++
      (writeU64 resp.conflictIndex ++ writeU64 resp.conflictTerm))))

def readRequestVote : BinaryReader RequestVoteRequest := do
  let term ← readU64
  let candidateId ← readU64
  let lastLogIndex ← readU64
  let lastLogTerm ← readU64
  pure { term, candidateId, lastLogIndex, lastLogTerm }

def readConfChange : BinaryReader ConfChange := do
  let type ← readU8
  let nodeId ← readU64
  let peerAddr ← readString
  pure { type := .ofByte type, nodeId, peerAddr }

def readEntry : BinaryReader RaftEntry := do
  let term ← readU64
  let index ← readU64
  let type ← readU8
  let key ← readString
  let value ← readString
  let lease ← readU64
  let e : RaftEntry :=
    { term, index, type := .ofByte type, key, value, leaseId := WAL.leaseOfBits lease }
  if e.type = .confChange then
    let confChange ← readConfChange
    pure { e with confChange }
  else pure e

def readAppendEntries : BinaryReader AppendEntriesRequest := do
  let term ← readU64
  let leaderId ← readU64
  let prevLogIndex ← readU64
  let prevLogTerm ← readU64
  let leaderCommit ← readU64
  let entryCount ← readU64
  let entries ← readTimes readEntry entryCount
  pure { term, leaderId, prevLogIndex, prevLogTerm, entries, leaderCommit }

/-- What `ProcessIncomingMsg` finds in a message. -/
inductive IncomingMsg where
  | requestVote (req : RequestVoteRequest)
  | appendEntries (req : AppendEntriesRequest)
  | unknown
  deriving DecidableEq

def readMsg : BinaryReader IncomingMsg := do
  let msgType ← readU8
  if msgType = MsgType.requestVoteReq.toByte then
    let req ← readRequestVote
    pure (.requestVote req)
  else if msgType = MsgType.appendEntriesReq.toByte then
    let req ← readAppendEntries
    pure (.appendEntries req)
  else pure .unknown

/-- The receiver's side of a call, with the handlers that have been set. -/
def processIncomingMsg (requestVoteHandler : Option (RequestVoteRequest → RequestVoteResponse))
    (appendEntriesHandler : Option (AppendEntriesRequest → AppendEntriesResponse))
    (data : Bytes) : Bytes :=
  if data.isEmpty then []
  else
    match (readMsg.run data).1 with
    | .requestVote req =>
      requestVoteRespBytes ((requestVoteHandler.map (· req)).getD .unreachable)
    | .appendEntries req =>
      appendEntriesRespBytes ((appendEntriesHandler.map (· req)).getD .unreachable)
    | .unknown => []

def readRequestVoteResp : BinaryReader RequestVoteResponse := do
  let _ ← readU8
  let term ← readU64
  let granted ← readU8
  pure ⟨term, granted ≠ 0⟩

def readAppendEntriesResp : BinaryReader AppendEntriesResponse := do
  let _ ← readU8
  let term ← readU64
  let success ← readU8
  let lastLogIndex ← readU64
  let conflictIndex ← readU64
  let conflictTerm ← readU64
  pure { term, success := success ≠ 0, lastLogIndex, conflictIndex, conflictTerm }

def sendRequestVote (sendAndReceive : Bytes → Bytes) (req : RequestVoteRequest) :
    RequestVoteResponse :=
  let respData := sendAndReceive (requestVoteBytes req)
  if respData.length < 2 then .unreachable else (readRequestVoteResp.run respData).1

def sendAppendEntries (sendAndReceive : Bytes → Bytes) (req : AppendEntriesRequest) :
    AppendEntriesResponse :=
  let respData := sendAndReceive (appendEntriesBytes req)
  if respData.length < 2 then .unreachable else (readAppendEntriesResp.run respData).1

theorem reads_u8 (b : UInt8) : Reads readU8 (writeU8 b) b := fun _ => rfl

theorem writeU64_eq (v : Nat) : writeU64 v = toBigEndian 8 v := by
  simp [writeU64, toBigEndian, Nat.shiftRight_eq_div_pow]

theorem reads_u64 {v : Nat} (h : v < 2 ^ 64) : Reads readU64 (writeU64 v) v := by
  rw [writeU64_eq]
  exact readBigEndian_toBigEndian (by omega)

theorem reads_string {s : Bytes} (h : s.length < 2 ^ 64) : Reads readString (writeString s) s := by
  refine (reads_u64 h).bind fun rest => ?_
  have hfits : ¬ s.length > (s ++ rest).length := by simp
  have hrun (bytes : Bytes) (len : Nat) : (do
      set (bytes.drop len)
      pure (bytes.take len) : BinaryReader Bytes).run bytes = (bytes.take len, bytes.drop len) := rfl
  rw [StateT.run_bind, StateT.run_get, pure_bind]
  dsimp only
  rw [if_neg hfits, hrun, List.take_left, List.drop_left]

/-- The numbers of a message fit their fields. -/
structure RequestVoteFits (req : RequestVoteRequest) : Prop where
  term : req.term < 2 ^ 64
  candidateId : req.candidateId < 2 ^ 64
  lastLogIndex : req.lastLogIndex < 2 ^ 64
  lastLogTerm : req.lastLogTerm < 2 ^ 64

/-- An entry's numbers fit their fields, and a membership change stands only in an entry for one. -/
structure EntryFits (e : RaftEntry) : Prop where
  term : e.term < 2 ^ 64
  index : e.index < 2 ^ 64
  key : e.key.length < 2 ^ 64
  value : e.value.length < 2 ^ 64
  lease : -2 ^ 63 ≤ e.leaseId ∧ e.leaseId < 2 ^ 63
  nodeId : e.confChange.nodeId < 2 ^ 64
  peerAddr : e.confChange.peerAddr.length < 2 ^ 64
  plain : e.type ≠ .confChange → e.confChange = {}

structure AppendEntriesFits (req : AppendEntriesRequest) : Prop where
  term : req.term < 2 ^ 64
  leaderId : req.leaderId < 2 ^ 64
  prevLogIndex : req.prevLogIndex < 2 ^ 64
  prevLogTerm : req.prevLogTerm < 2 ^ 64
  leaderCommit : req.leaderCommit < 2 ^ 64
  count : req.entries.length < 2 ^ 64
  entries : ∀ e ∈ req.entries, EntryFits e

structure AppendEntriesRespFits (resp : AppendEntriesResponse) : Prop where
  term : resp.term < 2 ^ 64
  lastLogIndex : resp.lastLogIndex < 2 ^ 64
  conflictIndex : resp.conflictIndex < 2 ^ 64
  conflictTerm : resp.conflictTerm < 2 ^ 64

theorem reads_requestVote {req : RequestVoteRequest} (h : RequestVoteFits req) :
    Reads readMsg (requestVoteBytes req) (.requestVote req) := by
  refine (reads_u8 _).bind ?_
  rw [if_pos rfl]
  refine Reads.bind_pure (g := IncomingMsg.requestVote) ?_
  refine (reads_u64 h.term).bind ?_
  refine (reads_u64 h.candidateId).bind ?_
  refine (reads_u64 h.lastLogIndex).bind ?_
  exact (reads_u64 h.lastLogTerm).bind_pure

theorem reads_confChange {cc : ConfChange} (hid : cc.nodeId < 2 ^ 64)
    (haddr : cc.peerAddr.length < 2 ^ 64) : Reads readConfChange (confChangeBytes cc) cc := by
  have htype : ({ cc with type := .ofByte cc.type.toByte } : ConfChange) = cc := by
    rw [ConfChangeType.ofByte_toByte]
  refine (reads_u8 _).bind ?_
  refine (reads_u64 hid).bind ?_
  have hlast := (reads_string haddr).bind_pure (g := fun peerAddr =>
    ({ type := .ofByte cc.type.toByte, nodeId := cc.nodeId, peerAddr } : ConfChange))
  rwa [htype] at hlast

/-- An entry's own bytes end where its type says, with or without a membership change. -/
theorem reads_entry {e : RaftEntry} (h : EntryFits e) : Reads readEntry (entryBytes e) e := by
  refine (reads_u64 h.term).bind ?_
  refine (reads_u64 h.index).bind ?_
  refine (reads_u8 _).bind ?_
  refine (reads_string h.key).bind ?_
  refine (reads_string h.value).bind ?_
  refine (reads_u64 (WAL.leaseBits_lt _)).bind ?_
  simp only [EventType.ofByte_toByte, WAL.leaseOfBits_leaseBits h.lease]
  by_cases htype : e.type = .confChange
  · rw [if_pos htype, if_pos htype]
    exact (reads_confChange h.nodeId h.peerAddr).bind_pure
      (g := fun confChange => ({ e with confChange } : RaftEntry))
  · rw [if_neg htype, if_neg htype]
    have hplain : ({ e with confChange := {} } : RaftEntry) = e := by rw [← h.plain htype]
    rw [hplain]
    exact .pure e

theorem reads_appendEntries {req : AppendEntriesRequest} (h : AppendEntriesFits req) :
    Reads readMsg (appendEntriesBytes req) (.appendEntries req) := by
  refine (reads_u8 _).bind ?_
  rw [if_neg (by decide), if_pos rfl]
  refine Reads.bind_pure (g := IncomingMsg.appendEntries) ?_
  refine (reads_u64 h.term).bind ?_
  refine (reads_u64 h.leaderId).bind ?_
  refine (reads_u64 h.prevLogIndex).bind ?_
  refine (reads_u64 h.prevLogTerm).bind ?_
  refine (reads_u64 h.leaderCommit).bind ?_
  refine (reads_u64 h.count).bind ?_
  exact (Reads.times fun e he => reads_entry (h.entries e he)).bind_pure

private theorem flag_byte (b : Bool) : decide ((if b then 1 else 0 : UInt8) ≠ 0) = b := by
  cases b <;> rfl

theorem reads_requestVoteResp {resp : RequestVoteResponse} (h : resp.term < 2 ^ 64) :
    Reads readRequestVoteResp (requestVoteRespBytes resp) resp := by
  refine (reads_u8 _).bind ?_
  refine (reads_u64 h).bind ?_
  have hlast := (reads_u8 (if resp.voteGranted then 1 else 0)).bind_pure
    (g := fun granted => (⟨resp.term, granted ≠ 0⟩ : RequestVoteResponse))
  rwa [flag_byte] at hlast

theorem reads_appendEntriesResp {resp : AppendEntriesResponse} (h : AppendEntriesRespFits resp) :
    Reads readAppendEntriesResp (appendEntriesRespBytes resp) resp := by
  refine (reads_u8 _).bind ?_
  refine (reads_u64 h.term).bind ?_
  refine (reads_u8 _).bind ?_
  refine (reads_u64 h.lastLogIndex).bind ?_
  refine (reads_u64 h.conflictIndex).bind ?_
  rw [flag_byte]
  exact (reads_u64 h.conflictTerm).bind_pure

theorem sendRequestVote_answered {resp : RequestVoteResponse} (h : resp.term < 2 ^ 64)
    {sendAndReceive : Bytes → Bytes} {req : RequestVoteRequest}
    (hanswer : sendAndReceive (requestVoteBytes req) = requestVoteRespBytes resp) :
    sendRequestVote sendAndReceive req = resp := by
  have hlength : ¬ (requestVoteRespBytes resp).length < 2 := by
    simp [requestVoteRespBytes, writeU8, writeU64]
  rw [sendRequestVote, hanswer, if_neg hlength, (reads_requestVoteResp h).whole]

theorem sendAppendEntries_answered {resp : AppendEntriesResponse} (h : AppendEntriesRespFits resp)
    {sendAndReceive : Bytes → Bytes} {req : AppendEntriesRequest}
    (hanswer : sendAndReceive (appendEntriesBytes req) = appendEntriesRespBytes resp) :
    sendAppendEntries sendAndReceive req = resp := by
  have hlength : ¬ (appendEntriesRespBytes resp).length < 2 := by
    simp [appendEntriesRespBytes, writeU8, writeU64]
  rw [sendAppendEntries, hanswer, if_neg hlength, (reads_appendEntriesResp h).whole]

/-- Every request and every answer is read as it was written, and nothing is left over. -/
theorem wire_round_trip :
    (∀ req, RequestVoteFits req → readMsg.run (requestVoteBytes req) = (.requestVote req, [])) ∧
    (∀ req, AppendEntriesFits req →
      readMsg.run (appendEntriesBytes req) = (.appendEntries req, [])) ∧
    (∀ resp : RequestVoteResponse, resp.term < 2 ^ 64 →
      readRequestVoteResp.run (requestVoteRespBytes resp) = (resp, []) ∧
      ∀ req, sendRequestVote (fun _ => requestVoteRespBytes resp) req = resp) ∧
    (∀ resp, AppendEntriesRespFits resp →
      readAppendEntriesResp.run (appendEntriesRespBytes resp) = (resp, []) ∧
      ∀ req, sendAppendEntries (fun _ => appendEntriesRespBytes resp) req = resp) :=
  ⟨fun _ h => (reads_requestVote h).whole, fun _ h => (reads_appendEntries h).whole,
    fun _ h => ⟨(reads_requestVoteResp h).whole, fun _ => sendRequestVote_answered h rfl⟩,
    fun _ h => ⟨(reads_appendEntriesResp h).whole, fun _ => sendAppendEntries_answered h rfl⟩⟩

/-- A put with a lease and the addition of a peer, sent in one request. -/
theorem wire_round_trip_two_entries :
    let req : AppendEntriesRequest :=
      { term := 2, leaderId := 1, prevLogIndex := 0, prevLogTerm := 0, leaderCommit := 0
        entries := [{ term := 1, index := 1, key := [107], value := [0, 255], leaseId := -1 },
          { term := 2, index := 2, type := .confChange,
            confChange := { nodeId := 300, peerAddr := [58] } }] }
    readMsg.run (appendEntriesBytes req) = (.appendEntries req, []) := by
  refine wire_round_trip.2.1 _
    ⟨by decide, by decide, by decide, by decide, by decide, by decide, fun e he => ?_⟩
  simp only [List.mem_cons, List.not_mem_nil, or_false] at he
  rcases he with rfl | rfl
  · exact ⟨by decide, by decide, by decide, by decide, by decide, by decide, by decide,
      by decide⟩
  · exact ⟨by decide, by decide, by decide, by decide, by decide, by decide, by decide,
      by decide⟩

/-- A call over the connection is a call of the peer's handler. -/
theorem sendRequestVote_calls {handler : RequestVoteRequest → RequestVoteResponse}
    {appendEntriesHandler : Option (AppendEntriesRequest → AppendEntriesResponse)}
    {req : RequestVoteRequest} (h : RequestVoteFits req) (hresp : (handler req).term < 2 ^ 64) :
    sendRequestVote (processIncomingMsg (some handler) appendEntriesHandler) req =
      handler req := by
  refine sendRequestVote_answered hresp ?_
  rw [processIncomingMsg, if_neg (by simp [requestVoteBytes, writeU8]), (reads_requestVote h).whole]
  rfl

theorem sendAppendEntries_calls {handler : AppendEntriesRequest → AppendEntriesResponse}
    {requestVoteHandler : Option (RequestVoteRequest → RequestVoteResponse)}
    {req : AppendEntriesRequest} (h : AppendEntriesFits req)
    (hresp : AppendEntriesRespFits (handler req)) :
    sendAppendEntries (processIncomingMsg requestVoteHandler (some handler)) req =
      handler req := by
  refine sendAppendEntries_answered hresp ?_
  rw [processIncomingMsg, if_neg (by simp [appendEntriesBytes, writeU8]),
    (reads_appendEntries h).whole]
  rfl

end TcpTransport
end MyEtcd
