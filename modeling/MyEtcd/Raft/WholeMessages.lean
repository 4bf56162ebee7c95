import Mathlib.Algebra.BigOperators.Group.List.Basic
import MyEtcd.Raft.TcpTransport

/-! What reaches the handlers of Raft.
The readers yield zeros and clipped strings past the end of a message, and bytes they leave over
are not noticed. A message is read as it was written just where its own lengths come out even. -/
namespace MyEtcd
open Library

namespace TcpTransport
open BinaryWriter BinaryReader

def handlerCall (data : Bytes) : IncomingMsg :=
  if data.isEmpty then .unknown else (readMsg.run data).1

def number (data : Bytes) : Nat := (readU64.run data).1

def skipString (data : Bytes) : Option Bytes := (skip 8 data).bind (skip (number data))

def skipConfChange (data : Bytes) : Option Bytes :=
  ((skip 1 data).bind (skip 8)).bind skipString

/-- Step over an entry, with the membership change where the type, the byte behind two numbers, says
that there is one. -/
def skipEntry (data : Bytes) : Option Bytes :=
  (((((skip 8 data).bind (skip 8)).bind (skip 1)).bind skipString).bind skipString).bind fun rest =>
    (skip 8 rest).bind fun rest =>
      if data[16]? = some EventType.confChange.toByte then skipConfChange rest else some rest

/-- Step over a request of the type in the first byte: four numbers, or five numbers, the number of
entries and the entries. -/
def skipMsg (data : Bytes) : Option Bytes :=
  if data.head? = some MsgType.requestVoteReq.toByte then
    (skip 1 data).bind (skipTimes (skip 8) 4)
  else if data.head? = some MsgType.appendEntriesReq.toByte then
    ((skip 1 data).bind (skipTimes (skip 8) 5)).bind fun rest =>
      (skip 8 rest).bind (skipTimes skipEntry (number rest))
  else none

/-- The request that a call brings has been written just as the message stands. -/
def Whole (data : Bytes) : IncomingMsg → Prop
  | .requestVote req => RequestVoteFits req ∧ data = requestVoteBytes req
  | .appendEntries req => AppendEntriesFits req ∧ data = appendEntriesBytes req ∧
    req.entries.length ≤ data.length
  | .unknown => True

theorem delimits_u64 : Delimits (skip 8) (fun v => v < 2 ^ 64) writeU64 := by
  intro data rest
  rw [skip_eq_some]
  constructor
  · rintro ⟨piece, hlength, rfl⟩
    obtain ⟨v, hlt, hbytes⟩ := exists_toBigEndian piece
    rw [hlength] at hlt hbytes
    exact ⟨v, hlt, by rw [writeU64_eq, hbytes]⟩
  · rintro ⟨v, _, rfl⟩
    exact ⟨writeU64 v, rfl, rfl⟩

theorem delimits_u8 : Delimits (skip 1) (fun _ => True) writeU8 := by
  intro data rest
  rw [skip_eq_some]
  constructor
  · rintro ⟨piece, hlength, rfl⟩
    obtain ⟨b, rfl⟩ := List.length_eq_one_iff.mp hlength
    exact ⟨b, trivial, rfl⟩
  · rintro ⟨b, _, rfl⟩
    exact ⟨writeU8 b, rfl, rfl⟩

theorem number_writeU64 {v : Nat} (h : v < 2 ^ 64) (rest : Bytes) :
    number (writeU64 v ++ rest) = v := by
  rw [number, reads_u64 h]

theorem delimits_string : Delimits skipString (fun s => s.length < 2 ^ 64) writeString := by
  intro data rest
  rw [skipString, Option.bind_eq_some_iff]
  constructor
  · rintro ⟨mid, hlen, hbytes⟩
    obtain ⟨v, hv, rfl⟩ := (delimits_u64 _ _).mp hlen
    rw [number_writeU64 hv] at hbytes
    obtain ⟨s, rfl, rfl⟩ := skip_eq_some.mp hbytes
    exact ⟨s, hv, by rw [writeString, List.append_assoc]⟩
  · rintro ⟨s, hs, rfl⟩
    rw [writeString, List.append_assoc]
    refine ⟨s ++ rest, delimits_u64.written hs _, ?_⟩
    rw [number_writeU64 hs]
    exact skip_eq_some.mpr ⟨s, rfl, rfl⟩

theorem delimits_confChange : Delimits skipConfChange
    (fun cc => cc.nodeId < 2 ^ 64 ∧ cc.peerAddr.length < 2 ^ 64) confChangeBytes := by
  intro data rest
  simp only [skipConfChange, Option.bind_eq_some_iff]
  constructor
  · rintro ⟨addr, ⟨id, htype, hid⟩, haddr⟩
    obtain ⟨b, _, rfl⟩ := (delimits_u8 _ _).mp htype
    obtain ⟨nodeId, hnodeId, rfl⟩ := (delimits_u64 _ _).mp hid
    obtain ⟨peerAddr, hpeerAddr, rfl⟩ := (delimits_string _ _).mp haddr
    refine ⟨{ type := .ofByte b, nodeId := nodeId, peerAddr := peerAddr }, ⟨hnodeId, hpeerAddr⟩, ?_⟩
    simp only [confChangeBytes, ConfChangeType.toByte_ofByte, List.append_assoc]
  · rintro ⟨cc, ⟨hnodeId, hpeerAddr⟩, rfl⟩
    simp only [confChangeBytes, List.append_assoc]
    exact ⟨_, ⟨_, delimits_u8.written trivial _, delimits_u64.written hnodeId _⟩,
      delimits_string.written hpeerAddr _⟩

private theorem type_at (term index : Nat) (b : UInt8) (rest : Bytes) :
    (writeU64 term ++ (writeU64 index ++ (writeU8 b ++ rest)))[16]? = some b := by
  rfl

theorem delimits_entry : Delimits skipEntry EntryFits entryBytes := by
  intro data rest
  simp only [skipEntry, Option.bind_eq_some_iff]
  constructor
  · rintro ⟨r₅, ⟨r₄, ⟨r₃, ⟨r₂, ⟨r₁, hs₁, hs₂⟩, hs₃⟩, hs₄⟩, hs₅⟩, r₆, hs₆, hlast⟩
    obtain ⟨term, hterm, rfl⟩ := (delimits_u64 _ _).mp hs₁
    obtain ⟨index, hindex, rfl⟩ := (delimits_u64 _ _).mp hs₂
    obtain ⟨b, _, rfl⟩ := (delimits_u8 _ _).mp hs₃
    obtain ⟨key, hkey, rfl⟩ := (delimits_string _ _).mp hs₄
    obtain ⟨value, hvalue, rfl⟩ := (delimits_string _ _).mp hs₅
    obtain ⟨v, hv, rfl⟩ := (delimits_u64 _ _).mp hs₆
    obtain ⟨lease, hlease, rfl⟩ := WAL.exists_leaseBits hv
    simp only [type_at, Option.some_inj] at hlast
    have htype : (EventType.ofByte b).toByte = b := EventType.toByte_ofByte b
    by_cases hb : b = EventType.confChange.toByte
    · rw [if_pos hb] at hlast
      obtain ⟨cc, ⟨hnodeId, hpeerAddr⟩, rfl⟩ := (delimits_confChange _ _).mp hlast
      have hconf : EventType.ofByte b = .confChange := by rw [hb, EventType.ofByte_toByte]
      refine ⟨⟨term, index, .ofByte b, key, value, lease, cc⟩, ⟨hterm, hindex, hkey, hvalue, hlease,
        hnodeId, hpeerAddr, fun hplain => absurd hconf hplain⟩, ?_⟩
      simp only [entryBytes, htype, if_pos hconf, List.append_assoc]
    · rw [if_neg hb, Option.some_inj] at hlast
      have hplain : EventType.ofByte b ≠ .confChange := fun hconf => hb (by rw [← htype, hconf])
      refine ⟨⟨term, index, .ofByte b, key, value, lease, {}⟩, ⟨hterm, hindex, hkey, hvalue, hlease,
        Nat.two_pow_pos 64, Nat.two_pow_pos 64, fun _ => rfl⟩, ?_⟩
      simp only [entryBytes, htype, if_neg hplain, hlast, List.append_assoc, List.nil_append]
  · rintro ⟨e, h, rfl⟩
    simp only [entryBytes, List.append_assoc]
    refine ⟨_, ⟨_, ⟨_, ⟨_, ⟨_, delimits_u64.written h.term _, delimits_u64.written h.index _⟩,
      delimits_u8.written trivial _⟩, delimits_string.written h.key _⟩,
      delimits_string.written h.value _⟩, _, delimits_u64.written (WAL.leaseBits_lt _) _, ?_⟩
    simp only [type_at, Option.some_inj]
    by_cases htype : e.type = .confChange
    · rw [if_pos htype, htype, if_pos rfl]
      exact delimits_confChange.written ⟨h.nodeId, h.peerAddr⟩ rest
    · have hb : e.type.toByte ≠ EventType.confChange.toByte := by
        intro hb
        rw [← EventType.ofByte_toByte e.type, hb] at htype
        exact htype rfl
      rw [if_neg htype, if_neg hb, List.nil_append]

theorem skip_type (msgType : MsgType) (body : Bytes) :
    skip 1 (writeU8 msgType.toByte ++ body) = some body :=
  delimits_u8.written trivial body

theorem exists_of_head {data : Bytes} {b : UInt8} (h : data.head? = some b) :
    ∃ body, data = writeU8 b ++ body := by
  cases data with
  | nil => cases h
  | cons c body => exact ⟨body, by rw [← Option.some.inj h]; rfl⟩

theorem skipMsg_requestVote (body : Bytes) :
    skipMsg (writeU8 MsgType.requestVoteReq.toByte ++ body) = skipTimes (skip 8) 4 body := by
  have hhead : (writeU8 MsgType.requestVoteReq.toByte ++ body).head? =
      some MsgType.requestVoteReq.toByte := rfl
  rw [skipMsg, if_pos hhead, skip_type, Option.bind_some]

theorem skipMsg_appendEntries (body : Bytes) :
    skipMsg (writeU8 MsgType.appendEntriesReq.toByte ++ body) =
      (skipTimes (skip 8) 5 body).bind fun rest =>
        (skip 8 rest).bind (skipTimes skipEntry (number rest)) := by
  have hhead : (writeU8 MsgType.appendEntriesReq.toByte ++ body).head? =
      some MsgType.appendEntriesReq.toByte := rfl
  rw [skipMsg, if_neg (by rw [hhead]; decide), if_pos hhead, skip_type, Option.bind_some]

def msgBytes : IncomingMsg → Bytes
  | .requestVote req => requestVoteBytes req
  | .appendEntries req => appendEntriesBytes req
  | .unknown => []

def MsgFits : IncomingMsg → Prop
  | .requestVote req => RequestVoteFits req
  | .appendEntries req => AppendEntriesFits req
  | .unknown => False

theorem reads_msg : ∀ msg, MsgFits msg → Reads readMsg (msgBytes msg) msg
  | .requestVote _, h => reads_requestVote h
  | .appendEntries _, h => reads_appendEntries h

theorem delimits_msg : Delimits skipMsg MsgFits msgBytes := by
  intro data rest
  constructor
  · intro h
    by_cases hvote : data.head? = some MsgType.requestVoteReq.toByte
    · obtain ⟨body, rfl⟩ := exists_of_head hvote
      rw [skipMsg_requestVote] at h
      obtain ⟨numbers, ⟨hlength, hfits⟩, rfl⟩ := (delimits_u64.times 4 _ _).mp h
      obtain ⟨term, candidateId, lastLogIndex, lastLogTerm, rfl⟩ := List.length_eq_four.mp hlength
      simp only [List.forall_mem_cons] at hfits
      obtain ⟨hterm, hid, hindex, hlogTerm, _⟩ := hfits
      refine ⟨.requestVote ⟨term, candidateId, lastLogIndex, lastLogTerm⟩,
        ⟨hterm, hid, hindex, hlogTerm⟩, ?_⟩
      simp [msgBytes, requestVoteBytes]
    by_cases happend : data.head? = some MsgType.appendEntriesReq.toByte
    · obtain ⟨body, rfl⟩ := exists_of_head happend
      rw [skipMsg_appendEntries] at h
      obtain ⟨rest₁, hnumbers, hcounted⟩ := Option.bind_eq_some_iff.mp h
      obtain ⟨numbers, ⟨hlength, hfits⟩, rfl⟩ := (delimits_u64.times 5 _ _).mp hnumbers
      obtain ⟨rest₂, hskip, hentries⟩ := Option.bind_eq_some_iff.mp hcounted
      obtain ⟨count, hcount, rfl⟩ := (delimits_u64 _ _).mp hskip
      rw [number_writeU64 hcount] at hentries
      obtain ⟨entries, ⟨rfl, hall⟩, rfl⟩ := (delimits_entry.times count _ _).mp hentries
      obtain ⟨term, others, rfl, hothers⟩ := List.length_eq_succ_iff.mp hlength
      obtain ⟨leaderId, prevLogIndex, prevLogTerm, leaderCommit, rfl⟩ :=
        List.length_eq_four.mp hothers
      simp only [List.forall_mem_cons] at hfits
      obtain ⟨hterm, hid, hindex, hlogTerm, hcommit, _⟩ := hfits
      refine ⟨.appendEntries ⟨term, leaderId, prevLogIndex, prevLogTerm, entries, leaderCommit⟩,
        ⟨hterm, hid, hindex, hlogTerm, hcommit, hcount, hall⟩, ?_⟩
      simp [msgBytes, appendEntriesBytes]
    · rw [skipMsg, if_neg hvote, if_neg happend] at h
      cases h
  · rintro ⟨msg, h, rfl⟩
    cases msg with
    | unknown => cases h
    | requestVote req =>
      have hbytes : msgBytes (.requestVote req) ++ rest = writeU8 MsgType.requestVoteReq.toByte ++
          ([req.term, req.candidateId, req.lastLogIndex, req.lastLogTerm].flatMap writeU64 ++
            rest) := by
        simp [msgBytes, requestVoteBytes]
      rw [hbytes, skipMsg_requestVote]
      refine (delimits_u64.times 4).written ⟨rfl, ?_⟩ rest
      simpa using ⟨h.term, h.candidateId, h.lastLogIndex, h.lastLogTerm⟩
    | appendEntries req =>
      have hbytes : msgBytes (.appendEntries req) ++ rest =
          writeU8 MsgType.appendEntriesReq.toByte ++
            ([req.term, req.leaderId, req.prevLogIndex, req.prevLogTerm, req.leaderCommit].flatMap
              writeU64 ++ (writeU64 req.entries.length ++
                (req.entries.flatMap entryBytes ++ rest))) := by
        simp [msgBytes, appendEntriesBytes]
      have hnumbers := (delimits_u64.times 5).written
        (a := [req.term, req.leaderId, req.prevLogIndex, req.prevLogTerm, req.leaderCommit])
        ⟨rfl, by simpa using ⟨h.term, h.leaderId, h.prevLogIndex, h.prevLogTerm, h.leaderCommit⟩⟩
        (writeU64 req.entries.length ++ (req.entries.flatMap entryBytes ++ rest))
      rw [hbytes, skipMsg_appendEntries, hnumbers, Option.bind_some, delimits_u64.written h.count,
        Option.bind_some, number_writeU64 h.count]
      exact (delimits_entry.times req.entries.length).written ⟨rfl, h.entries⟩ rest

/-- What `ProcessIncomingMsg` answers depends on the handlers through this call alone. -/
theorem processIncomingMsg_eq (requestVoteHandler : RequestVoteRequest → RequestVoteResponse)
    (appendEntriesHandler : AppendEntriesRequest → AppendEntriesResponse) (data : Bytes) :
    processIncomingMsg (some requestVoteHandler) (some appendEntriesHandler) data =
      match handlerCall data with
      | .requestVote req => requestVoteRespBytes (requestVoteHandler req)
      | .appendEntries req => appendEntriesRespBytes (appendEntriesHandler req)
      | .unknown => [] := by
  rw [processIncomingMsg, handlerCall]
  by_cases hempty : data.isEmpty = true
  · rw [if_pos hempty, if_pos hempty]
  · rw [if_neg hempty, if_neg hempty]
    cases (readMsg.run data).1 with
    | requestVote req => rfl
    | appendEntries req => rfl
    | unknown => rfl

/-- No handler is called only where the first byte names no request. -/
theorem handlerCall_eq_unknown {data : Bytes} : handlerCall data = .unknown ↔
    data.head? ≠ some MsgType.requestVoteReq.toByte ∧
      data.head? ≠ some MsgType.appendEntriesReq.toByte := by
  cases data with
  | nil => simp [handlerCall]
  | cons msgType body =>
    have hrun : handlerCall (msgType :: body) =
        if msgType = MsgType.requestVoteReq.toByte then .requestVote (readRequestVote.run body).1
        else if msgType = MsgType.appendEntriesReq.toByte then
          .appendEntries (readAppendEntries.run body).1
        else .unknown := by
      rw [handlerCall, if_neg (by simp)]
      have hread : readMsg.run (msgType :: body) =
          (if msgType = MsgType.requestVoteReq.toByte then
            IncomingMsg.requestVote <$> readRequestVote
          else if msgType = MsgType.appendEntriesReq.toByte then
            IncomingMsg.appendEntries <$> readAppendEntries
          else pure .unknown : BinaryReader IncomingMsg).run body := rfl
      rw [hread]
      split_ifs
      · rfl
      · rfl
      · rfl
    rw [hrun, List.head?_cons]
    split_ifs with hvote happend
    · simp [hvote]
    · simp [happend]
    · simp [hvote, happend]

theorem length_le_entries (entries : List RaftEntry) :
    entries.length ≤ (entries.flatMap entryBytes).length := by
  have hentry (e : RaftEntry) : 1 ≤ (entryBytes e).length := by
    simp only [entryBytes, writeU64, List.length_append, List.length_map, List.length_cons]
    omega
  have hsum := List.length_le_sum_of_one_le (entries.map fun e => (entryBytes e).length)
    (by simpa using fun e _ => hentry e)
  rwa [List.length_map, ← List.length_flatMap] at hsum

theorem whole_iff_fits {data : Bytes} {msg : IncomingMsg} (h : msg ≠ .unknown) :
    Whole data msg ↔ MsgFits msg ∧ data = msgBytes msg := by
  cases msg with
  | unknown => exact absurd rfl h
  | requestVote req => exact Iff.rfl
  | appendEntries req =>
    refine ⟨fun hwhole => ⟨hwhole.1, hwhole.2.1⟩, fun ⟨hfits, hdata⟩ => ⟨hfits, hdata, ?_⟩⟩
    have hentries := length_le_entries req.entries
    rw [hdata]
    simp only [msgBytes, appendEntriesBytes, List.length_append]
    omega

/-- A handler is called with nothing but what has been written just so for it, exactly if the first
byte names no request or the lengths in the message come out even. -/
theorem only_whole_messages_iff (data : Bytes) :
    Whole data (handlerCall data) ↔
      (data.head? ≠ some MsgType.requestVoteReq.toByte ∧
        data.head? ≠ some MsgType.appendEntriesReq.toByte) ∨ skipMsg data = some [] := by
  rw [← handlerCall_eq_unknown, delimits_msg.whole_iff reads_msg]
  by_cases hcall : handlerCall data = .unknown
  · rw [hcall]
    exact ⟨fun _ => .inl rfl, fun _ => trivial⟩
  · have hread : handlerCall data = (readMsg.run data).1 := by
      cases data with
      | nil => exact absurd rfl hcall
      | cons b body => rfl
    rw [← hread, or_iff_right hcall, whole_iff_fits hcall]

/-- A leader's message of term 5 that announces fifty entries and ends there. -/
def announced : Bytes :=
  writeU8 MsgType.appendEntriesReq.toByte ++ [5, 1, 0, 0, 0, 50].flatMap writeU64

/-- All fifty come out of 49 bytes, each with nothing but zeros in it. -/
theorem announced_handled :
    announced.length = 49 ∧
    handlerCall announced = .appendEntries ⟨5, 1, 0, 0, List.replicate 50 {}, 0⟩ ∧
    ¬ Whole announced (handlerCall announced) := by
  have hcall : handlerCall announced =
      .appendEntries ⟨5, 1, 0, 0, List.replicate 50 {}, 0⟩ := by decide +kernel
  refine ⟨by decide, hcall, ?_⟩
  rw [hcall]
  rintro ⟨_, _, hcount⟩
  exact absurd hcount (by decide)

end TcpTransport
end MyEtcd
