import Mathlib.Algebra.Order.BigOperators.Group.List
import MyEtcd.Raft.RaftNode
import MyEtcd.Raft.TcpTransport

/-! How long the leader's messages are. The number of entries in a message is bounded, and so are the
parts of a put, but not by what the receiver takes. -/
namespace MyEtcd
open Library

namespace SimpleHttpServer

def kMaxKeyLen : Nat := 1024 * 1024

def kMaxValueLen : Nat := 8 * 1024 * 1024

/-- What `HandlePut` answers instead of asking the server, if anything. -/
def handlePutError (key value : Bytes) : Option String :=
  if key.isEmpty then some "key is required"
  else if key.length > kMaxKeyLen then some "key too large (max 1MB)"
  else if value.length > kMaxValueLen then some "value too large (max 8MB)"
  else none

end SimpleHttpServer

namespace TcpTransport
open BinaryWriter

def kMaxMessageSize : Nat := 4 * 1024 * 1024

/-- What `SendAndReceive` sends: the length in four bytes, and the message. -/
def framed (data : Bytes) : Bytes := toBigEndian 4 data.length ++ data

/-- The message that `HandleClient` takes from a connection, unless it closes the connection. -/
def handleClient (stream : Bytes) : Option Bytes :=
  if stream.length < 4 then none
  else
    let (msgLen, rest) := (readBigEndian 4 0).run stream
    if msgLen > kMaxMessageSize then none
    else if rest.length < msgLen then none
    else some (rest.take msgLen)

/-- The bytes of an entry: the fields, two of them with a length, and the membership change. -/
def entrySize (e : RaftEntry) : Nat :=
  41 + e.key.length + e.value.length +
    if e.type = .confChange then 17 + e.confChange.peerAddr.length else 0

/-- The request is short enough, so that the receiver takes all of it. -/
def ReadByPeer (req : AppendEntriesRequest) : Prop :=
  (appendEntriesBytes req).length ≤ kMaxMessageSize ∧
    handleClient (framed (appendEntriesBytes req)) = some (appendEntriesBytes req)

theorem length_writeU64 (v : Nat) : (writeU64 v).length = 8 := rfl

theorem length_writeString (s : Bytes) : (writeString s).length = 8 + s.length := by
  rw [writeString, List.length_append, length_writeU64]

theorem length_confChangeBytes (cc : ConfChange) :
    (confChangeBytes cc).length = 17 + cc.peerAddr.length := by
  simp only [confChangeBytes, writeU8, List.length_append, List.length_singleton, length_writeU64,
    length_writeString]
  omega

theorem length_entryBytes (e : RaftEntry) : (entryBytes e).length = entrySize e := by
  have hconf : (if e.type = .confChange then confChangeBytes e.confChange else []).length =
      if e.type = .confChange then 17 + e.confChange.peerAddr.length else 0 := by
    split_ifs
    · exact length_confChangeBytes e.confChange
    · rfl
  simp only [entryBytes, entrySize, writeU8, List.length_append, List.length_singleton,
    length_writeU64, length_writeString, hconf]
  omega

theorem length_appendEntriesBytes (req : AppendEntriesRequest) :
    (appendEntriesBytes req).length = 49 + (req.entries.map entrySize).sum := by
  have hentries : (req.entries.flatMap entryBytes).length = (req.entries.map entrySize).sum := by
    rw [List.length_flatMap]
    exact congrArg List.sum (List.map_congr_left fun e _ => length_entryBytes e)
  simp only [appendEntriesBytes, writeU8, List.length_append, List.length_singleton,
    length_writeU64, hentries]
  omega

/-- A message of less than 4 GiB is taken as it was sent, or the connection is closed. -/
theorem handleClient_framed {data : Bytes} (h : data.length < 2 ^ 32) :
    handleClient (framed data) = if data.length > kMaxMessageSize then none else some data := by
  have hread : (readBigEndian 4 0).run (framed data) = (data.length, data) :=
    readBigEndian_toBigEndian (by omega) data
  have hheader : ¬ (framed data).length < 4 := by
    have hfour : (toBigEndian 4 data.length).length = 4 := rfl
    rw [framed, List.length_append, hfour]
    omega
  rw [handleClient, if_neg hheader, hread]
  dsimp only
  rw [if_neg (lt_irrefl _), List.take_length]

/-- Short enough is all that it takes. -/
theorem readByPeer_iff (req : AppendEntriesRequest) :
    ReadByPeer req ↔ 49 + (req.entries.map entrySize).sum ≤ kMaxMessageSize := by
  rw [ReadByPeer, ← length_appendEntriesBytes]
  refine and_iff_left_of_imp fun hle => ?_
  have hmax : kMaxMessageSize < 2 ^ 32 := by decide
  rw [handleClient_framed (hle.trans_lt hmax), if_neg (not_lt.mpr hle)]

end TcpTransport

namespace RaftNode
open TcpTransport

/-- The peer reads the request that is built for it after `FlushBatch` exactly when the first 128
entries of the log from its next index on, with 41 bytes or more on top of each, take no more than
4 MiB less 49 bytes. -/
theorem heartbeat_read_iff (n : RaftNode) (peer commit : Nat) :
    ReadByPeer (n.appendRequest peer commit) ↔
      49 + (((n.log.entriesFrom (n.nextIndex.getD peer 0) 0).take 128).map entrySize).sum ≤
        kMaxMessageSize :=
  readByPeer_iff (n.appendRequest peer commit)

/-- A put of 40 KB, whose request is read to its end. -/
def longPut (index : Nat) : RaftEntry :=
  { term := 1, index, key := [107], value := List.replicate 40000 97 }

def leaderOf (entries : List RaftEntry) : RaftNode :=
  { nodeId := 1, peers := OrderedMap.insert ∅ 2 (), state := .leader, currentTerm := 1
    log := ⟨entries, 1⟩, nextIndex := OrderedMap.insert ∅ 2 1 }

def longPuts : List RaftEntry := (List.range' 1 128).map longPut

private theorem entrySize_longPut (index : Nat) : entrySize (longPut index) = 40042 := by
  have hvalue : (longPut index).value.length = 40000 := List.length_replicate
  have hkey : (longPut index).key.length = 1 := rfl
  have hplain : ¬ (longPut index).type = .confChange := fun h => by cases h
  rw [entrySize, hvalue, hkey, if_neg hplain]

private theorem whole_longPuts : (leaderOf longPuts).log.Whole := by
  refine ⟨rfl, fun k e he => ?_⟩
  have he : longPuts[k]? = some e := he
  rw [longPuts, List.getElem?_map] at he
  obtain ⟨index, hindex, rfl⟩ := Option.map_eq_some_iff.mp he
  obtain ⟨hlt, rfl⟩ := List.getElem?_eq_some_iff.mp hindex
  rw [List.getElem_range', Nat.one_mul]
  rfl

/-- Puts that `HandlePut` lets in do not make messages that the peer reads. -/
theorem heartbeat_too_long : ¬ ∀ n : RaftNode,
    (∀ e ∈ n.log.entries, e.type = .put → SimpleHttpServer.handlePutError e.key e.value = none) →
      ∀ peer commit, ReadByPeer (n.appendRequest peer commit) := by
  intro h
  have hadmitted : ∀ e ∈ longPuts, e.type = .put →
      SimpleHttpServer.handlePutError e.key e.value = none := by
    intro e he _
    obtain ⟨index, -, rfl⟩ := List.mem_map.mp he
    have hvalue : (longPut index).value.length = 40000 := List.length_replicate
    rw [SimpleHttpServer.handlePutError, hvalue]
    rfl
  have hfrom : (leaderOf longPuts).log.entriesFrom 1 0 = longPuts := whole_longPuts.entriesFrom 0
  have hentries (log : List RaftEntry) : ((leaderOf log).appendRequest 2 0).entries =
      ((leaderOf log).log.entriesFrom 1 0).take 128 := rfl
  have hcount : longPuts.length = 128 := by rw [longPuts, List.length_map, List.length_range']
  have hsizes : (longPuts.map entrySize).sum = 128 * 40042 := by
    have hsame : ∀ size ∈ longPuts.map entrySize, size = 40042 := by
      intro size hsize
      obtain ⟨e, he, rfl⟩ := List.mem_map.mp hsize
      obtain ⟨index, -, rfl⟩ := List.mem_map.mp he
      exact entrySize_longPut index
    rw [List.sum_eq_card_nsmul _ _ hsame, List.length_map, hcount, nsmul_eq_mul, Nat.cast_id]
  have hread := (readByPeer_iff _).mp (h (leaderOf longPuts) hadmitted 2 0)
  rw [hentries, hfrom, List.take_of_length_le (le_of_eq hcount), hsizes] at hread
  exact absurd hread (by decide)

/-- Entries of less than 32 KiB always fit. -/
theorem heartbeat_read_of_small {n : RaftNode} (h : ∀ e ∈ n.log.entries, entrySize e < 2 ^ 15)
    (peer commit : Nat) : ReadByPeer (n.appendRequest peer commit) := by
  apply (readByPeer_iff _).mpr
  obtain ⟨entries, hentries⟩ : ∃ entries, entries = (n.appendRequest peer commit).entries := ⟨_, rfl⟩
  have hsmall : ∀ size ∈ entries.map entrySize, size ≤ 2 ^ 15 - 1 := by
    intro size hsize
    obtain ⟨e, he, rfl⟩ := List.mem_map.mp hsize
    rw [hentries] at he
    exact Nat.le_sub_one_of_lt (h e (RaftLog.mem_entriesFrom (List.mem_of_mem_take he)))
  have hcount : entries.length ≤ 128 := by
    rw [hentries]
    exact List.length_take_le 128 _
  have hsum := List.sum_le_card_nsmul _ _ hsmall
  rw [List.length_map, nsmul_eq_mul, Nat.cast_id] at hsum
  rw [← hentries, kMaxMessageSize]
  omega

end RaftNode
end MyEtcd
