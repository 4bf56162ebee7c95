import Mathlib.Algebra.Group.Nat.Defs
import MyEtcd.Library.OrderedMap

/-! Shared data types of the server.
Terms, log indices and node ids are naturals, zero being the source's `kNoTerm`, `kNoIndex` and
`kNoNodeId`; `predIndex` is the one place where their unsigned 64-bit arithmetic can pass below
zero. A byte string is a list of bytes. -/
namespace MyEtcd

abbrev Bytes := List UInt8

/-- `i - 1` on an unsigned 64-bit index. -/
def predIndex (i : Nat) : Nat := if i = 0 then 2 ^ 64 - 1 else i - 1

@[simp] theorem predIndex_succ (i : Nat) : predIndex (i + 1) = i := by simp [predIndex]

theorem predIndex_of_pos {i : Nat} (h : 0 < i) : predIndex i = i - 1 := by
  simp [predIndex, Nat.pos_iff_ne_zero.mp h]

/-- Kind of a log entry. Entries are decoded by casting a stored byte, which can also produce
a value that the enumeration does not name. -/
inductive EventType where
  | put
  | delete
  | confChange
  | other (code : UInt8) (unnamed : 3 ≤ code)
  deriving DecidableEq

namespace EventType

/-- The byte an event type is stored as. -/
def toByte : EventType → UInt8
  | put => 0
  | delete => 1
  | confChange => 2
  | other code _ => code

/-- `static_cast<EventType>` of a stored byte. -/
def ofByte (b : UInt8) : EventType :=
  if b = 0 then put
  else if b = 1 then delete
  else if b = 2 then confChange
  else if h : 3 ≤ b then other b h
  else put

@[simp] theorem ofByte_toByte (t : EventType) : ofByte t.toByte = t := by
  cases t with
  | put => rfl
  | delete => rfl
  | confChange => rfl
  | other code unnamed =>
    have hge : 3 ≤ code.toNat := UInt8.le_iff_toNat_le.mp unnamed
    have hne (b : UInt8) (hb : b.toNat < 3) : code ≠ b := by
      rintro rfl
      omega
    simp [toByte, ofByte, hne 0 (by decide), hne 1 (by decide), hne 2 (by decide), unnamed]

theorem toByte_ofByte (b : UInt8) : (ofByte b).toByte = b := by
  unfold ofByte
  split_ifs with hput hdelete hconf hother
  · exact hput.symm
  · exact hdelete.symm
  · exact hconf.symm
  · rfl
  · -- no byte is left over
    rw [UInt8.le_iff_toNat_le] at hother
    rw [← UInt8.toNat_inj] at hput hdelete hconf
    simp at hother hput hdelete hconf
    omega

end EventType

/-- Kind of a membership change; again a stored byte may name no constructor. -/
inductive ConfChangeType where
  | addNode
  | removeNode
  | other (code : UInt8) (unnamed : 2 ≤ code)
  deriving DecidableEq

namespace ConfChangeType

def toByte : ConfChangeType → UInt8
  | addNode => 0
  | removeNode => 1
  | other code _ => code

def ofByte (b : UInt8) : ConfChangeType :=
  if b = 0 then addNode
  else if b = 1 then removeNode
  else if h : 2 ≤ b then other b h
  else addNode

@[simp] theorem ofByte_toByte (t : ConfChangeType) : ofByte t.toByte = t := by
  cases t with
  | addNode => rfl
  | removeNode => rfl
  | other code unnamed =>
    have hge : 2 ≤ code.toNat := UInt8.le_iff_toNat_le.mp unnamed
    have hne (b : UInt8) (hb : b.toNat < 2) : code ≠ b := by
      rintro rfl
      omega
    simp [toByte, ofByte, hne 0 (by decide), hne 1 (by decide), unnamed]

theorem toByte_ofByte (b : UInt8) : (ofByte b).toByte = b := by
  unfold ofByte
  split_ifs with hadd hremove hother
  · exact hadd.symm
  · exact hremove.symm
  · rfl
  · rw [UInt8.le_iff_toNat_le] at hother
    rw [← UInt8.toNat_inj] at hadd hremove
    simp at hother hadd hremove
    omega

end ConfChangeType

/-- A membership change carried by a `confChange` entry. -/
structure ConfChange where
  type : ConfChangeType := .addNode
  nodeId : Nat := 0
  peerAddr : Bytes := []
  deriving DecidableEq

inductive NodeState where
  | follower
  | candidate
  | leader
  deriving DecidableEq, Repr

structure RaftEntry where
  term : Nat := 0
  index : Nat := 0
  type : EventType := .put
  key : Bytes := []
  value : Bytes := []
  leaseId : Int := 0
  confChange : ConfChange := {}
  deriving DecidableEq

structure Snapshot where
  lastIndex : Nat := 0
  lastTerm : Nat := 0
  data : Bytes := []
  deriving DecidableEq

structure RaftHardState where
  currentTerm : Nat := 0
  votedFor : Option Nat := none
  commitIndex : Nat := 0
  deriving DecidableEq

/-- A key with what a read finds under it. Revisions are signed, and zero stands for none. -/
structure KeyValue where
  key : Bytes
  value : Bytes
  createRevision : Int := 0
  modRevision : Int := 0
  version : Nat := 0
  leaseId : Int := 0
  deriving DecidableEq

/-- The part of the configuration that the consensus module and the data files depend on. -/
structure ClusterConfig where
  nodeId : Nat := 1
  peerAddresses : Library.OrderedMap Nat Bytes := ∅

end MyEtcd
