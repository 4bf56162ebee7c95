import MyEtcd.Common.Types
import MyEtcd.Library.ByteBuffer
import MyEtcd.Library.Lexicographic

/-! The backend of the store: a map of values in memory, and its file.
The file is written when the store is closed and read over the map when it is opened. -/
namespace MyEtcd
open Library

structure Backend where
  store : OrderedMap Bytes Bytes := ∅

namespace Backend

def put (b : Backend) (key value : Bytes) : Backend := { store := b.store.insert key value }

def get (b : Backend) (key : Bytes) : Option Bytes := b.store.get? key

def delete (b : Backend) (key : Bytes) : Backend := { store := b.store.erase key }

def keys (b : Backend) : List Bytes := b.store.keys

def batchPut (b : Backend) (kvs : OrderedMap Bytes Bytes) : Backend :=
  kvs.entries.foldl (fun b e => b.put e.1 e.2) b

def kMagic : Nat := 0x4D455444

def kVersion : Nat := 1

def kMaxKeyLen : Nat := 1024 * 1024

def kMaxValueLen : Nat := 64 * 1024 * 1024

def writeU32 (v : Nat) : Bytes := toLittleEndian 4 v

def readU32 (file : Bytes) (offset : Nat) : Nat := ofLittleEndian ((file.drop offset).take 4)

/-- The bytes that `FlushToDisk` leaves in the file. -/
def flushToDisk (b : Backend) : Bytes :=
  writeU32 kMagic ++ (writeU32 kVersion ++ b.store.entries.flatMap fun e =>
    writeU32 e.1.length ++ (e.1 ++ (writeU32 e.2.length ++ e.2)))

/-- The loop over the pairs, which ends at the first one that is cut off or has a bad length. -/
def loadPairs (file : Bytes) (offset : Nat) (b : Backend) : Backend :=
  if offset + 4 ≤ file.length then
    let keyLen := readU32 file offset
    let keyAt := offset + 4
    if keyLen = 0 ∨ keyLen > kMaxKeyLen ∨ keyAt + keyLen > file.length then b
    else if keyAt + keyLen + 4 > file.length then b
    else
      let valueLen := readU32 file (keyAt + keyLen)
      let valueAt := keyAt + keyLen + 4
      if valueLen > kMaxValueLen ∨ valueAt + valueLen > file.length then b
      else
        loadPairs file (valueAt + valueLen)
          (b.put ((file.drop keyAt).take keyLen) ((file.drop valueAt).take valueLen))
  else b
termination_by file.length - offset

/-- A missing file, a short one and one with a foreign header are all taken for empty. -/
def loadFromDisk (b : Backend) : Option Bytes → Backend
  | none => b
  | some file =>
    if file.length < 8 then b
    else if readU32 file 0 ≠ kMagic then b
    else if readU32 file 4 > kVersion then b
    else loadPairs file 8 b

def putAll (b : Backend) (l : List (Bytes × Bytes)) : Backend := l.foldl (fun b e => b.put e.1 e.2) b

/-- Pairs that are put one after the other hide what was there under their keys only. -/
theorem get_putAll (l : List (Bytes × Bytes)) (b : Backend) (key : Bytes) :
    (b.putAll l).get key = ((putAll {} l).get key).or (b.get key) := by
  have hput (b : Backend) (e : Bytes × Bytes) : (b.put e.1 e.2).get key =
      if key = e.1 then some e.2 else b.get key := by
    rw [get, put, OrderedMap.get?_insert]
    split_ifs <;> rfl
  induction l using List.reverseRecOn with
  | nil => rfl
  | append_singleton rest e ih =>
    rw [putAll, putAll] at ih ⊢
    rw [List.foldl_append, List.foldl_append]
    simp only [List.foldl_cons, List.foldl_nil, hput, ih]
    split_ifs <;> rfl

theorem store_putAll (b : Backend) (l : List (Bytes × Bytes)) :
    (b.putAll l).store = l.foldl (fun kvs e => kvs.insert e.1 e.2) b.store := by
  induction l generalizing b with
  | nil => rfl
  | cons e rest ih => exact ih _

/-- The pairs of a map, put into an empty backend, make up the map. -/
theorem putAll_entries (contents : OrderedMap Bytes Bytes) :
    putAll {} contents.entries = { store := contents } := by
  refine congrArg Backend.mk ((store_putAll {} contents.entries).trans ?_)
  refine OrderedMap.ext_get? fun k => ?_
  rw [OrderedMap.get?_foldl_insert_entries]
  exact Option.or_none

end Backend
end MyEtcd
