import MyEtcd.Common.Types
import MyEtcd.Library.Lexicographic

/-! Leases, the keys attached to them, and their expiry.
Keys of a lease that is given up are handed to the expiry callback when the table has already been
changed, so an operation returns them next to the new table. -/
namespace MyEtcd
open Library

/-- Times are nanoseconds of the steady clock. -/
structure Lease where
  id : Int
  ttlMs : Int
  remainingMs : Int
  expiry : Int
  attachedKeys : OrderedMap Bytes Unit := ∅

structure LeaseManager where
  leases : OrderedMap Int Lease := ∅
  nextId : Int := 1

namespace LeaseManager

def expiryAt (now ttlMs : Int) : Int := now + ttlMs * 1000000

def grant (m : LeaseManager) (now ttlMs : Int) : Int × LeaseManager :=
  let lease : Lease :=
    { id := m.nextId, ttlMs, remainingMs := ttlMs, expiry := expiryAt now ttlMs }
  (m.nextId, { leases := m.leases.insert m.nextId lease, nextId := m.nextId + 1 })

/-- The leases that an operation drops are those it hands to the callback, key by key. -/
def callbackKeys (dropped : List (Int × Lease)) : List Bytes :=
  dropped.flatMap fun e => e.2.attachedKeys.keys

def revoked (m : LeaseManager) (id : Int) : List (Int × Lease) :=
  ((m.leases.get? id).map fun lease => (id, lease)).toList

def revoke (m : LeaseManager) (id : Int) : Bool × List Bytes × LeaseManager :=
  match m.leases.get? id with
  | none => (false, [], m)
  | some _ => (true, callbackKeys (m.revoked id), { m with leases := m.leases.erase id })

/-- What the operations on one lease have in common: they fail where there is none. -/
def update (m : LeaseManager) (id : Int) (f : Lease → Lease) : Bool × LeaseManager :=
  match m.leases.get? id with
  | none => (false, m)
  | some lease => (true, { m with leases := m.leases.insert id (f lease) })

def renew (m : LeaseManager) (now id : Int) : Bool × LeaseManager :=
  m.update id fun lease =>
    { lease with expiry := expiryAt now lease.ttlMs, remainingMs := lease.ttlMs }

def attach (m : LeaseManager) (id : Int) (key : Bytes) : Bool × LeaseManager :=
  m.update id fun lease => { lease with attachedKeys := lease.attachedKeys.insert key () }

def detach (m : LeaseManager) (id : Int) (key : Bytes) : Bool × LeaseManager :=
  m.update id fun lease => { lease with attachedKeys := lease.attachedKeys.erase key }

def getAttachedKeys (m : LeaseManager) (id : Int) : OrderedMap Bytes Unit :=
  match m.leases.get? id with
  | none => ∅
  | some lease => lease.attachedKeys

def expired (m : LeaseManager) (now : Int) : List (Int × Lease) :=
  m.leases.entries.filter fun e => now ≥ e.2.expiry

def checkExpiry (m : LeaseManager) (now : Int) : List Bytes × LeaseManager :=
  (callbackKeys (m.expired now),
    { m with leases := m.leases.filterMap fun _ lease =>
      if now ≥ lease.expiry then none else some lease })

/-- A lease that has neither been revoked nor expired. -/
def Live (m : LeaseManager) (id : Int) : Prop := (m.leases.get? id).isSome

def Attached (m : LeaseManager) (id : Int) (key : Bytes) : Prop := key ∈ (m.getAttachedKeys id).keys

instance instDecidableLive (m : LeaseManager) (id : Int) : Decidable (m.Live id) :=
  inferInstanceAs (Decidable (_ = true))

instance instDecidableAttached (m : LeaseManager) (id : Int) (key : Bytes) :
    Decidable (m.Attached id key) := inferInstanceAs (Decidable (_ ∈ _))

/-- Ids of leases have been given out, and are positive. -/
structure Issued (m : LeaseManager) : Prop where
  next : 0 < m.nextId
  live : ∀ id, m.Live id → 0 < id ∧ id < m.nextId

variable {m m' : LeaseManager} {id id' : Int} {key : Bytes}

theorem attached_iff : m.Attached id key ↔
    ∃ lease, m.leases.get? id = some lease ∧ key ∈ lease.attachedKeys.keys := by
  unfold Attached getAttachedKeys
  cases m.leases.get? id with
  | none => simp [OrderedMap.mem_keys_iff]
  | some lease => simp

theorem Attached.live (h : m.Attached id key) : m.Live id := by
  obtain ⟨lease, hlease, _⟩ := attached_iff.mp h
  rw [Live, hlease]
  rfl

theorem live_grant {now ttlMs : Int} :
    (m.grant now ttlMs).2.Live id ↔ id = m.nextId ∨ m.Live id := by
  rw [Live, grant, OrderedMap.get?_insert]
  split_ifs with hid
  · simp [hid]
  · simp [hid, Live]

theorem attached_grant (h : Issued m) {now ttlMs : Int} :
    (m.grant now ttlMs).2.Attached id key ↔ m.Attached id key := by
  rw [attached_iff, attached_iff, grant, OrderedMap.get?_insert]
  split_ifs with hid
  · subst hid
    have hfresh : m.leases.get? m.nextId = none := by
      rw [← Option.not_isSome_iff_eq_none]
      exact fun hlive => lt_irrefl _ (h.live _ hlive).2
    simp [hfresh, OrderedMap.mem_keys_iff]
  · rfl

theorem get_update (m : LeaseManager) (id id' : Int) (f : Lease → Lease) :
    (m.update id' f).2.leases.get? id =
      if id = id' then (m.leases.get? id).map f else m.leases.get? id := by
  unfold update
  split
  · next hnone =>
    split_ifs with hid
    · rw [hid, hnone, Option.map_none]
    · rfl
  · next lease hlease =>
    rw [OrderedMap.get?_insert]
    split_ifs with hid
    · rw [hid, hlease, Option.map_some]
    · rfl

theorem live_update {f : Lease → Lease} : (m.update id' f).2.Live id ↔ m.Live id := by
  rw [Live, Live, get_update]
  split_ifs
  · rw [Option.isSome_map]
  · rfl

theorem nextId_update (m : LeaseManager) (id : Int) (f : Lease → Lease) :
    (m.update id f).2.nextId = m.nextId := by
  unfold update
  split <;> rfl

theorem attached_update {f : Lease → Lease} : (m.update id' f).2.Attached id key ↔
    if id = id' then ∃ lease, m.leases.get? id = some lease ∧ key ∈ (f lease).attachedKeys.keys
    else m.Attached id key := by
  rw [attached_iff, get_update]
  split_ifs
  · simp
  · rw [attached_iff]

theorem attached_attach {key' : Bytes} : (m.attach id' key').2.Attached id key ↔
    m.Attached id key ∨ m.Live id ∧ id = id' ∧ key = key' := by
  rw [attach, attached_update, attached_iff, Live]
  split_ifs with hid
  · cases m.leases.get? id with
    | none => simp
    | some lease => simp [hid, OrderedMap.mem_keys_insert, or_comm]
  · simp [hid]

theorem attached_detach {key' : Bytes} : (m.detach id' key').2.Attached id key ↔
    m.Attached id key ∧ ¬ (id = id' ∧ key = key') := by
  rw [detach, attached_update, attached_iff]
  split_ifs with hid
  · cases m.leases.get? id with
    | none => simp
    | some lease => simp [hid, OrderedMap.mem_keys_erase, and_comm]
  · simp [hid]

theorem attached_renew {now : Int} : (m.renew now id').2.Attached id key ↔ m.Attached id key := by
  rw [renew, attached_update, attached_iff]
  split_ifs
  · rfl
  · rfl

/-- Leases only leave, and those that stay keep their keys. -/
structure Drops (m m' : LeaseManager) : Prop where
  nextId : m'.nextId = m.nextId
  get : ∀ id lease, m'.leases.get? id = some lease → m.leases.get? id = some lease

theorem drops_revoke (m : LeaseManager) (id : Int) : Drops m (m.revoke id).2.2 := by
  unfold revoke
  split
  · exact ⟨rfl, fun _ _ h => h⟩
  · refine ⟨rfl, fun id' lease h => ?_⟩
    rw [OrderedMap.get?_erase] at h
    exact (Option.ite_none_left_eq_some.mp h).2

theorem drops_checkExpiry (m : LeaseManager) (now : Int) : Drops m (m.checkExpiry now).2 := by
  refine ⟨rfl, fun id lease h => ?_⟩
  rw [checkExpiry, OrderedMap.get?_filterMap] at h
  obtain ⟨lease', hlease, h⟩ := Option.bind_eq_some_iff.mp h
  rwa [← (Option.some.inj (Option.ite_none_left_eq_some.mp h).2)]

namespace Drops

theorem live (h : Drops m m') (hlive : m'.Live id) : m.Live id := by
  obtain ⟨lease, hlease⟩ := Option.isSome_iff_exists.mp hlive
  rw [Live, h.get id lease hlease]
  rfl

theorem attached (h : Drops m m') (hlive : m'.Live id) :
    m'.Attached id key ↔ m.Attached id key := by
  obtain ⟨lease, hlease⟩ := Option.isSome_iff_exists.mp hlive
  rw [attached_iff, attached_iff, hlease, h.get id lease hlease]

end Drops

namespace Issued

theorem start : Issued {} := ⟨Int.one_pos, fun id h => by cases h⟩

theorem congr (h : Issued m) (hnext : m'.nextId = m.nextId) (hlive : ∀ id, m'.Live id → m.Live id) :
    Issued m' :=
  ⟨hnext ▸ h.next, fun id hid => hnext ▸ h.live id (hlive id hid)⟩

theorem grant (h : Issued m) (now ttlMs : Int) : Issued (m.grant now ttlMs).2 := by
  refine ⟨h.next.trans (Int.lt_succ _), fun id hid => ?_⟩
  rcases live_grant.mp hid with rfl | hid
  · exact ⟨h.next, Int.lt_succ _⟩
  · exact ⟨(h.live id hid).1, (h.live id hid).2.trans (Int.lt_succ _)⟩

theorem update (h : Issued m) (id : Int) (f : Lease → Lease) : Issued (m.update id f).2 :=
  h.congr (m.nextId_update id f) fun _ => live_update.mp

theorem drops (h : Issued m) (hdrops : Drops m m') : Issued m' :=
  h.congr hdrops.nextId fun _ => hdrops.live

end Issued

end LeaseManager
end MyEtcd
