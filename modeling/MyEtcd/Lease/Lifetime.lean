import MyEtcd.Lease.LeaseManager

/-! How long leases stay in the table, over runs of the manager's methods and expiry checks.
Each call comes with the time that it takes from the clock. -/
namespace MyEtcd
open Library

namespace LeaseManager

inductive Call where
  | grant (ttlMs : Int)
  | renew (id : Int)
  | attach (id : Int) (key : Bytes)
  | detach (id : Int) (key : Bytes)
  | revoke (id : Int)
  | checkExpiry
  deriving DecidableEq

def after (m : LeaseManager) (now : Int) : Call → LeaseManager
  | .grant ttlMs => (m.grant now ttlMs).2
  | .renew id => (m.renew now id).2
  | .attach id key => (m.attach id key).2
  | .detach id key => (m.detach id key).2
  | .revoke id => (m.revoke id).2.2
  | .checkExpiry => (m.checkExpiry now).2

/-- The keys that a call hands to the expiry callback, one after the other. -/
def notified (m : LeaseManager) (now : Int) : Call → List Bytes
  | .revoke id => (m.revoke id).2.1
  | .checkExpiry => (m.checkExpiry now).1
  | _ => []

def givenOut (m : LeaseManager) (now : Int) : Call → Option Int
  | .grant ttlMs => some (m.grant now ttlMs).1
  | _ => none

def run (m : LeaseManager) (calls : List (Int × Call)) : LeaseManager :=
  calls.foldl (fun m c => m.after c.1 c.2) m

/-- The key has been attached while the lease was there, and has not been detached since. -/
def AttachedSince (calls : List (Int × Call)) (id : Int) (key : Bytes) : Prop :=
  ∃ before now later, calls = before ++ (now, .attach id key) :: later ∧
    (run {} before).Live id ∧ ∀ c ∈ later, c.2 ≠ .detach id key

variable {m : LeaseManager} {id now granted ttlMs : Int} {lease : Lease} {call : Call}
  {calls : List (Int × Call)}

theorem Issued.after (h : Issued m) (now : Int) (call : Call) : Issued (m.after now call) := by
  cases call with
  | grant ttlMs => exact h.grant now ttlMs
  | renew id => exact h.update id _
  | attach id key => exact h.update id _
  | detach id key => exact h.update id _
  | revoke id => exact h.drops (m.drops_revoke id)
  | checkExpiry => exact h.drops (m.drops_checkExpiry now)

theorem nextId_after (m : LeaseManager) (now : Int) (call : Call) :
    (m.after now call).nextId = m.nextId + (m.givenOut now call).toList.length := by
  cases call with
  | grant ttlMs => rfl
  | renew id => exact (m.nextId_update id _).trans (Int.add_zero _).symm
  | attach id key => exact (m.nextId_update id _).trans (Int.add_zero _).symm
  | detach id key => exact (m.nextId_update id _).trans (Int.add_zero _).symm
  | revoke id => exact (m.drops_revoke id).nextId.trans (Int.add_zero _).symm
  | checkExpiry => exact (m.drops_checkExpiry now).nextId.trans (Int.add_zero _).symm

theorem run_append (m : LeaseManager) (calls : List (Int × Call)) (c : Int × Call) :
    m.run (calls ++ [c]) = (m.run calls).after c.1 c.2 := by
  rw [run, List.foldl_append]
  rfl

theorem issued_run (h : Issued m) (calls : List (Int × Call)) : Issued (m.run calls) := by
  induction calls using List.reverseRecOn with
  | nil => exact h
  | append_singleton rest c ih =>
    rw [run_append]
    exact ih.after c.1 c.2

theorem nextId_run (m : LeaseManager) (calls : List (Int × Call)) :
    m.nextId ≤ (m.run calls).nextId := by
  induction calls using List.reverseRecOn with
  | nil => exact le_rfl
  | append_singleton rest c ih =>
    rw [run_append, nextId_after]
    omega

theorem run_split (before : List (Int × Call)) (c : Int × Call) (later : List (Int × Call)) :
    run {} (before ++ c :: later) = ((run {} before).after c.1 c.2).run later := by
  rw [run, List.foldl_append]
  rfl

theorem AttachedSince.issued {key : Bytes} (h : AttachedSince calls id key) :
    id < (run {} calls).nextId := by
  obtain ⟨before, now, later, rfl, hlive, -⟩ := h
  have hissued := ((issued_run .start before).live id hlive).2
  have hnext := nextId_run ((run {} before).after now (.attach id key)) later
  rw [nextId_after] at hnext
  rw [run_split]
  exact hissued.trans_le ((Int.le_add_of_nonneg_right (Int.natCast_nonneg _)).trans hnext)

end LeaseManager
end MyEtcd
