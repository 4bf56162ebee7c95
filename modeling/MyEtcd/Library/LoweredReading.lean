import Mathlib.Data.List.Forall2
import MyEtcd.Library.Reading

/-! Readers on a buffer in which bytes have been replaced by smaller ones, such as the zeros that a
buffer holds before anything is read into it. -/
namespace MyEtcd.Library
variable {α γ : Type}

abbrev Lowered (a b : List UInt8) : Prop := List.Forall₂ (· ≤ ·) a b

/-- From the smaller bytes the first reader gets something related to what the second one gets. -/
def Lowers (R : α → α → Prop) (r r' : StateM (List UInt8) α) : Prop :=
  ∀ a b, Lowered a b → R (r.run a).1 (r'.run b).1 ∧ Lowered (r.run a).2 (r'.run b).2

/-- A buffer of which only the front has been filled. -/
theorem lowered_filled (data : List UInt8) (n : Nat) :
    Lowered (data.take n ++ List.replicate (data.length - n) 0) data := by
  induction data generalizing n with
  | nil => simp
  | cons b rest ih =>
    cases n with
    | zero =>
      have hzero := ih 0
      rw [List.take_zero, List.nil_append, Nat.sub_zero] at hzero ⊢
      exact .cons (UInt8.le_iff_toNat_le.mpr (Nat.zero_le _)) hzero
    | succ n =>
      rw [List.take_succ_cons, List.length_cons, Nat.add_sub_add_right, List.cons_append]
      exact .cons (UInt8.le_refl b) (ih n)

namespace Lowers
variable {R : α → α → Prop} {S : γ → γ → Prop} {r r' : StateM (List UInt8) α}
  {f f' : α → StateM (List UInt8) γ}

theorem pure {a b : α} (h : R a b) : Lowers R (Pure.pure a) (Pure.pure b) := fun _ _ hab => ⟨h, hab⟩

/-- Readers one after the other, the later ones depending on what the earlier ones got. -/
theorem bind (h : Lowers R r r') (h' : ∀ a b, R a b → Lowers S (f a) (f' b)) :
    Lowers S (r >>= f) (r' >>= f') := by
  intro a b hab
  obtain ⟨hresult, hrest⟩ := h a b hab
  exact h' _ _ hresult _ _ hrest

end Lowers

/-- A number is no larger when none of its bytes is. -/
theorem lowers_bigEndian (w : Nat) {v v' : Nat} (h : v ≤ v') :
    Lowers (· ≤ ·) (readBigEndian w v) (readBigEndian w v') := by
  induction w generalizing v v' with
  | zero => exact .pure h
  | succ w ih =>
    intro a b hab
    cases hab with
    | nil => exact ⟨h, .nil⟩
    | @cons x y rest rest' hxy hrest =>
      have hbyte : x.toNat ≤ y.toNat := UInt8.le_iff_toNat_le.mp hxy
      exact ih (by omega) rest rest' hrest

end MyEtcd.Library
