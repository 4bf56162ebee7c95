import Mathlib.Data.List.Lex
import Mathlib.Order.Lattice

/-! Byte strings in dictionary order, and where the strings with a common prefix stand in it. -/
namespace MyEtcd.Library

instance byteOrder : LinearOrder UInt8 where
  le_refl := UInt8.le_refl
  le_trans _ _ _ := UInt8.le_trans
  lt_iff_le_not_ge a b := by
    simp only [UInt8.lt_iff_toNat_lt, UInt8.le_iff_toNat_le]
    omega
  le_antisymm _ _ := UInt8.le_antisymm
  le_total := UInt8.le_total
  toDecidableLE := inferInstance
  toDecidableEq := inferInstance
  toDecidableLT := inferInstance

variable {α : Type} [LinearOrder α] {p a b : List α}

private theorem not_cons_lt_nil (x : α) : ¬ x :: p < [] := fun h => by cases h

private theorem cons_lt_cons {x y : α} : x :: a < y :: b ↔ x < y ∨ x = y ∧ a < b := by
  constructor
  · intro h
    cases h with
    | cons h => exact .inr ⟨rfl, h⟩
    | rel h => exact .inl h
  · rintro (h | ⟨rfl, h⟩)
    · exact .rel h
    · exact .cons h

private theorem cons_le_cons {x y : α} : x :: a ≤ y :: b ↔ x < y ∨ x = y ∧ a ≤ b := by
  rw [← not_lt, cons_lt_cons, ← not_lt]
  constructor
  · intro h
    rcases lt_trichotomy x y with hlt | rfl | hgt
    · exact .inl hlt
    · exact .inr ⟨rfl, fun hba => h (.inr ⟨rfl, hba⟩)⟩
    · exact absurd (.inl hgt) h
  · rintro (hlt | ⟨rfl, hle⟩) (hgt | ⟨heq, hba⟩)
    · exact lt_asymm hlt hgt
    · exact hlt.ne heq.symm
    · exact lt_irrefl x hgt
    · exact hle hba

/-- A string comes behind its prefixes. -/
theorem le_of_isPrefix (h : p <+: a) : p ≤ a := by
  induction p generalizing a with
  | nil =>
    cases a with
    | nil => exact le_rfl
    | cons y a => exact le_of_lt .nil
  | cons x p ih =>
    obtain ⟨t, rfl⟩ := h
    exact cons_le_cons.mpr (.inr ⟨rfl, ih (List.prefix_append p t)⟩)

/-- The strings with a common prefix stand together. -/
theorem isPrefix_of_between (hpa : p ≤ a) (hab : a ≤ b) (h : p <+: b) : p <+: a := by
  induction p generalizing a b with
  | nil => exact List.nil_prefix
  | cons x p ih =>
    obtain ⟨t, rfl⟩ := h
    cases a with
    | nil => exact absurd (lt_of_le_of_ne hpa (List.cons_ne_nil x p)) (not_cons_lt_nil x)
    | cons y a =>
      rcases cons_le_cons.mp hpa with hxy | ⟨rfl, hpa'⟩
      · rcases cons_le_cons.mp hab with hyx | ⟨rfl, _⟩
        · exact absurd hxy (lt_asymm hyx)
        · exact absurd hxy (lt_irrefl _)
      · rcases cons_le_cons.mp hab with hxx | ⟨_, hab'⟩
        · exact absurd hxx (lt_irrefl _)
        · exact List.cons_prefix_cons.mpr ⟨rfl, ih hpa' hab' (List.prefix_append p t)⟩

end MyEtcd.Library
