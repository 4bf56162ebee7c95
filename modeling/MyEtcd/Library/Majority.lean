import Mathlib.Data.Finset.Card

/-! Strict majorities of a finite set of members, and of two sets that are one member apart. -/
namespace MyEtcd.Library
variable {N : Type} [DecidableEq N]

/-- A set of members that makes up more than half of them. -/
structure Majority (members quorum : Finset N) : Prop where
  subset : quorum ⊆ members
  large : members.card < 2 * quorum.card

/-- A majority and one of a larger set share a member, if the larger set has at most one more. -/
theorem Majority.meet_larger {members larger q r : Finset N} (hq : Majority members q)
    (hr : Majority larger r) (hsubset : members ⊆ larger)
    (hcard : larger.card ≤ members.card + 1) : ∃ p, p ∈ q ∧ p ∈ r := by
  by_contra hnone
  have hdisjoint : Disjoint q r :=
    Finset.disjoint_left.mpr fun p hp hp' => hnone ⟨p, hp, hp'⟩
  have hunion := Finset.card_le_card
    (Finset.union_subset (hq.subset.trans hsubset) hr.subset)
  rw [Finset.card_union_of_disjoint hdisjoint] at hunion
  have := hq.large
  have := hr.large
  omega

/-- Two majorities of the same members share one. -/
theorem Majority.meet {members q r : Finset N} (hq : Majority members q)
    (hr : Majority members r) : ∃ p, p ∈ q ∧ p ∈ r :=
  hq.meet_larger hr subset_rfl (Nat.le_succ _)

def Adjacent (a b : Finset N) : Prop := ∃ k, insert k a = insert k b

namespace Adjacent
variable {a b : Finset N}

theorem symm (h : Adjacent a b) : Adjacent b a := by
  obtain ⟨k, hk⟩ := h
  exact ⟨k, hk.symm⟩

/-- One of the two sets contains the other and at most one element more. -/
theorem subset_or_subset (h : Adjacent a b) :
    a ⊆ b ∧ b.card ≤ a.card + 1 ∨ b ⊆ a ∧ a.card ≤ b.card + 1 := by
  obtain ⟨k, hk⟩ := h
  by_cases ha : k ∈ a
  · right
    rw [Finset.insert_eq_of_mem ha] at hk
    rw [hk]
    exact ⟨Finset.subset_insert k b, Finset.card_insert_le k b⟩
  · left
    constructor
    · intro x hx
      have hx' : x ∈ insert k b := hk ▸ Finset.mem_insert_of_mem hx
      exact Finset.mem_of_mem_insert_of_ne hx' fun h => ha (h ▸ hx)
    · calc
        b.card ≤ (insert k b).card := Finset.card_le_card (Finset.subset_insert k b)
        _ ≤ a.card + 1 := hk ▸ Finset.card_insert_le k a

/-- An element of one of the sets makes one of the two of them. -/
theorem insert_eq (h : Adjacent a b) {x : N} (hx : x ∈ a ∨ x ∈ b) :
    insert x a = a ∨ insert x a = b := by
  obtain ⟨k, hk⟩ := h
  by_cases ha : x ∈ a
  · exact .inl (Finset.insert_eq_of_mem ha)
  · have hb := hx.resolve_left ha
    have hx' : x ∈ insert k a := hk ▸ Finset.mem_insert_of_mem hb
    obtain rfl : x = k := (Finset.mem_insert.mp hx').resolve_right ha
    rw [hk]
    exact .inr (Finset.insert_eq_of_mem hb)

end Adjacent

/-- Majorities of sets that are at most one member apart share a member. -/
theorem Majority.meet_adjacent {a b q r : Finset N} (hq : Majority a q) (hr : Majority b r)
    (h : Adjacent a b) : ∃ p, p ∈ q ∧ p ∈ r := by
  rcases h.subset_or_subset with ⟨hsubset, hcard⟩ | ⟨hsubset, hcard⟩
  · exact hq.meet_larger hr hsubset hcard
  · obtain ⟨p, hp, hp'⟩ := hr.meet_larger hq hsubset hcard
    exact ⟨p, hp', hp⟩

end MyEtcd.Library
