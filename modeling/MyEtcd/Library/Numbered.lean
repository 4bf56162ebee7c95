import Mathlib.Data.List.Basic

/-! Lists whose items carry consecutive numbers. What is kept of such a list by the numbers is kept
by the positions. -/
namespace MyEtcd.Library
variable {α : Type}

/-- The items are numbered consecutively from `first`. -/
def Numbered (number : α → Nat) (first : Nat) (l : List α) : Prop :=
  ∀ k a, l[k]? = some a → number a = first + k

namespace Numbered
variable {number : α → Nat} {first i : Nat} {l : List α} {a : α}

theorem cons_iff : Numbered number first (a :: l) ↔
    number a = first ∧ Numbered number (first + 1) l := by
  constructor
  · intro h
    refine ⟨h 0 a rfl, fun k b hb => ?_⟩
    have := h (k + 1) b hb
    omega
  · rintro ⟨ha, hl⟩ k b hb
    cases k with
    | zero =>
      obtain rfl : a = b := Option.some.inj hb
      exact ha
    | succ k =>
      have := hl k b hb
      omega

/-- An item is found under its number. -/
theorem getElem?_iff (h : Numbered number first l) :
    first ≤ i ∧ l[i - first]? = some a ↔ a ∈ l ∧ number a = i := by
  constructor
  · rintro ⟨hi, ha⟩
    have := h _ a ha
    exact ⟨List.mem_of_getElem? ha, by omega⟩
  · rintro ⟨ha, rfl⟩
    obtain ⟨k, hk⟩ := List.mem_iff_getElem?.mp ha
    have hnumber := h k a hk
    refine ⟨by omega, ?_⟩
    rwa [hnumber, Nat.add_sub_cancel_left]

/-- The items with smaller numbers are in front. -/
theorem filter_lt (h : Numbered number first l) (i : Nat) :
    l.filter (fun a => number a < i) = l.take (i - first) := by
  induction l generalizing first with
  | nil => simp
  | cons a l ih =>
    obtain ⟨ha, hl⟩ := cons_iff.mp h
    rcases Nat.lt_or_ge first i with hlt | hge
    · obtain ⟨n, hn⟩ : ∃ n, i - first = n + 1 := ⟨i - first - 1, by omega⟩
      have hrest : i - (first + 1) = n := by omega
      rw [List.filter_cons_of_pos (by simpa [ha] using hlt), ih hl, hrest, hn, List.take_succ_cons]
    · have hnone : i - first = 0 := by omega
      have hrest : i - (first + 1) = 0 := by omega
      rw [List.filter_cons_of_neg (by simpa [ha] using hge), ih hl, hrest, hnone, List.take_zero,
        List.take_zero]

theorem filter_ge (h : Numbered number first l) (i : Nat) :
    l.filter (fun a => i ≤ number a) = l.drop (i - first) := by
  induction l generalizing first with
  | nil => simp
  | cons a l ih =>
    obtain ⟨ha, hl⟩ := cons_iff.mp h
    rcases Nat.lt_or_ge first i with hlt | hge
    · obtain ⟨n, hn⟩ : ∃ n, i - first = n + 1 := ⟨i - first - 1, by omega⟩
      have hrest : i - (first + 1) = n := by omega
      rw [List.filter_cons_of_neg (by simpa [ha] using hlt), ih hl, hrest, hn, List.drop_succ_cons]
    · have hnone : i - first = 0 := by omega
      have hrest : i - (first + 1) = 0 := by omega
      rw [List.filter_cons_of_pos (by simpa [ha] using hge), ih hl, hrest, hnone, List.drop_zero,
        List.drop_zero]

/-- The items of a range. -/
theorem filter_range (h : Numbered number first l) (i j : Nat) :
    l.filter (fun a => i ≤ number a ∧ number a < j) = (l.take (j - first)).drop (i - first) := by
  have htake : Numbered number first (l.take (j - first)) := by
    intro k a hk
    refine h k a ?_
    rw [List.getElem?_take] at hk
    exact (Option.ite_none_right_eq_some.mp hk).2
  rw [← htake.filter_ge, ← h.filter_lt, List.filter_filter]
  simp

end Numbered
end MyEtcd.Library
