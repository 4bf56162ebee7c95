import Mathlib.Data.List.Sort
import Mathlib.Order.Basic

/-! The k-th greatest element of a list, compared with a bound by counting. -/
namespace MyEtcd.Library
variable {α : Type} [LinearOrder α]

private theorem le_getElem_iff_of_pairwise {l : List α} (hl : l.Pairwise (· ≥ ·)) (bound : α)
    {k : Nat} (hk : k < l.length) :
    bound ≤ l[k] ↔ k < l.countP (bound ≤ ·) := by
  induction l generalizing k with
  | nil => exact absurd hk (Nat.not_lt_zero k)
  | cons a rest ih =>
    obtain ⟨hhead, htail⟩ := List.pairwise_cons.mp hl
    by_cases ha : bound ≤ a
    · rw [List.countP_cons_of_pos (by simpa using ha)]
      cases k with
      | zero => simpa using ha
      | succ k => simpa using ih htail (Nat.lt_of_succ_lt_succ hk)
    · have hnone : (a :: rest).countP (bound ≤ ·) = 0 := by
        refine List.countP_eq_zero.mpr fun x hx => ?_
        rcases List.mem_cons.mp hx with rfl | hx
        · simpa using ha
        · simpa using (hhead x hx).trans_lt (not_le.mp ha)
      rw [hnone]
      refine iff_of_false (fun hle => ha ?_) (Nat.not_lt_zero k)
      rcases List.mem_cons.mp (List.getElem_mem hk) with heq | hmem
      · exact heq ▸ hle
      · exact hle.trans (hhead _ hmem)

/-- An entry of the descending sort reaches a bound exactly when enough elements do. -/
theorem le_sorted_iff (l : List α) (bound : α) {k : Nat}
    (hk : k < (l.insertionSort (· ≥ ·)).length) :
    bound ≤ (l.insertionSort (· ≥ ·))[k] ↔ k < l.countP (bound ≤ ·) := by
  rw [le_getElem_iff_of_pairwise (l.pairwise_insertionSort (· ≥ ·)),
    (l.perm_insertionSort (· ≥ ·)).countP_eq]

end MyEtcd.Library
