import Mathlib.Data.List.Infix

/-! The first place where a pattern occurs in a list, with what stands before and behind it. -/
namespace MyEtcd.Library
variable {α : Type}

/-- No occurrence of the pattern begins in the first part of a list. -/
def Skips (pat front rest : List α) : Prop :=
  ∀ u v, front = u ++ v → v ≠ [] → ¬ pat <+: v ++ rest

variable {pat front rest s u v : List α} {a : α}

theorem skips_nil (pat rest : List α) : Skips pat [] rest := by
  intro u v hsplit hv
  exact absurd (List.append_eq_nil_iff.mp hsplit.symm).2 hv

theorem skips_cons : Skips pat (a :: front) rest ↔
    ¬ pat <+: a :: front ++ rest ∧ Skips pat front rest := by
  constructor
  · refine fun h => ⟨h [] (a :: front) rfl (List.cons_ne_nil _ _), fun u v hsplit => ?_⟩
    exact h (a :: u) v (congrArg (a :: ·) hsplit)
  · rintro ⟨hhead, hrest⟩ u v hsplit hv
    cases u with
    | nil =>
      obtain rfl : a :: front = v := hsplit
      exact hhead
    | cons b u => exact hrest u v (List.cons.inj hsplit).2 hv

theorem skips_append {front' : List α} : Skips pat (front ++ front') rest ↔
    Skips pat front (front' ++ rest) ∧ Skips pat front' rest := by
  induction front with
  | nil => exact ⟨fun h => ⟨skips_nil _ _, h⟩, And.right⟩
  | cons a front ih =>
    rw [List.cons_append, skips_cons, skips_cons, ih, ← List.cons_append, List.append_assoc]
    exact and_assoc.symm

theorem skips_of_not_mem {tail : List α} (h : a ∉ front) : Skips (a :: tail) front rest := by
  intro u v hsplit hv hpat
  obtain ⟨b, v, rfl⟩ := List.exists_cons_of_ne_nil hv
  obtain ⟨more, hmore⟩ := hpat
  obtain rfl : a = b := (List.cons.inj hmore).1
  exact h (hsplit ▸ List.mem_append_right _ List.mem_cons_self)

variable [DecidableEq α]

/-- The two sides of the first occurrence of a pattern. -/
def cut (pat : List α) : List α → Option (List α × List α)
  | [] => if pat = [] then some ([], []) else none
  | a :: rest =>
    if pat.isPrefixOf (a :: rest) then some ([], (a :: rest).drop pat.length)
    else (cut pat rest).map fun sides => (a :: sides.1, sides.2)

theorem cut_self (hpat : pat ≠ []) (rest : List α) : cut pat (pat ++ rest) = some ([], rest) := by
  obtain ⟨a, tail, rfl⟩ := List.exists_cons_of_ne_nil hpat
  have hfound : (a :: tail).isPrefixOf (a :: tail ++ rest) = true :=
    List.isPrefixOf_iff_prefix.mpr (List.prefix_append _ _)
  rw [List.cons_append, cut, ← List.cons_append, if_pos hfound, List.drop_left]

theorem cut_skips (h : Skips pat front rest) :
    cut pat (front ++ rest) = (cut pat rest).map fun sides => (front ++ sides.1, sides.2) := by
  induction front with
  | nil => simp
  | cons a front ih =>
    obtain ⟨hhead, hfront⟩ := skips_cons.mp h
    have hmissed : ¬ pat.isPrefixOf (a :: (front ++ rest)) = true := fun hfound =>
      hhead ( List.isPrefixOf_iff_prefix.mp hfound)
    rw [List.cons_append, cut, if_neg hmissed, ih hfront, Option.map_map]
    rfl

theorem cut_none (hpat : pat ≠ []) (h : Skips pat s []) : cut pat s = none := by
  have hcut := cut_skips h
  rwa [List.append_nil, cut, if_neg hpat, Option.map_none] at hcut

theorem cut_some (h : cut pat s = some (u, v)) : s = u ++ pat ++ v := by
  induction s generalizing u with
  | nil =>
    obtain ⟨rfl, h⟩ := Option.ite_none_right_eq_some.mp h
    obtain ⟨rfl, rfl⟩ := Prod.mk.inj (Option.some.inj h)
    rfl
  | cons a s ih =>
    rw [cut] at h
    split_ifs at h with hfound
    · obtain ⟨rfl, rfl⟩ := Prod.mk.inj (Option.some.inj h)
      obtain ⟨rest, hrest⟩ := List.isPrefixOf_iff_prefix.mp hfound
      rw [← hrest, List.drop_left]
      rfl
    · obtain ⟨⟨u, v⟩, hcut, heq⟩ := Option.map_eq_some_iff.mp h
      obtain ⟨rfl, rfl⟩ := Prod.mk.inj heq
      rw [ih hcut]
      rfl

/-- What has been found stays the first occurrence when the list goes on. -/
theorem cut_append (h : cut pat s = some (u, v)) (more : List α) :
    cut pat (s ++ more) = some (u, v ++ more) := by
  induction s generalizing u with
  | nil =>
    obtain ⟨rfl, h⟩ := Option.ite_none_right_eq_some.mp h
    obtain ⟨rfl, rfl⟩ := Prod.mk.inj (Option.some.inj h)
    cases more <;> rfl
  | cons a s ih =>
    rw [cut] at h
    rw [List.cons_append, cut]
    split_ifs at h with hfound
    · obtain ⟨rfl, rfl⟩ := Prod.mk.inj (Option.some.inj h)
      have hpat : pat <+: a :: s := List.isPrefixOf_iff_prefix.mp hfound
      have hmore : pat.isPrefixOf (a :: (s ++ more)) = true :=
        List.isPrefixOf_iff_prefix.mpr (hpat.trans (List.prefix_append (a :: s) more))
      rw [if_pos hmore, ← List.cons_append, List.drop_append_of_le_length hpat.length_le]
    · obtain ⟨⟨u, v⟩, hcut, heq⟩ := Option.map_eq_some_iff.mp h
      obtain ⟨rfl, rfl⟩ := Prod.mk.inj heq
      have hmissed : ¬ pat.isPrefixOf (a :: (s ++ more)) = true := by
        intro hmore
        have hpat : pat <+: a :: s ++ more := List.isPrefixOf_iff_prefix.mp hmore
        have hlength := congrArg List.length (cut_some hcut)
        refine hfound ( List.isPrefixOf_iff_prefix.mpr ?_)
        refine List.prefix_of_prefix_length_le hpat (List.prefix_append _ _) ?_
        simp only [List.length_append, List.length_cons] at hlength ⊢
        omega
      rw [if_neg hmissed, ih hcut]
      rfl

/-- A single element is found at its first occurrence. -/
theorem cut_singleton (h : a ∉ front) (rest : List α) :
    cut [a] (front ++ a :: rest) = some (front, rest) := by
  have hself : cut [a] (a :: rest) = some ([], rest) := cut_self (List.cons_ne_nil _ _) rest
  rw [cut_skips (skips_of_not_mem h), hself, Option.map_some, List.append_nil]

theorem cut_singleton_cases (a : α) (s : List α) :
    cut [a] s = none ∧ a ∉ s ∨ ∃ u v, cut [a] s = some (u, v) ∧ s = u ++ a :: v ∧ a ∉ u := by
  by_cases h : a ∈ s
  · obtain ⟨u, v, rfl, hnot⟩ := List.eq_append_cons_of_mem h
    exact .inr ⟨u, v, cut_singleton hnot v, rfl, hnot⟩
  · exact .inl ⟨cut_none (List.cons_ne_nil _ _) (skips_of_not_mem h), h⟩

end MyEtcd.Library
