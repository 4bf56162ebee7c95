import Mathlib.Data.List.Basic

/-! A source whose items come in pieces of any length, and the loop that asks it for a number of them.
An empty piece is a read that fails; nothing behind it is asked for. -/
namespace MyEtcd.Library
variable {α : Type}

/-- The items that come before a read fails. -/
def arrived : List (List α) → List α
  | [] => []
  | piece :: rest => if piece.isEmpty then [] else piece ++ arrived rest

/-- Read until there are `want` items in the buffer. What a piece has beyond that stays where it is. -/
def readUpTo (want : Nat) (buf : List α) : List (List α) → List α × List (List α)
  | [] => (buf, [])
  | piece :: rest =>
    if buf.length < want then
      if piece.isEmpty then (buf, rest)
      else if piece.length ≤ want - buf.length then readUpTo want (buf ++ piece) rest
      else (buf ++ piece.take (want - buf.length), piece.drop (want - buf.length) :: rest)
    else (buf, piece :: rest)

variable {want : Nat} {buf : List α} {pieces : List (List α)}

/-- The loop gets what there is, up to what it wants, however it comes. -/
theorem readUpTo_eq (h : buf.length ≤ want) :
    (readUpTo want buf pieces).1 = buf ++ (arrived pieces).take (want - buf.length) := by
  induction pieces generalizing buf with
  | nil => simp [readUpTo, arrived]
  | cons piece rest ih =>
    rw [readUpTo, arrived]
    split_ifs with hroom hempty hfits
    · simp
    · have hlength : (buf ++ piece).length = buf.length + piece.length := List.length_append
      rw [ih (by omega), hlength, List.append_assoc, List.take_append, List.take_of_length_le hfits,
        Nat.sub_add_eq]
    · rw [List.take_append_of_le_length (by omega)]
    · simp
    · have hfull : want - buf.length = 0 := by omega
      rw [hfull, List.take_zero, List.append_nil]

/-- What it has not asked for is still there. -/
theorem arrived_readUpTo (h : buf.length ≤ want)
    (henough : want ≤ buf.length + (arrived pieces).length) :
    arrived (readUpTo want buf pieces).2 = (arrived pieces).drop (want - buf.length) := by
  induction pieces generalizing buf with
  | nil => simp [readUpTo, arrived]
  | cons piece rest ih =>
    rw [readUpTo]
    split_ifs with hroom hempty hfits
    · simp only [arrived, hempty, if_true, List.length_nil] at henough
      omega
    · rw [arrived, if_neg hempty] at henough ⊢
      have hlength : (buf ++ piece).length = buf.length + piece.length := List.length_append
      rw [List.length_append] at henough
      rw [ih (by omega) (by omega), hlength, List.drop_append, List.drop_eq_nil_of_le hfits,
        List.nil_append, Nat.sub_add_eq]
    · have hmore : ¬ (piece.drop (want - buf.length)).isEmpty := by
        rw [List.isEmpty_iff, List.drop_eq_nil_iff]
        omega
      rw [arrived, if_neg hmore, arrived, if_neg hempty, List.drop_append_of_le_length (by omega)]
    · have hfull : want - buf.length = 0 := by omega
      rw [hfull, List.drop_zero]

end MyEtcd.Library
