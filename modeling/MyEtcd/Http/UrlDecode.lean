import MyEtcd.Http.HttpServer

/-! Which texts `UrlDecode` reads as they are meant. The two characters behind a percent sign go through
a stream, which also takes a blank or a sign in front of one digit, and a digit on its own. -/
namespace MyEtcd
open Library

/-- The value of a hexadecimal digit. -/
def hexDigit (b : UInt8) : Option UInt8 :=
  if 48 ≤ b ∧ b ≤ 57 then some (b - 48)
  else if 65 ≤ b ∧ b ≤ 70 then some (b - 55)
  else if 97 ≤ b ∧ b ≤ 102 then some (b - 87)
  else none

/-- Decoding as it is meant: an escape has two digits, and everything else is left alone. -/
def percentDecode : Bytes → Bytes
  | [] => []
  | 37 :: x :: y :: rest =>
    match hexDigit x, hexDigit y with
    | some high, some low => (16 * high + low) :: percentDecode rest
    | _, _ => 37 :: percentDecode (x :: y :: rest)
  | b :: rest => (if b = 43 then 32 else b) :: percentDecode rest

/-- The texts that stand for a byte string. -/
inductive Encodes : Bytes → Bytes → Prop
  | nil : Encodes [] []
  | plain {b : UInt8} {text s : Bytes} (h : b ≠ 37 ∧ b ≠ 43) (rest : Encodes text s) :
    Encodes (b :: text) (b :: s)
  | plus {text s : Bytes} (rest : Encodes text s) : Encodes (43 :: text) (32 :: s)
  | escaped {x y high low : UInt8} {text s : Bytes} (hx : hexDigit x = some high)
    (hy : hexDigit y = some low) (rest : Encodes text s) :
    Encodes (37 :: x :: y :: text) ((16 * high + low) :: s)

/-- No escape, but the stream gets a number out of it. -/
def Misread (x y : UInt8) : Prop :=
  (isSpace x = true ∨ x = 43 ∨ x = 45) ∧ (hexDigit y).isSome ∨
    (hexDigit x).isSome ∧ hexDigit y = none ∧ ¬ (x = 48 ∧ (y = 120 ∨ y = 88))

/-- What a digit is not, and how large it is. -/
theorem hexDigit_spec {b v : UInt8} (h : hexDigit b = some v) :
    isSpace b = false ∧ b ≠ 43 ∧ b ≠ 45 ∧ b ≠ 37 ∧ v < 16 := by
  have hall : ∀ n < 256, ∀ v ∈ hexDigit (UInt8.ofNat n), isSpace (UInt8.ofNat n) = false ∧
      UInt8.ofNat n ≠ 43 ∧ UInt8.ofNat n ≠ 45 ∧ UInt8.ofNat n ≠ 37 ∧ v < 16 := by
    decide +kernel
  have := hall b.toNat b.toNat_lt v
  rw [UInt8.ofNat_toNat] at this
  exact this h

def hexDigits (text : Bytes) : List UInt8 :=
  (text.map hexDigit).takeWhile Option.isSome |>.filterMap id

theorem hexNumber_eq (text : Bytes) : hexNumber text =
    if (sign (text.dropWhile isSpace)).2 = [48, 120] ∨ (sign (text.dropWhile isSpace)).2 = [48, 88] then
      none
    else if hexDigits (sign (text.dropWhile isSpace)).2 = [] then none
    else
      let v := (hexDigits (sign (text.dropWhile isSpace)).2).foldl (fun v d => 16 * v + d) 0
      some (if (sign (text.dropWhile isSpace)).1 then -v else v) := rfl

theorem hexDigits_cons_some {b v : UInt8} (h : hexDigit b = some v) (rest : Bytes) :
    hexDigits (b :: rest) = v :: hexDigits rest := by
  rw [hexDigits, List.map_cons, h]
  rfl

theorem hexDigits_cons_none {b : UInt8} (h : hexDigit b = none) (rest : Bytes) :
    hexDigits (b :: rest) = [] := by
  rw [hexDigits, List.map_cons, h]
  rfl

theorem sign_of_ne {b : UInt8} (h : b ≠ 43 ∧ b ≠ 45) (rest : Bytes) :
    sign (b :: rest) = (false, b :: rest) := by
  unfold sign
  split
  · next heq => exact absurd (List.cons.inj heq).1 h.2
  · next heq => exact absurd (List.cons.inj heq).1 h.1
  · rfl

theorem hexNumber_none {text : Bytes} (h : hexDigits (sign (text.dropWhile isSpace)).2 = []) :
    hexNumber text = none := by
  rw [hexNumber_eq, h, if_pos rfl, ite_self]

/-- A digit in front is read, with the one behind it. -/
theorem hexNumber_digit {x y high : UInt8} (hx : hexDigit x = some high) : hexNumber [x, y] =
    if x = 48 ∧ (y = 120 ∨ y = 88) then none
    else some (((hexDigit y).map fun low => 16 * high + low).getD high) := by
  obtain ⟨hspace, hplus, hminus, -⟩ := hexDigit_spec hx
  have hsigned : sign ([x, y].dropWhile isSpace) = (false, [x, y]) := by
    rw [List.dropWhile_cons_of_neg (by simp [hspace]), sign_of_ne ⟨hplus, hminus⟩]
  have hzero : [x, y] = [48, 120] ∨ [x, y] = [48, 88] ↔ x = 48 ∧ (y = 120 ∨ y = 88) := by
    simp [← and_or_left]
  rw [hexNumber_eq, hsigned]
  simp only [hzero, hexDigits_cons_some hx]
  rw [if_neg (List.cons_ne_nil _ _)]
  cases hy : hexDigit y with
  | none => simp [hexDigits_cons_none hy]
  | some low =>
    rw [hexDigits_cons_some hy]
    simp [hexDigits]

/-- Behind a blank or a sign, one digit is read. -/
theorem hexNumber_behind {x y : UInt8} (hx : isSpace x = true ∨ x = 43 ∨ x = 45) :
    ∃ minus : Bool, hexNumber [x, y] = (hexDigit y).map fun v => if minus then -v else v := by
  have hspace (hx : x = 43 ∨ x = 45) : isSpace x = false := by rcases hx with rfl | rfl <;> rfl
  cases hy : hexDigit y with
  | none =>
    refine ⟨false, hexNumber_none ?_⟩
    rcases hx with hx | hx
    · rw [List.dropWhile_cons_of_pos hx]
      by_cases hyspace : isSpace y = true
      · rw [List.dropWhile_cons_of_pos hyspace]
        rfl
      · rw [List.dropWhile_cons_of_neg hyspace]
        by_cases hsign : y ≠ 43 ∧ y ≠ 45
        · rw [sign_of_ne hsign]
          exact hexDigits_cons_none hy []
        · rw [not_and_or, not_not, not_not] at hsign
          rcases hsign with rfl | rfl <;> rfl
    · rw [List.dropWhile_cons_of_neg (by simp [hspace hx])]
      rcases hx with rfl | rfl <;> exact hexDigits_cons_none hy []
  | some v =>
    obtain ⟨hyspace, hplus, hminus, -⟩ := hexDigit_spec hy
    have hread {minus : Bool} (hsigned : sign ([x, y].dropWhile isSpace) = (minus, [y])) :
        hexNumber [x, y] = some (if minus then -v else v) := by
      have hdigits : hexDigits [y] = [v] := hexDigits_cons_some hy []
      rw [hexNumber_eq, hsigned]
      simp [hdigits]
    rcases hx with hx | hx
    · refine ⟨false, hread ?_⟩
      rw [List.dropWhile_cons_of_pos hx, List.dropWhile_cons_of_neg (by simp [hyspace]),
        sign_of_ne ⟨hplus, hminus⟩]
    · rw [List.dropWhile_cons_of_neg (by simp [hspace hx])] at hread
      rcases hx with rfl | rfl
      · exact ⟨false, hread rfl⟩
      · exact ⟨true, hread rfl⟩

theorem hexNumber_escaped {x y high low : UInt8} (hx : hexDigit x = some high)
    (hy : hexDigit y = some low) : hexNumber [x, y] = some (16 * high + low) := by
  have hnot : ¬ (x = 48 ∧ (y = 120 ∨ y = 88)) := by
    rintro ⟨-, rfl | rfl⟩ <;> cases hy
  rw [hexNumber_digit hx, if_neg hnot, hy]
  rfl

/-- What is read by mistake is no percent sign. -/
theorem hexNumber_misread {x y : UInt8} (h : Misread x y) :
    ∃ v, hexNumber [x, y] = some v ∧ v ≠ 37 := by
  have hsmall {v : UInt8} (hv : v < 16) : v ≠ 37 ∧ -v ≠ 37 := by
    constructor
    · rintro rfl
      revert hv
      decide
    · intro hneg
      obtain rfl : v = -37 := by rw [← hneg, UInt8.neg_neg]
      revert hv
      decide
  rcases h with ⟨hx, hy⟩ | ⟨hx, hy, hnot⟩
  · obtain ⟨v, hv⟩ := Option.isSome_iff_exists.mp hy
    obtain ⟨minus, hread⟩ := hexNumber_behind (y := y) hx
    have hne := hsmall (hexDigit_spec hv).2.2.2.2
    rw [hread, hv]
    refine ⟨_, rfl, ?_⟩
    split_ifs
    · exact hne.2
    · exact hne.1
  · obtain ⟨v, hv⟩ := Option.isSome_iff_exists.mp hx
    rw [hexNumber_digit hv, if_neg hnot, hy]
    exact ⟨v, rfl, (hsmall (hexDigit_spec hv).2.2.2.2).1⟩

/-- Everything else that is no escape is refused. -/
theorem hexNumber_refused {x y : UInt8} (h : ¬ Misread x y)
    (hescape : hexDigit x = none ∨ hexDigit y = none) : hexNumber [x, y] = none := by
  rw [Misread, not_or] at h
  cases hx : hexDigit x with
  | some v =>
    have hy := hescape.resolve_left (by rw [hx]; exact Option.some_ne_none v)
    rw [hexNumber_digit hx, if_pos]
    by_contra hnot
    exact h.2 ⟨by rw [hx]; rfl, hy, hnot⟩
  | none =>
    by_cases hbehind : isSpace x = true ∨ x = 43 ∨ x = 45
    · have hy : hexDigit y = none := by
        by_contra hne
        exact h.1 ⟨hbehind, Option.isSome_iff_ne_none.mpr hne⟩
      obtain ⟨minus, hread⟩ := hexNumber_behind (y := y) hbehind
      rw [hread, hy]
      rfl
    · rw [not_or, not_or] at hbehind
      refine hexNumber_none ?_
      rw [List.dropWhile_cons_of_neg hbehind.1, sign_of_ne hbehind.2]
      exact hexDigits_cons_none hx [y]

/-- No percent sign is followed by two characters that are read by mistake. -/
def Unambiguous (text : Bytes) : Prop := ∀ x y, [37, x, y] <:+: text → ¬ Misread x y

theorem unambiguous_cons {b : UInt8} {rest : Bytes} : Unambiguous (b :: rest) ↔
    (∀ x y back, b = 37 → rest = x :: y :: back → ¬ Misread x y) ∧ Unambiguous rest := by
  constructor
  · refine fun h => ⟨?_, fun x y hin => h x y (List.infix_cons hin)⟩
    rintro x y back rfl rfl
    exact h x y ⟨[], back, rfl⟩
  · rintro ⟨hhead, hrest⟩ x y hin
    rcases List.infix_cons_iff.mp hin with ⟨back, hback⟩ | hin
    · obtain ⟨hb, hrest⟩ := List.cons.inj hback
      exact hhead x y back hb.symm hrest.symm
    · exact hrest x y hin

/-- Digits are no percent signs, so an escape hides none. -/
theorem unambiguous_escaped {x y high low : UInt8} {rest : Bytes} (hx : hexDigit x = some high)
    (hy : hexDigit y = some low) : Unambiguous (37 :: x :: y :: rest) ↔ Unambiguous rest := by
  obtain ⟨hspace, hplus, hminus, hxpercent, -⟩ := hexDigit_spec hx
  have hypercent := (hexDigit_spec hy).2.2.2.1
  have hnot : ¬ Misread x y := by
    rintro (⟨hbehind, -⟩ | ⟨-, hnone, -⟩)
    · simp [hspace, hplus, hminus] at hbehind
    · rw [hy] at hnone
      cases hnone
  rw [unambiguous_cons, unambiguous_cons, unambiguous_cons]
  constructor
  · exact fun h => h.2.2.2
  · refine fun h => ⟨?_, fun _ _ _ hpercent => absurd hpercent hxpercent,
      fun _ _ _ hpercent => absurd hpercent hypercent, h⟩
    intro x' y' back _ heq
    obtain ⟨rfl, htail⟩ := List.cons.inj heq
    obtain ⟨rfl, -⟩ := List.cons.inj htail
    exact hnot

theorem urlDecode_escaped {x y v : UInt8} (h : hexNumber [x, y] = some v) (rest : Bytes) :
    urlDecode (37 :: x :: y :: rest) = v :: urlDecode rest := by
  rw [urlDecode, h]

theorem urlDecode_percent {x y : UInt8} (h : hexNumber [x, y] = none) (rest : Bytes) :
    urlDecode (37 :: x :: y :: rest) = 37 :: urlDecode (x :: y :: rest) := by
  rw [urlDecode, h]

theorem urlDecode_eq_iff (text : Bytes) :
    urlDecode text = percentDecode text ↔ Unambiguous text := by
  induction text using percentDecode.induct with
  | case1 => exact iff_of_true rfl fun x y hin => absurd (List.eq_nil_of_infix_nil hin) (by simp)
  | case2 x y rest high low hy hx ih =>
    rw [unambiguous_escaped hx hy, ← ih, urlDecode_escaped (hexNumber_escaped hx hy),
      percentDecode, hx, hy]
    exact List.cons_inj_right _
  | case3 x y rest hescape ih =>
    have hmeant : percentDecode (37 :: x :: y :: rest) = 37 :: percentDecode (x :: y :: rest) := by
      rw [percentDecode]
      split
      · next high low hx hy => exact (hescape high low hx hy).elim
      · rfl
    rw [hmeant, unambiguous_cons]
    by_cases hmisread : Misread x y
    · obtain ⟨v, hread, hne⟩ := hexNumber_misread hmisread
      rw [urlDecode_escaped hread]
      refine iff_of_false (fun heq => hne (List.cons.inj heq).1) fun h => ?_
      exact h.1 x y rest rfl rfl hmisread
    · have hnone : hexDigit x = none ∨ hexDigit y = none := by
        by_contra hboth
        rw [not_or] at hboth
        obtain ⟨high, hx⟩ := Option.ne_none_iff_exists'.mp hboth.1
        obtain ⟨low, hy⟩ := Option.ne_none_iff_exists'.mp hboth.2
        exact hescape high low hx hy
      rw [urlDecode_percent (hexNumber_refused hmisread hnone), List.cons_inj_right, ih]
      refine (and_iff_right ?_).symm
      intro x' y' back _ heq
      obtain ⟨rfl, htail⟩ := List.cons.inj heq
      obtain ⟨rfl, -⟩ := List.cons.inj htail
      exact hmisread
  | case4 b rest hplain ih =>
    rw [urlDecode, percentDecode, List.cons_inj_right, ih, unambiguous_cons]
    · exact (and_iff_right fun x y back hb hrest => (hplain x y back hb hrest).elim).symm
    all_goals exact fun x y back hb hrest => hplain x y back hb hrest

/-- Every encoding of a byte string is decoded to it. -/
theorem urlDecode_encoded {text s : Bytes} (h : Encodes text s) : urlDecode text = s := by
  induction h with
  | nil => rfl
  | plain hb _ ih =>
    rw [urlDecode, ih, if_neg hb.2]
    exact fun x y back hpercent _ => hb.1 hpercent
  | plus _ ih =>
    rw [urlDecode, ih]
    · rfl
    · exact fun x y back hpercent _ => absurd hpercent (by decide)
  | escaped hx hy _ ih => rw [urlDecode_escaped (hexNumber_escaped hx hy), ih]

/-- A text is decoded as it is meant if and only if no percent sign in it is followed by what the
stream mistakes for an escape; and what encodes a byte string is always decoded to it. -/
theorem urlDecode_meant_iff (text : Bytes) :
    (urlDecode text = percentDecode text ↔ Unambiguous text) ∧
      ∀ s, Encodes text s → urlDecode text = s :=
  ⟨urlDecode_eq_iff text, fun _ h => urlDecode_encoded h⟩

/-- `%5g` is no escape, but it is read as one with a single digit. -/
theorem percentDigit_misread : urlDecode (ascii "%5g") ≠ percentDecode (ascii "%5g") := by
  intro heq
  have hescape := (urlDecode_eq_iff (ascii "%5g")).mp heq 53 103 ⟨[], [], rfl⟩
  exact hescape (.inr ⟨rfl, rfl, by decide⟩)

end MyEtcd
