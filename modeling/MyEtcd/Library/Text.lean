import Mathlib.Data.Nat.Digits.Lemmas
import Mathlib.Tactic.IntervalCases
import Mathlib.Tactic.NormNum

/-! Text as bytes, and numbers in it, as they are printed and as the `strto` functions of C read them.
The reader skips white space, takes one sign and then digits, and ignores what stands behind them. -/
namespace MyEtcd.Library

def ascii (text : String) : List UInt8 := text.toList.map fun c => UInt8.ofNat c.toNat

def isSpace (b : UInt8) : Bool := b = 32 || 9 ≤ b && b ≤ 13

def isDigit (b : UInt8) : Bool := 48 ≤ b && b ≤ 57

def digitByte (d : Nat) : UInt8 := UInt8.ofNat (48 + d)

/-- What `to_string` prints. -/
def decimal (n : Nat) : List UInt8 :=
  if n = 0 then [48] else (Nat.digits 10 n).reverse.map digitByte

def decimalInt (n : Int) : List UInt8 := if n < 0 then 45 :: decimal n.natAbs else decimal n.natAbs

def digitsValue (l : List UInt8) : Nat := l.foldl (fun n b => 10 * n + (b.toNat - 48)) 0

/-- The sign that a text may begin with, which is true for minus, and what stands behind it. -/
def sign : List UInt8 → Bool × List UInt8
  | 45 :: rest => (true, rest)
  | 43 :: rest => (false, rest)
  | text => (false, text)

/-- The value that is read off a text, none if it has no digits to begin with. -/
def parseInt (text : List UInt8) : Option Int :=
  let signed := sign (text.dropWhile isSpace)
  let digits := signed.2.takeWhile isDigit
  if digits.isEmpty then none
  else some (if signed.1 then -(digitsValue digits : Int) else (digitsValue digits : Int))

/-- `stoll`, without a result where it throws. -/
def stoll (text : List UInt8) : Option Int := (parseInt text).filter fun v => -2 ^ 63 ≤ v ∧ v < 2 ^ 63

theorem stoll_bounds {text : List UInt8} {v : Int} (h : stoll text = some v) :
    -2 ^ 63 ≤ v ∧ v < 2 ^ 63 := by
  rw [stoll, Option.filter_eq_some_iff] at h
  exact of_decide_eq_true h.2

theorem isDigit_digitByte {d : Nat} (h : d < 10) : isDigit (digitByte d) = true := by
  revert d
  decide

theorem toNat_digitByte {d : Nat} (h : d < 10) : (digitByte d).toNat - 48 = d := by
  revert d
  decide

theorem isSpace_digitByte {d : Nat} (h : d < 10) : isSpace (digitByte d) = false := by
  revert d
  decide

theorem sign_digitByte {d : Nat} (h : d < 10) (rest : List UInt8) :
    sign (digitByte d :: rest) = (false, digitByte d :: rest) := by
  interval_cases d <;> rfl

theorem decimal_ne_nil (n : Nat) : decimal n ≠ [] := by
  unfold decimal
  split_ifs with hn
  · exact List.cons_ne_nil _ _
  · rw [Ne, List.map_eq_nil_iff, List.reverse_eq_nil_iff, Nat.digits_eq_nil_iff_eq_zero]
    exact hn

theorem exists_digit_of_mem_decimal {n : Nat} {b : UInt8} (h : b ∈ decimal n) :
    ∃ d < 10, b = digitByte d := by
  unfold decimal at h
  split_ifs at h
  · exact ⟨0, by norm_num, List.mem_singleton.mp h⟩
  · obtain ⟨d, hd, rfl⟩ := List.mem_map.mp h
    exact ⟨d, Nat.digits_lt_base (by norm_num) (List.mem_reverse.mp hd), rfl⟩

theorem isDigit_of_mem_decimal {n : Nat} {b : UInt8} (h : b ∈ decimal n) : isDigit b = true := by
  obtain ⟨d, hd, rfl⟩ := exists_digit_of_mem_decimal h
  exact isDigit_digitByte hd

private theorem digitsValue_digits (l : List Nat) (h : ∀ d ∈ l, d < 10) :
    digitsValue (l.reverse.map digitByte) = Nat.ofDigits 10 l := by
  induction l with
  | nil => rfl
  | cons d rest ih =>
    have hrest := ih fun d hd => h d (List.mem_cons_of_mem _ hd)
    rw [digitsValue] at hrest ⊢
    rw [List.reverse_cons, List.map_append, List.foldl_append, hrest, Nat.ofDigits_cons, List.map_cons,
      List.map_nil, List.foldl_cons, List.foldl_nil, toNat_digitByte (h d List.mem_cons_self)]
    exact Nat.add_comm _ _

theorem digitsValue_decimal (n : Nat) : digitsValue (decimal n) = n := by
  unfold decimal
  split_ifs with hn
  · exact hn.symm
  · rw [digitsValue_digits _ fun d hd => Nat.digits_lt_base (by norm_num) hd, Nat.ofDigits_digits]

theorem exists_digitByte {b : UInt8} (h : isDigit b = true) : ∃ d < 10, b = digitByte d := by
  rw [isDigit, Bool.and_eq_true, decide_eq_true_eq, decide_eq_true_eq, UInt8.le_iff_toNat_le,
    UInt8.le_iff_toNat_le] at h
  obtain ⟨hlow, hhigh⟩ : 48 ≤ b.toNat ∧ b.toNat ≤ 57 := h
  refine ⟨b.toNat - 48, by omega, UInt8.toNat_inj.mp ?_⟩
  rw [digitByte, UInt8.toNat_ofNat']
  omega

/-- A number is read off its digits, whatever stands behind them that is no digit. -/
theorem parseInt_digits {digits rest : List UInt8} (hdigits : ∀ b ∈ digits, isDigit b = true)
    (hne : digits ≠ []) (h : ∀ b ∈ rest.head?, isDigit b = false) :
    parseInt (digits ++ rest) = some (digitsValue digits : Int) := by
  have hstop : rest.takeWhile isDigit = [] := by
    cases rest with
    | nil => rfl
    | cons b rest => exact List.takeWhile_cons_of_neg (by rw [h b rfl]; exact Bool.false_ne_true)
  have htake : (digits ++ rest).takeWhile isDigit = digits := by
    rw [List.takeWhile_append_of_pos hdigits, hstop, List.append_nil]
  obtain ⟨b, more, hb⟩ := List.exists_cons_of_ne_nil hne
  obtain ⟨d, hd, rfl⟩ := exists_digitByte (hdigits b (hb ▸ List.mem_cons_self))
  have hskip : (digits ++ rest).dropWhile isSpace = digits ++ rest := by
    rw [hb, List.cons_append, List.dropWhile_cons_of_neg (by simp [isSpace_digitByte hd])]
  have hsign : sign (digits ++ rest) = (false, digits ++ rest) := by
    rw [hb, List.cons_append]
    exact sign_digitByte hd _
  rw [parseInt, hskip, hsign]
  dsimp only
  rw [htake, if_neg (by simpa using hne)]
  rfl

theorem parseInt_decimal (n : Nat) {rest : List UInt8} (h : ∀ b ∈ rest.head?, isDigit b = false) :
    parseInt (decimal n ++ rest) = some (n : Int) := by
  rw [parseInt_digits (fun _ hb => isDigit_of_mem_decimal hb) (decimal_ne_nil n) h,
    digitsValue_decimal]

end MyEtcd.Library
