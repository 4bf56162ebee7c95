import Mathlib.Data.List.TakeWhile
import MyEtcd.Library.Text

/-! JSON texts and the values that they denote, as a grammar over bytes.
A string denotes the bytes that its characters are encoded as, and a number is kept as it is
written. -/
namespace MyEtcd.Library

inductive JsonValue where
  | null
  | bool (b : Bool)
  | number (digits : List UInt8)
  | string (s : List UInt8)
  | array (items : List JsonValue)
  | object (members : List (List UInt8 × JsonValue))

def Utf8 (text : List UInt8) : Prop := ∃ chars : List Char, text = chars.flatMap String.utf8EncodeChar

namespace Utf8

variable {s t : List UInt8}

theorem append (hs : Utf8 s) (ht : Utf8 t) : Utf8 (s ++ t) := by
  obtain ⟨chars, rfl⟩ := hs
  obtain ⟨more, rfl⟩ := ht
  exact ⟨chars ++ more, List.flatMap_append.symm⟩

theorem flatMap {α : Type*} {items : List α} {f : α → List UInt8} (h : ∀ a ∈ items, Utf8 (f a)) :
    Utf8 (items.flatMap f) := by
  induction items with
  | nil => exact ⟨[], rfl⟩
  | cons a items ih =>
    rw [List.flatMap_cons]
    exact (h a List.mem_cons_self).append (ih fun a ha => h a (List.mem_cons_of_mem _ ha))

theorem encode_ascii {c : Char} (h : c.toNat < 128) :
    String.utf8EncodeChar c = [UInt8.ofNat c.toNat] := by
  have hle : c.val.toNat ≤ 127 := Nat.le_of_lt_succ h
  rw [String.utf8EncodeChar, if_pos hle]
  rfl

/-- Every byte of a character that is not ASCII has its highest bit set. -/
theorem encode_high {c : Char} (h : 128 ≤ c.toNat) {b : UInt8} (hb : b ∈ String.utf8EncodeChar c) :
    128 ≤ b := by
  have hgt : ¬ c.val.toNat ≤ 127 := Nat.not_le.mpr h
  have hbyte {n : Nat} (hn : 128 ≤ n % 256) : 128 ≤ UInt8.ofNat n := by
    rw [UInt8.le_iff_toNat_le, UInt8.toNat_ofNat']
    exact hn
  simp only [String.utf8EncodeChar, if_neg hgt] at hb
  split_ifs at hb <;> simp only [List.mem_cons, List.not_mem_nil, or_false] at hb
  · rcases hb with rfl | rfl <;> exact hbyte (by omega)
  · rcases hb with rfl | rfl | rfl <;> exact hbyte (by omega)
  · rcases hb with rfl | rfl | rfl | rfl <;> exact hbyte (by omega)

theorem singleton {b : UInt8} (h : b < 128) : Utf8 [b] := by
  have hlt : b.toNat < 128 := UInt8.lt_iff_toNat_lt.mp h
  have hchar : (Char.ofNat b.toNat).toNat = b.toNat := by
    rw [Char.ofNat, dif_pos (.inl (by omega))]
    rfl
  refine ⟨[Char.ofNat b.toNat], ?_⟩
  rw [List.flatMap_singleton, encode_ascii (by omega), hchar, UInt8.ofNat_toNat]

theorem of_ascii (h : ∀ b ∈ s, b < 128) : Utf8 s := by
  induction s with
  | nil => exact ⟨[], rfl⟩
  | cons b s ih =>
    exact (singleton (h b List.mem_cons_self)).append (ih fun c hc => h c (List.mem_cons_of_mem _ hc))

end Utf8

namespace JsonValue

def isBlank (b : UInt8) : Bool := b = 32 || b = 9 || b = 10 || b = 13

def areDigits (text : List UInt8) : Bool := !text.isEmpty && text.all isDigit

def isExponent : List UInt8 → Bool
  | [] => true
  | e :: text => (e = 101 || e = 69) && areDigits (sign text).2

/-- A fraction and an exponent, each of which may be missing. -/
def isFraction : List UInt8 → Bool
  | [] => true
  | b :: text =>
    if b = 46 then areDigits (text.takeWhile isDigit) && isExponent (text.dropWhile isDigit)
    else isExponent (b :: text)

/-- A number without its sign. There is no zero in front of other digits. -/
def isUnsigned (text : List UInt8) : Bool :=
  let digits := text.takeWhile isDigit
  !digits.isEmpty && (digits.head? ≠ some 48 || digits = [48]) && isFraction (text.dropWhile isDigit)

def isNumber : List UInt8 → Bool
  | [] => false
  | b :: text => if b = 45 then isUnsigned text else isUnsigned (b :: text)

/-- What a single word or a number denotes. -/
def scalar (text : List UInt8) : Option JsonValue :=
  if text = ascii "null" then some null
  else if text = ascii "true" then some (bool true)
  else if text = ascii "false" then some (bool false)
  else if isNumber text then some (number text)
  else none

/-- What the body of a string consists of: bytes, and numbers of 16 bits from their four digits. -/
inductive CodeUnit where
  | byte (b : UInt8)
  | code (c : Nat)

def encodeCode (c : Nat) : List UInt8 :=
  if c.isValidChar then String.utf8EncodeChar (Char.ofNat c) else [239, 191, 189]

def isHigh (c : Nat) : Bool := 0xD800 ≤ c && c < 0xDC00

def isLow (c : Nat) : Bool := 0xDC00 ≤ c && c < 0xE000

/-- Two surrogates are one character; half of a pair is replaced. -/
def decode : List CodeUnit → List UInt8
  | [] => []
  | .byte b :: units => b :: decode units
  | .code c :: units =>
    match units with
    | .code d :: rest =>
      if isHigh c && isLow d then
        encodeCode (0x10000 + 1024 * (c - 0xD800) + (d - 0xDC00)) ++ decode rest
      else encodeCode c ++ decode (.code d :: rest)
    | units => encodeCode c ++ decode units

/-- The letters that stand for a byte behind a backslash. -/
def shortEscape (c : UInt8) : Option UInt8 :=
  if c = 34 ∨ c = 92 ∨ c = 47 then some c
  else if c = 98 then some 8
  else if c = 102 then some 12
  else if c = 110 then some 10
  else if c = 114 then some 13
  else if c = 116 then some 9
  else none

def hexValue (b : UInt8) : Option Nat :=
  if isDigit b then some (b.toNat - 48)
  else if 97 ≤ b ∧ b ≤ 102 then some (b.toNat - 87)
  else if 65 ≤ b ∧ b ≤ 70 then some (b.toNat - 55)
  else none

def fourDigits (x y z w : UInt8) : Option Nat := do
  let x ← hexValue x
  let y ← hexValue y
  let z ← hexValue z
  let w ← hexValue w
  some (4096 * x + 256 * y + 16 * z + w)

def Unescaped (b : UInt8) : Prop := 32 ≤ b ∧ b ≠ 34 ∧ b ≠ 92

/-- The body of a string. -/
inductive Characters : List CodeUnit → List UInt8 → Prop
  | nil : Characters [] []
  | plain {b : UInt8} {units text} (h : Unescaped b) (rest : Characters units text) :
    Characters (.byte b :: units) (b :: text)
  | short {c b : UInt8} {units text} (h : shortEscape c = some b) (rest : Characters units text) :
    Characters (.byte b :: units) (92 :: c :: text)
  | unicode {x y z w : UInt8} {c : Nat} {units text} (h : fourDigits x y z w = some c)
    (rest : Characters units text) :
    Characters (.code c :: units) (92 :: 117 :: x :: y :: z :: w :: text)

def Quoted (s text : List UInt8) : Prop :=
  ∃ units body, Characters units body ∧ s = decode units ∧ text = 34 :: (body ++ [34])

def Blank (text : List UInt8) : Prop := ∀ b ∈ text, isBlank b = true

/-- The parts of the grammar. An element is a value with blanks around it. -/
inductive Part where
  | value (v : JsonValue)
  | element (v : JsonValue)
  | elements (items : List JsonValue)
  | member (m : List UInt8 × JsonValue)
  | members (ms : List (List UInt8 × JsonValue))

inductive Denotes : Part → List UInt8 → Prop
  | scalar {v text} (h : scalar text = some v) : Denotes (.value v) text
  | string {s text} (h : Quoted s text) : Denotes (.value (.string s)) text
  | noItems {u} (h : Blank u) : Denotes (.value (.array [])) (91 :: (u ++ [93]))
  | array {items text} (h : Denotes (.elements items) text) :
    Denotes (.value (.array items)) (91 :: (text ++ [93]))
  | noMembers {u} (h : Blank u) : Denotes (.value (.object [])) (123 :: (u ++ [125]))
  | object {ms text} (h : Denotes (.members ms) text) :
    Denotes (.value (.object ms)) (123 :: (text ++ [125]))
  | element {v u text w} (hu : Blank u) (h : Denotes (.value v) text) (hw : Blank w) :
    Denotes (.element v) (u ++ text ++ w)
  | lastItem {v text} (h : Denotes (.element v) text) : Denotes (.elements [v]) text
  | nextItem {v items text more} (h : Denotes (.element v) text)
    (rest : Denotes (.elements items) more) : Denotes (.elements (v :: items)) (text ++ 44 :: more)
  | member {s v u name w text} (hu : Blank u) (hname : Quoted s name) (hw : Blank w)
    (h : Denotes (.element v) text) : Denotes (.member (s, v)) (u ++ name ++ w ++ 58 :: text)
  | lastMember {m text} (h : Denotes (.member m) text) : Denotes (.members [m]) text
  | nextMember {m ms text more} (h : Denotes (.member m) text)
    (rest : Denotes (.members ms) more) : Denotes (.members (m :: ms)) (text ++ 44 :: more)

/-- A well-formed JSON text and its value. -/
def IsText (v : JsonValue) (text : List UInt8) : Prop := Utf8 text ∧ Denotes (.element v) text

def isScalarByte (b : UInt8) : Bool :=
  isDigit b || 97 ≤ b && b ≤ 122 || b = 69 || b = 43 || b = 45 || b = 46

variable {v : JsonValue} {b c : UInt8} {text : List UInt8}

private theorem mem_takeWhile_or {p : UInt8 → Bool} (h : b ∈ text) :
    b ∈ text.takeWhile p ∨ b ∈ text.dropWhile p := by
  rw [← List.mem_append, List.takeWhile_append_dropWhile]
  exact h

private theorem mem_sign (h : b ∈ text) : b = 45 ∨ b = 43 ∨ b ∈ (sign text).2 := by
  unfold sign
  split
  · exact (List.mem_cons.mp h).imp_right .inr
  · exact .inr (List.mem_cons.mp h)
  · exact .inr (.inr h)

theorem isScalarByte_of_isDigit (h : isDigit b = true) : isScalarByte b = true := by
  simp [isScalarByte, h]

private theorem areDigits_bytes (h : areDigits text = true) (hb : b ∈ text) :
    isScalarByte b = true := by
  rw [areDigits, Bool.and_eq_true, List.all_eq_true] at h
  exact isScalarByte_of_isDigit (h.2 b hb)

private theorem isExponent_bytes (h : isExponent text = true) (hb : b ∈ text) :
    isScalarByte b = true := by
  cases text with
  | nil => cases hb
  | cons e text =>
    rw [isExponent, Bool.and_eq_true, Bool.or_eq_true, decide_eq_true_eq, decide_eq_true_eq] at h
    obtain ⟨he, hdigits⟩ := h
    rcases List.mem_cons.mp hb with rfl | hb
    · rcases he with rfl | rfl <;> rfl
    · rcases mem_sign hb with rfl | rfl | hb
      · rfl
      · rfl
      · exact areDigits_bytes hdigits hb

private theorem isFraction_bytes (h : isFraction text = true) (hb : b ∈ text) :
    isScalarByte b = true := by
  cases text with
  | nil => cases hb
  | cons p text =>
    rw [isFraction] at h
    split_ifs at h with hpoint
    · rw [Bool.and_eq_true] at h
      rcases List.mem_cons.mp hb with rfl | hb
      · rw [hpoint]
        rfl
      · exact (mem_takeWhile_or hb).elim (areDigits_bytes h.1) (isExponent_bytes h.2)
    · exact isExponent_bytes h hb

private theorem isUnsigned_bytes (h : isUnsigned text = true) :
    text ≠ [] ∧ ∀ b ∈ text, isScalarByte b = true := by
  simp only [isUnsigned, Bool.and_eq_true] at h
  refine ⟨fun hnil => ?_, fun b hb => ?_⟩
  · rw [hnil] at h
    exact Bool.false_ne_true h.1.1
  · rcases mem_takeWhile_or hb with hb | hb
    · exact isScalarByte_of_isDigit (List.mem_takeWhile_imp hb)
    · exact isFraction_bytes h.2 hb

private theorem isNumber_bytes (h : isNumber text = true) :
    text ≠ [] ∧ ∀ b ∈ text, isScalarByte b = true := by
  cases text with
  | nil => cases h
  | cons c text =>
    rw [isNumber] at h
    split_ifs at h with hminus
    · refine ⟨List.cons_ne_nil _ _, fun b hb => ?_⟩
      rcases List.mem_cons.mp hb with rfl | hb
      · rw [hminus]
        rfl
      · exact (isUnsigned_bytes h).2 b hb
    · exact isUnsigned_bytes h

/-- A control character that is no blank either. -/
def isControl (b : UInt8) : Bool := b < 32 && !isBlank b

theorem scalar_bytes (h : scalar text = some v) :
    text ≠ [] ∧ ∀ b ∈ text, isScalarByte b = true := by
  have hword {word : List UInt8} (hne : word ≠ []) (hall : word.all isScalarByte = true)
      (heq : text = word) : text ≠ [] ∧ ∀ b ∈ text, isScalarByte b = true := by
    rw [heq]
    exact ⟨hne, List.all_eq_true.mp hall⟩
  unfold scalar at h
  split_ifs at h with hnull htrue hfalse hnumber
  · exact hword (by decide) rfl hnull
  · exact hword (by decide) rfl htrue
  · exact hword (by decide) rfl hfalse
  · exact isNumber_bytes hnumber

theorem scalar_cases (h : scalar text = some v) :
    v = null ∨ (∃ b, v = bool b) ∨ v = number text := by
  unfold scalar at h
  split_ifs at h with hnull htrue hfalse hnumber <;> cases h
  · exact .inl rfl
  · exact .inr (.inl ⟨true, rfl⟩)
  · exact .inr (.inl ⟨false, rfl⟩)
  · exact .inr (.inr rfl)

theorem head?_decimal {n : Nat} (hn : n ≠ 0) : (decimal n).head? ≠ some 48 := by
  have hne : Nat.digits 10 n ≠ [] := Nat.digits_ne_nil_iff_ne_zero.mpr hn
  have hlt : (Nat.digits 10 n).getLast hne < 10 :=
    Nat.digits_lt_base (by norm_num) (List.getLast_mem hne)
  rw [decimal, if_neg hn, List.head?_map, List.head?_reverse, List.getLast?_eq_some_getLast hne,
    Option.map_some]
  intro heq
  have hdigit := toNat_digitByte hlt
  rw [Option.some.inj heq] at hdigit
  exact Nat.getLast_digit_ne_zero 10 hn hdigit.symm

theorem isUnsigned_decimal (n : Nat) : isUnsigned (decimal n) = true := by
  have hdigits : ∀ b ∈ decimal n, isDigit b = true := fun b hb => isDigit_of_mem_decimal hb
  have hhead : (decimal n).head? ≠ some 48 ∨ decimal n = [48] := by
    by_cases hn : n = 0
    · rw [hn]
      exact .inr rfl
    · exact .inl (head?_decimal hn)
  have htake : (decimal n).takeWhile isDigit = decimal n := List.takeWhile_eq_self_iff.mpr hdigits
  have hdrop : (decimal n).dropWhile isDigit = [] := List.dropWhile_eq_nil_iff.mpr hdigits
  simp only [isUnsigned, htake, hdrop, Bool.and_eq_true, Bool.or_eq_true, decide_eq_true_eq]
  refine ⟨⟨?_, hhead⟩, rfl⟩
  rw [Bool.not_eq_true', List.isEmpty_eq_false_iff]
  exact decimal_ne_nil n

theorem isNumber_decimal (n : Nat) : isNumber (decimal n) = true := by
  have hunsigned := isUnsigned_decimal n
  obtain ⟨b, more, hcons⟩ := List.exists_cons_of_ne_nil (decimal_ne_nil n)
  have hminus : b ≠ 45 := by
    rintro rfl
    have hdigit := isDigit_of_mem_decimal (n := n) (hcons ▸ List.mem_cons_self)
    cases hdigit
  rw [hcons] at hunsigned ⊢
  rw [isNumber, if_neg hminus]
  exact hunsigned

theorem isNumber_decimalInt (n : Int) : isNumber (decimalInt n) = true := by
  unfold decimalInt
  split_ifs with hneg
  · rw [isNumber, if_pos rfl]
    exact isUnsigned_decimal _
  · exact isNumber_decimal _

theorem scalar_number (h : isNumber text = true) : scalar text = some (number text) := by
  have hne {word : List UInt8} (hword : isNumber word = false) : text ≠ word := by
    rintro rfl
    rw [h] at hword
    cases hword
  rw [scalar, if_neg (hne rfl), if_neg (hne rfl), if_neg (hne rfl), if_pos h]

theorem isControl_of_le (h : 32 ≤ b) : isControl b = false := by
  rw [isControl, decide_eq_false (UInt8.not_lt.mpr h), Bool.false_and]

theorem isControl_of_isBlank (h : isBlank b = true) : isControl b = false := by
  rw [isControl, h, Bool.not_true, Bool.and_false]

theorem isScalarByte_bounds (h : isScalarByte b = true) : 43 ≤ b ∧ b ≤ 122 := by
  simp only [isScalarByte, isDigit, Bool.or_eq_true, Bool.and_eq_true, decide_eq_true_eq] at h
  rcases h with ((((h | h) | rfl) | rfl) | rfl) | rfl
  · exact ⟨UInt8.le_trans (by decide) h.1, UInt8.le_trans h.2 (by decide)⟩
  · exact ⟨UInt8.le_trans (by decide) h.1, h.2⟩
  all_goals decide

theorem le_of_hexValue {n : Nat} (h : hexValue b = some n) : 48 ≤ b := by
  unfold hexValue at h
  split_ifs at h with hdigit hlower hupper
  · rw [isDigit, Bool.and_eq_true, decide_eq_true_eq] at hdigit
    exact hdigit.1
  · exact UInt8.le_trans (by decide) hlower.1
  · exact UInt8.le_trans (by decide) hupper.1

theorem le_of_shortEscape (h : shortEscape c = some b) : 34 ≤ c := by
  unfold shortEscape at h
  split_ifs at h with h₁ h₂ h₃ h₄ h₅ h₆
  · rcases h₁ with rfl | rfl | rfl <;> decide
  all_goals
    subst c
    decide

theorem fourDigits_some {x y z w : UInt8} {c : Nat} (h : fourDigits x y z w = some c) :
    ∃ x' y' z' w', hexValue x = some x' ∧ hexValue y = some y' ∧ hexValue z = some z' ∧
      hexValue w = some w' ∧ c = 4096 * x' + 256 * y' + 16 * z' + w' := by
  simp only [fourDigits, Option.bind_eq_bind, Option.bind_eq_some_iff, Option.some.injEq] at h
  obtain ⟨x', hx, y', hy, z', hz, w', hw, rfl⟩ := h
  exact ⟨x', y', z', w', hx, hy, hz, hw, rfl⟩

theorem Characters.le {units : List CodeUnit} (h : Characters units text) : ∀ b ∈ text, 32 ≤ b := by
  induction h with
  | nil => exact fun b hb => absurd hb List.not_mem_nil
  | plain h _ ih => exact List.forall_mem_cons.mpr ⟨h.1, ih⟩
  | short h _ ih =>
    simp only [List.forall_mem_cons]
    exact ⟨by decide, UInt8.le_trans (by decide) (le_of_shortEscape h), ih⟩
  | unicode h _ ih =>
    obtain ⟨x', y', z', w', hx, hy, hz, hw, -⟩ := fourDigits_some h
    have hle {b : UInt8} {n : Nat} (hb : hexValue b = some n) : 32 ≤ b :=
      UInt8.le_trans (by decide) (le_of_hexValue hb)
    simp only [List.forall_mem_cons]
    exact ⟨by decide, by decide, hle hx, hle hy, hle hz, hle hw, ih⟩

theorem Quoted.le {s : List UInt8} (h : Quoted s text) : ∀ b ∈ text, 32 ≤ b := by
  obtain ⟨units, body, hbody, -, rfl⟩ := h
  simp only [List.forall_mem_cons, List.forall_mem_append]
  exact ⟨by decide, hbody.le, by decide, fun b hb => absurd hb List.not_mem_nil⟩

/-- How many bytes a code unit can decode to. -/
def CodeUnit.width : CodeUnit → Nat
  | .byte _ => 1
  | .code _ => 4

theorem length_encodeCode_le (c : Nat) : (encodeCode c).length ≤ 4 := by
  unfold encodeCode
  split_ifs
  · unfold String.utf8EncodeChar
    dsimp only
    split_ifs <;> simp
  · simp

theorem length_decode_le (units : List CodeUnit) :
    (decode units).length ≤ (units.map CodeUnit.width).sum := by
  have hcode (c : Nat) := length_encodeCode_le c
  fun_induction decode units with
  | case1 => exact le_rfl
  | case2 b units ih =>
    rw [List.length_cons, List.map_cons, List.sum_cons, CodeUnit.width]
    omega
  | case3 c d rest _ ih =>
    have := hcode (0x10000 + 1024 * (c - 0xD800) + (d - 0xDC00))
    simp only [List.length_append, List.map_cons, List.sum_cons, CodeUnit.width]
    omega
  | case4 c d rest _ ih =>
    have := hcode c
    simp only [List.length_append, List.map_cons, List.sum_cons, CodeUnit.width] at ih ⊢
    omega
  | case5 c units _ ih =>
    have := hcode c
    simp only [List.length_append, List.map_cons, List.sum_cons, CodeUnit.width]
    omega

theorem Characters.sum_width_le {units : List CodeUnit} (h : Characters units text) :
    (units.map CodeUnit.width).sum ≤ text.length ∧
      (92 ∈ text → (units.map CodeUnit.width).sum < text.length) := by
  induction h with
  | nil => simp
  | @plain b units text hb _ ih =>
    obtain ⟨hle, hlt⟩ := ih
    simp only [List.map_cons, List.sum_cons, CodeUnit.width, List.length_cons]
    refine ⟨by omega, fun hmem => ?_⟩
    have hrest := hlt ((List.mem_cons.mp hmem).resolve_left (Ne.symm hb.2.2))
    omega
  | short _ _ ih =>
    simp only [List.map_cons, List.sum_cons, CodeUnit.width, List.length_cons]
    exact ⟨by omega, fun _ => by omega⟩
  | unicode _ _ ih =>
    simp only [List.map_cons, List.sum_cons, CodeUnit.width, List.length_cons]
    exact ⟨by omega, fun _ => by omega⟩

/-- A body without escapes stands for itself, and no other one does. -/
theorem Characters.decode_eq_iff {units : List CodeUnit} (h : Characters units text) :
    decode units = text ↔ 92 ∉ text := by
  constructor
  · intro heq hmem
    have hle := length_decode_le units
    have hsum := h.sum_width_le.2 hmem
    rw [heq] at hle
    omega
  · intro hno
    induction h with
    | nil => rfl
    | plain _ _ ih => rw [decode, ih (mt (List.mem_cons_of_mem _) hno)]
    | short => exact absurd List.mem_cons_self hno
    | unicode => exact absurd List.mem_cons_self hno

theorem mem_decode {units : List CodeUnit} (h : .byte b ∈ units) : b ∈ decode units := by
  fun_induction decode units with
  | case1 => cases h
  | case2 c units ih =>
    rcases List.mem_cons.mp h with h | h
    · obtain rfl := CodeUnit.byte.inj h
      exact List.mem_cons_self
    · exact List.mem_cons_of_mem _ (ih h)
  | case3 c d rest _ ih =>
    refine List.mem_append_right _ (ih ?_)
    simpa using h
  | case4 c d rest _ ih =>
    refine List.mem_append_right _ (ih ?_)
    simpa using h
  | case5 c units _ ih =>
    refine List.mem_append_right _ (ih ?_)
    simpa using h

/-- Control characters stand nowhere in a JSON text. -/
theorem Denotes.not_control {p : Part} (h : Denotes p text) : ∀ b ∈ text, isControl b = false := by
  have hblank {u : List UInt8} (hu : Blank u) : ∀ b ∈ u, isControl b = false :=
    fun b hb => isControl_of_isBlank (hu b hb)
  have hquoted {s name : List UInt8} (hname : Quoted s name) : ∀ b ∈ name, isControl b = false :=
    fun b hb => isControl_of_le (hname.le b hb)
  have hnil : ∀ b ∈ ([] : List UInt8), isControl b = false := fun b hb => absurd hb List.not_mem_nil
  induction h with
  | scalar h =>
    exact fun b hb => isControl_of_le (UInt8.le_trans (by decide)
      (isScalarByte_bounds ((scalar_bytes h).2 b hb)).1)
  | string h => exact hquoted h
  | noItems hu | noMembers hu =>
    simp only [List.forall_mem_cons, List.forall_mem_append]
    exact ⟨rfl, hblank hu, rfl, hnil⟩
  | array _ ih | object _ ih =>
    simp only [List.forall_mem_cons, List.forall_mem_append]
    exact ⟨rfl, ih, rfl, hnil⟩
  | element hu _ hw ih =>
    simp only [List.forall_mem_append]
    exact ⟨⟨hblank hu, ih⟩, hblank hw⟩
  | lastItem _ ih | lastMember _ ih => exact ih
  | nextItem _ _ ih ihmore | nextMember _ _ ih ihmore =>
    simp only [List.forall_mem_append, List.forall_mem_cons]
    exact ⟨ih, rfl, ihmore⟩
  | member hu hname hw _ ih =>
    simp only [List.forall_mem_append, List.forall_mem_cons]
    exact ⟨⟨⟨hblank hu, hquoted hname⟩, hblank hw⟩, rfl, ih⟩

end JsonValue
end MyEtcd.Library
