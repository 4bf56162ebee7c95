import MyEtcd.Library.JsonParser
import MyEtcd.Server.Json

/-! The text that `escape` makes of a JSON value, and when it denotes the value.
No text of the value is shorter, so one that lacks an escape denotes something else. -/
namespace MyEtcd
open Library
open Library.JsonValue (Denotes Part Quoted Characters CodeUnit Unescaped Blank IsText isControl isBlank
  shortEscape encodeCode decode scalar)

namespace Json

/-- A value as a text, without blanks. -/
def print : JsonValue → Bytes
  | .null => ascii "null"
  | .bool b => if b then ascii "true" else ascii "false"
  | .number digits => digits
  | .string s => quote s
  | .array items => 91 :: (commas (items.map fun v => print v) ++ [93])
  | .object members => 123 :: (commas (members.map fun m => quote m.1 ++ 58 :: print m.2) ++ [125])
decreasing_by
  all_goals simp_wf
  · exact Nat.lt_add_left 1 (List.sizeOf_lt_of_mem ‹_›)
  · have := List.sizeOf_lt_of_mem ‹_›
    obtain ⟨name, value⟩ := m
    simp only [Prod.mk.sizeOf_spec] at this ⊢
    omega

def printMember (m : Bytes × JsonValue) : Bytes := quote m.1 ++ 58 :: print m.2

@[simp] theorem print_string (s : Bytes) : print (.string s) = quote s := by
  rw [print]

@[simp] theorem print_number (digits : Bytes) : print (.number digits) = digits := by
  rw [print]

@[simp] theorem print_array (items : List JsonValue) :
    print (.array items) = 91 :: (commas (items.map print) ++ [93]) := by
  rw [print]

@[simp] theorem print_object (members : List (Bytes × JsonValue)) :
    print (.object members) = 123 :: (commas (members.map printMember) ++ [125]) := by
  rw [print]
  rfl

theorem print_scalar {v : JsonValue} {text : Bytes} (h : scalar text = some v) : print v = text := by
  unfold scalar at h
  split_ifs at h with hnull htrue hfalse hnumber <;> cases h <;> rw [print]
  · exact hnull.symm
  · exact htrue.symm
  · exact hfalse.symm

/-- Text that needs no escapes. -/
def Verbatim (s : Bytes) : Prop := ∀ b ∈ s, Unescaped b

/-- Text without control characters, apart from the three that have a short escape. -/
def NoControl (s : Bytes) : Prop := ∀ b ∈ s, isControl b = false

instance (s : Bytes) : Decidable (NoControl s) := List.decidableBAll _ s

/-- Text that the server is written with: the names of members, and fixed values. -/
def Fixed (s : Bytes) : Prop := ∀ b ∈ s, (32 ≤ b ∧ b ≠ 34 ∧ b ≠ 92) ∧ b < 128

instance (s : Bytes) : Decidable (Fixed s) := List.decidableBAll _ s

theorem Fixed.noControl {s : Bytes} (h : Fixed s) : NoControl s :=
  fun b hb => JsonValue.isControl_of_le (h b hb).1.1

theorem Fixed.utf8 {s : Bytes} (h : Fixed s) : Utf8 s := Utf8.of_ascii fun b hb => (h b hb).2

/-- A value whose numbers are numbers and whose strings all have the property. -/
inductive Built (P : Bytes → Prop) : JsonValue → Prop
  | scalar {text : Bytes} {v : JsonValue} (h : scalar text = some v) : Built P v
  | string {s : Bytes} (h : P s) : Built P (.string s)
  | array {items : List JsonValue} (h : ∀ v ∈ items, Built P v) : Built P (.array items)
  | object {members : List (Bytes × JsonValue)} (hname : ∀ m ∈ members, Fixed m.1)
    (h : ∀ m ∈ members, Built P m.2) : Built P (.object members)

theorem Built.mono {P Q : Bytes → Prop} (hPQ : ∀ s, P s → Q s) {v : JsonValue} (h : Built P v) :
    Built Q v := by
  induction h with
  | scalar h => exact .scalar h
  | string h => exact .string (hPQ _ h)
  | array _ ih => exact .array ih
  | object hname _ ih => exact .object hname ih

section
variable {P : Bytes → Prop}

@[simp] theorem built_string_iff {s : Bytes} : Built P (.string s) ↔ P s := by
  refine ⟨fun h => ?_, .string⟩
  cases h with
  | scalar h => rcases JsonValue.scalar_cases h with h | ⟨b, h⟩ | h <;> cases h
  | string h => exact h

@[simp] theorem built_array_iff {items : List JsonValue} :
    Built P (.array items) ↔ ∀ v ∈ items, Built P v := by
  refine ⟨fun h => ?_, .array⟩
  cases h with
  | scalar h => rcases JsonValue.scalar_cases h with h | ⟨b, h⟩ | h <;> cases h
  | array h => exact h

theorem built_object_iff {members : List (Bytes × JsonValue)} (hname : ∀ m ∈ members, Fixed m.1) :
    Built P (.object members) ↔ ∀ m ∈ members, Built P m.2 := by
  refine ⟨fun h => ?_, .object hname⟩
  cases h with
  | scalar h => rcases JsonValue.scalar_cases h with h | ⟨b, h⟩ | h <;> cases h
  | object _ h => exact h

@[simp] theorem built_decimal (n : Nat) : Built P (.number (decimal n)) :=
  .scalar (JsonValue.scalar_number (JsonValue.isNumber_decimal n))

@[simp] theorem built_decimalInt (n : Int) : Built P (.number (decimalInt n)) :=
  .scalar (JsonValue.scalar_number (JsonValue.isNumber_decimalInt n))

@[simp] theorem built_bool (b : Bool) : Built P (.bool b) := by
  have htrue : scalar (ascii "true") = some (.bool true) := rfl
  have hfalse : scalar (ascii "false") = some (.bool false) := rfl
  cases b with
  | true => exact .scalar htrue
  | false => exact .scalar hfalse

end

theorem commas_cons_cons (x y : Bytes) (rest : List Bytes) :
    commas (x :: y :: rest) = x ++ 44 :: commas (y :: rest) := by
  rw [commas, commas, List.flatMap_cons]
  rfl

theorem commas_singleton (x : Bytes) : commas [x] = x := List.append_nil x

/-- A byte that is no control character is escaped by its letter, or stands for itself. -/
theorem escapeByte_spec {b : UInt8} (h : isControl b = false) :
    (∃ c, shortEscape c = some b ∧ escapeByte b = [92, c]) ∨ Unescaped b ∧ escapeByte b = [b] := by
  unfold escapeByte
  split_ifs with h₁ h₂ h₃ h₄ h₅
  · subst h₁
    exact .inl ⟨34, rfl, rfl⟩
  · subst h₂
    exact .inl ⟨92, rfl, rfl⟩
  · subst h₃
    exact .inl ⟨110, rfl, rfl⟩
  · subst h₄
    exact .inl ⟨114, rfl, rfl⟩
  · subst h₅
    exact .inl ⟨116, rfl, rfl⟩
  · refine .inr ⟨⟨?_, h₁, h₂⟩, rfl⟩
    by_contra hlt
    rw [isControl, decide_eq_true (UInt8.not_le.mp hlt), Bool.true_and, Bool.not_eq_false'] at h
    simp only [isBlank, Bool.or_eq_true, decide_eq_true_eq] at h
    rcases h with ((rfl | h) | h) | h
    · exact hlt (by decide)
    · exact h₅ h
    · exact h₃ h
    · exact h₄ h

theorem characters_escape {s : Bytes} (h : NoControl s) :
    Characters (s.map CodeUnit.byte) (escape s) := by
  induction s with
  | nil => exact .nil
  | cons b s ih =>
    have hs := ih fun c hc => h c (List.mem_cons_of_mem _ hc)
    rw [List.map_cons, escape_cons]
    rcases escapeByte_spec (h b List.mem_cons_self) with ⟨c, hc, heq⟩ | ⟨hb, heq⟩
    · rw [heq]
      exact .short hc hs
    · rw [heq]
      exact .plain hb hs

theorem decode_bytes (s : Bytes) : decode (s.map CodeUnit.byte) = s := by
  induction s with
  | nil => rfl
  | cons b s ih => rw [List.map_cons, decode, ih]

theorem quoted_quote {s : Bytes} (h : NoControl s) : Quoted s (quote s) :=
  ⟨s.map CodeUnit.byte, escape s, characters_escape h, (decode_bytes s).symm, rfl⟩

theorem blank_nil : Blank [] := fun _ hb => absurd hb List.not_mem_nil

theorem denotes_element {v : JsonValue} {text : Bytes} (h : Denotes (.value v) text) :
    Denotes (.element v) text := by
  have helement := Denotes.element blank_nil h blank_nil
  rw [List.nil_append, List.append_nil] at helement
  exact helement

/-- Items with commas between them, for whatever a list of items is derived from its parts by. -/
theorem derived_commas {α : Type} (One : α → Bytes → Prop) (Many : List α → Bytes → Prop)
    {f : α → Bytes} {items : List α} (last : ∀ {a t}, One a t → Many [a] t)
    (next : ∀ {a items t u}, One a t → Many items u → Many (a :: items) (t ++ 44 :: u))
    (hne : items ≠ []) (h : ∀ a ∈ items, One a (f a)) : Many items (commas (items.map f)) := by
  induction items with
  | nil => exact absurd rfl hne
  | cons a items ih =>
    have ha := h a List.mem_cons_self
    cases items with
    | nil =>
      rw [List.map_singleton, commas_singleton]
      exact last ha
    | cons b items =>
      rw [List.map_cons, List.map_cons, commas_cons_cons]
      exact next ha (ih (List.cons_ne_nil _ _) fun a ha => h a (List.mem_cons_of_mem _ ha))

theorem denotes_member {m : Bytes × JsonValue} (hname : NoControl m.1)
    (h : Denotes (.value m.2) (print m.2)) : Denotes (.member m) (printMember m) := by
  have hmember := Denotes.member blank_nil (quoted_quote hname) blank_nil (denotes_element h)
  rw [List.nil_append, List.append_nil] at hmember
  exact hmember

theorem denotes_print {v : JsonValue} (h : Built NoControl v) : Denotes (.value v) (print v) := by
  induction h with
  | scalar h =>
    rw [print_scalar h]
    exact .scalar h
  | string h =>
    rw [print_string]
    exact .string (quoted_quote h)
  | @array items _ ih =>
    rw [print_array]
    by_cases hne : items = []
    · rw [hne]
      exact .noItems blank_nil
    · exact .array (derived_commas (fun v => Denotes (.element v)) (fun items => Denotes (.elements items))
        Denotes.lastItem Denotes.nextItem hne fun v hv => denotes_element (ih v hv))
  | @object members hname _ ih =>
    rw [print_object]
    by_cases hne : members = []
    · rw [hne]
      exact .noMembers blank_nil
    · exact .object (derived_commas (fun m => Denotes (.member m)) (fun ms => Denotes (.members ms))
        Denotes.lastMember Denotes.nextMember hne fun m hm =>
          denotes_member (hname m hm).noControl (ih m hm))

theorem mem_escape_of_isControl {s : Bytes} {b : UInt8} (hb : isControl b = true) (h : b ∈ s) :
    b ∈ escape s := by
  refine List.mem_flatMap.mpr ⟨b, h, ?_⟩
  rcases escapeByte_cases b with ⟨hspecial, -⟩ | ⟨-, heq⟩
  · rcases hspecial with rfl | rfl | rfl | rfl | rfl <;> cases hb
  · rw [heq]
    exact List.mem_singleton_self b

theorem noControl_of_quote {s : Bytes} (h : ∀ b ∈ quote s, isControl b = false) : NoControl s := by
  intro b hb
  rw [Bool.eq_false_iff]
  intro hcontrol
  have hmem : b ∈ quote s :=
    List.mem_cons_of_mem _ (List.mem_append_left _ (mem_escape_of_isControl hcontrol hb))
  rw [h b hmem] at hcontrol
  cases hcontrol

theorem mem_commas {items : List Bytes} {item : Bytes} {b : UInt8} (hitem : item ∈ items)
    (hb : b ∈ item) : b ∈ commas items := by
  cases items with
  | nil => cases hitem
  | cons first items =>
    rcases List.mem_cons.mp hitem with rfl | hitem
    · exact List.mem_append_left _ hb
    · exact List.mem_append_right _ (List.mem_flatMap.mpr ⟨item, hitem, List.mem_cons_of_mem _ hb⟩)

theorem noControl_of_print {P : Bytes → Prop} {v : JsonValue} (hv : Built P v)
    (h : ∀ b ∈ print v, isControl b = false) : Built NoControl v := by
  induction hv with
  | scalar hscalar => exact .scalar hscalar
  | string _ =>
    rw [print_string] at h
    exact .string (noControl_of_quote h)
  | @array items _ ih =>
    rw [print_array] at h
    refine .array fun v hv => ih v hv fun b hb => h b ?_
    exact List.mem_cons_of_mem _ (List.mem_append_left _ (mem_commas (List.mem_map_of_mem hv) hb))
  | @object members hname _ ih =>
    rw [print_object] at h
    refine .object hname fun m hm => ih m hm fun b hb => h b ?_
    have hmember : b ∈ printMember m := List.mem_append_right _ (List.mem_cons_of_mem _ hb)
    exact List.mem_cons_of_mem _ (List.mem_append_left _ (mem_commas (List.mem_map_of_mem hm) hmember))

theorem utf8_cons {b : UInt8} {s : Bytes} (hb : b < 128) (hs : Utf8 s) : Utf8 (b :: s) :=
  (Utf8.singleton hb).append hs

/-- The bytes of other characters than those of ASCII are not escaped. -/
theorem escape_encode {c : Char} (h : 128 ≤ c.toNat) :
    escape (String.utf8EncodeChar c) = String.utf8EncodeChar c := by
  apply escape_plain
  intro b hb
  have hhigh := Utf8.encode_high h hb
  refine ⟨?_, ?_, ?_, ?_, ?_⟩ <;> rintro rfl <;> revert hhigh <;> decide

theorem utf8_escape {s : Bytes} (h : Utf8 s) : Utf8 (escape s) := by
  obtain ⟨chars, rfl⟩ := h
  rw [escape, List.flatMap_assoc]
  apply Utf8.flatMap
  intro c _
  by_cases hc : c.toNat < 128
  · rw [Utf8.encode_ascii hc, List.flatMap_singleton]
    have hlt : UInt8.ofNat c.toNat < 128 := by
      rw [UInt8.lt_iff_toNat_lt, UInt8.toNat_ofNat']
      exact Nat.lt_of_le_of_lt (Nat.mod_le _ _) hc
    apply Utf8.of_ascii
    intro b hb
    unfold escapeByte at hb
    split_ifs at hb <;> simp only [List.mem_cons, List.not_mem_nil, or_false] at hb
    iterate 5 (rcases hb with rfl | rfl <;> decide)
    rw [hb]
    exact hlt
  · have hescape : (String.utf8EncodeChar c).flatMap escapeByte = String.utf8EncodeChar c :=
      escape_encode (Nat.not_lt.mp hc)
    rw [hescape]
    exact ⟨[c], (List.flatMap_singleton _ _).symm⟩

theorem utf8_quote {s : Bytes} (h : Utf8 s) : Utf8 (quote s) :=
  utf8_cons (by decide) ((utf8_escape h).append (Utf8.singleton (by decide)))

theorem utf8_commas {items : List Bytes} (h : ∀ item ∈ items, Utf8 item) : Utf8 (commas items) := by
  cases items with
  | nil => exact ⟨[], rfl⟩
  | cons first items =>
    refine (h first List.mem_cons_self).append (Utf8.flatMap fun item hitem => ?_)
    exact utf8_cons (by decide) (h item (List.mem_cons_of_mem _ hitem))

theorem utf8_print {v : JsonValue} (h : Built Utf8 v) : Utf8 (print v) := by
  have hclose {text : Bytes} {a b : UInt8} (ha : a < 128) (hb : b < 128) (ht : Utf8 text) :
      Utf8 (a :: (text ++ [b])) := utf8_cons ha (ht.append (Utf8.singleton hb))
  induction h with
  | scalar h =>
    rw [print_scalar h]
    exact Utf8.of_ascii fun b hb => UInt8.lt_of_le_of_lt
      (JsonValue.isScalarByte_bounds ((JsonValue.scalar_bytes h).2 b hb)).2 (by decide)
  | string h =>
    rw [print_string]
    exact utf8_quote h
  | @array items _ ih =>
    rw [print_array]
    refine hclose (by decide) (by decide) (utf8_commas fun item hitem => ?_)
    obtain ⟨v, hv, rfl⟩ := List.mem_map.mp hitem
    exact ih v hv
  | @object members hname _ ih =>
    rw [print_object]
    refine hclose (by decide) (by decide) (utf8_commas fun item hitem => ?_)
    obtain ⟨m, hm, rfl⟩ := List.mem_map.mp hitem
    exact (utf8_quote (hname m hm).utf8).append (utf8_cons (by decide) (ih m hm))

theorem length_escapeByte_le (b : UInt8) : (escapeByte b).length ≤ 2 := by
  rcases escapeByte_cases b with ⟨-, c, heq⟩ | ⟨-, heq⟩ <;> rw [heq]
  · exact Nat.le_refl _
  · exact Nat.le_succ _

/-- Only characters below 128 are escaped, and those are one byte. -/
theorem length_escape_encodeCode (c : Nat) : (escape (encodeCode c)).length ≤ 4 := by
  unfold encodeCode
  split_ifs with hvalid
  · by_cases hascii : (Char.ofNat c).toNat < 128
    · rw [Utf8.encode_ascii hascii, escape, List.flatMap_singleton]
      exact Nat.le_trans (length_escapeByte_le _) (by decide)
    · rw [escape_encode (Nat.not_lt.mp hascii), String.length_utf8EncodeChar]
      exact Char.utf8Size_le_four _
  · decide

def unitLength : CodeUnit → Nat
  | .byte b => (escapeByte b).length
  | .code _ => 6

theorem length_escape_decode (units : List CodeUnit) :
    (escape (decode units)).length ≤ (units.map unitLength).sum := by
  have happend (s t : Bytes) : (escape (s ++ t)).length = (escape s).length + (escape t).length := by
    rw [escape, List.flatMap_append, List.length_append]
    rfl
  induction units using JsonValue.decode.induct with
  | case1 => exact Nat.le_refl _
  | case2 b units ih =>
    rw [decode, escape_cons, List.length_append, List.map_cons, List.sum_cons]
    exact Nat.add_le_add_left ih _
  | case3 c d rest hpair ih =>
    have hle := length_escape_encodeCode (0x10000 + 1024 * (c - 0xD800) + (d - 0xDC00))
    rw [decode]
    simp only [if_pos hpair, happend, List.map_cons, List.sum_cons, unitLength]
    omega
  | case4 c d rest hpair ih =>
    have hle := length_escape_encodeCode c
    rw [decode]
    simp only [if_neg hpair, happend, List.map_cons, List.sum_cons, unitLength] at ih ⊢
    omega
  | case5 c units hsingle ih =>
    have hle := length_escape_encodeCode c
    rw [decode, happend, List.map_cons, List.sum_cons, unitLength]
    · omega
    · exact hsingle

theorem escapeByte_unescaped {b : UInt8} (h : Unescaped b) : escapeByte b = [b] := by
  rcases escapeByte_cases b with ⟨hspecial, -⟩ | ⟨-, heq⟩
  · obtain ⟨hle, h34, h92⟩ := h
    rcases hspecial with rfl | rfl | rfl | rfl | rfl
    · exact absurd rfl h34
    · exact absurd rfl h92
    all_goals
      revert hle
      decide
  · exact heq

/-- Only plain text is not longer when it has been escaped. -/
theorem plain_of_length_escape_le {s : Bytes} (h : (escape s).length ≤ s.length) : Plain s := by
  induction s with
  | nil => exact fun b hb => absurd hb List.not_mem_nil
  | cons b s ih =>
    have hle := length_le_length_escape s
    rw [escape_cons, List.length_append, List.length_cons] at h
    rcases escapeByte_cases b with ⟨-, c, heq⟩ | ⟨hplain, heq⟩
    · rw [heq, List.length_cons, List.length_singleton] at h
      omega
    · rw [heq, List.length_singleton] at h
      exact List.forall_mem_cons.mpr ⟨hplain, ih (by omega)⟩

theorem verbatim_iff {s : Bytes} : Verbatim s ↔ NoControl s ∧ Plain s := by
  constructor
  · intro h
    refine ⟨fun b hb => JsonValue.isControl_of_le (h b hb).1, escape_eq_self_iff.mp ?_⟩
    rw [escape, List.flatMap_congr fun b hb => escapeByte_unescaped (h b hb)]
    exact List.flatMap_singleton' s
  · rintro ⟨hcontrol, hplain⟩ b hb
    obtain ⟨h34, h92, h10, h13, h9⟩ := hplain b hb
    rcases escapeByte_spec (hcontrol b hb) with ⟨c, -, heq⟩ | ⟨hunescaped, -⟩
    · unfold escapeByte at heq
      rw [if_neg h34, if_neg h92, if_neg h10, if_neg h13, if_neg h9] at heq
      cases heq
    · exact hunescaped

theorem length_units_le {units : List CodeUnit} {text : Bytes} (h : Characters units text) :
    (units.map unitLength).sum ≤ text.length := by
  induction h with
  | nil => exact Nat.le_refl _
  | @plain b units text hb _ ih =>
    simp only [List.map_cons, List.sum_cons, unitLength, escapeByte_unescaped hb, List.length_cons,
      List.length_nil]
    omega
  | @short c b units text _ _ ih =>
    have hle := length_escapeByte_le b
    simp only [List.map_cons, List.sum_cons, unitLength, List.length_cons]
    omega
  | unicode _ _ ih =>
    simp only [List.map_cons, List.sum_cons, unitLength, List.length_cons]
    omega

theorem length_quote (s : Bytes) : (quote s).length = (escape s).length + 2 := by
  rw [quote, List.length_cons, List.length_append, List.length_singleton]

theorem length_quote_le {s text : Bytes} (h : Quoted s text) : (quote s).length ≤ text.length := by
  obtain ⟨units, body, hbody, rfl, rfl⟩ := h
  have hdecode := length_escape_decode units
  have hunits := length_units_le hbody
  simp only [length_quote, List.length_cons, List.length_append, List.length_nil]
  omega

/-- What `print` makes of a part of the grammar. -/
def printPart : Part → Bytes
  | .value v | .element v => print v
  | .elements items => commas (items.map print)
  | .member m => printMember m
  | .members ms => commas (ms.map printMember)

theorem length_commas_cons_le (x : Bytes) (items : List Bytes) :
    (commas (x :: items)).length ≤ x.length + 1 + (commas items).length := by
  cases items with
  | nil =>
    rw [commas_singleton]
    omega
  | cons y items =>
    rw [commas_cons_cons, List.length_append, List.length_cons]
    omega

/-- Nothing that denotes a value is shorter than its printed text. -/
theorem length_print_le {p : Part} {text : Bytes} (h : Denotes p text) :
    (printPart p).length ≤ text.length := by
  induction h with
  | scalar h =>
    rw [printPart, print_scalar h]
  | string h =>
    rw [printPart, print_string]
    exact length_quote_le h
  | noItems _ =>
    simp [printPart, commas]
  | noMembers _ =>
    simp [printPart, commas]
  | array _ ih =>
    simp only [printPart, print_array, List.length_cons, List.length_append] at ih ⊢
    omega
  | object _ ih =>
    simp only [printPart, print_object, List.length_cons, List.length_append] at ih ⊢
    omega
  | element _ _ _ ih =>
    simp only [printPart, List.length_append] at ih ⊢
    omega
  | lastItem _ ih =>
    simp only [printPart, List.map_cons, List.map_nil, commas_singleton] at ih ⊢
    exact ih
  | @nextItem v items text more _ _ ih ihmore =>
    have hle := length_commas_cons_le (print v) (items.map print)
    simp only [printPart, List.map_cons, List.length_append, List.length_cons] at ih ihmore ⊢
    omega
  | member _ hname _ _ ih =>
    have hle := length_quote_le hname
    simp only [printPart, printMember, List.length_append, List.length_cons] at ih ⊢
    omega
  | lastMember _ ih =>
    simp only [printPart, List.map_cons, List.map_nil, commas_singleton] at ih ⊢
    exact ih
  | @nextMember m ms text more _ _ ih ihmore =>
    have hle := length_commas_cons_le (printMember m) (ms.map printMember)
    simp only [printPart, List.map_cons, List.length_append, List.length_cons] at ih ihmore ⊢
    omega

end Json
end MyEtcd
