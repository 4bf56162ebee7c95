import MyEtcd.Library.JsonGrammar

/-! A reader of JSON texts that accepts what the grammar derives, with the same value.
A text has therefore no more than one value. -/
namespace MyEtcd.Library
namespace JsonValue

/-- Reads the body of a string up to its closing quote. -/
def readCharacters : List UInt8 → Option (List CodeUnit × List UInt8)
  | [] => none
  | b :: text =>
    if b = 34 then some ([], text)
    else if b = 92 then
      match text with
      | [] => none
      | c :: text =>
        if c = 117 then
          match text with
          | x :: y :: z :: w :: text =>
            (fourDigits x y z w).bind fun c =>
              (readCharacters text).map fun r => (.code c :: r.1, r.2)
          | _ => none
        else
          (shortEscape c).bind fun b => (readCharacters text).map fun r => (.byte b :: r.1, r.2)
    else if b < 32 then none
    else (readCharacters text).map fun r => (.byte b :: r.1, r.2)

def readString : List UInt8 → Option (List UInt8 × List UInt8)
  | [] => none
  | b :: text =>
    if b = 34 then (readCharacters text).map fun r => (decode r.1, r.2) else none

def skipBlanks (text : List UInt8) : List UInt8 := text.dropWhile isBlank

/-- Reads items between commas, up to the closing byte. -/
def readList {α : Type} (item : List UInt8 → Option (α × List UInt8))
    (more : List UInt8 → Option (List α × List UInt8)) (close : UInt8) (text : List UInt8) :
    Option (List α × List UInt8) :=
  (item text).bind fun r =>
    if r.2.head? = some 44 then (more r.2.tail).map fun others => (r.1 :: others.1, others.2)
    else if r.2.head? = some close then some ([r.1], r.2.tail)
    else none

def readBody {α : Type} (items : List UInt8 → Option (List α × List UInt8)) (close : UInt8)
    (text : List UInt8) : Option (List α × List UInt8) :=
  if (skipBlanks text).head? = some close then some ([], (skipBlanks text).tail) else items text

mutual

/-- The number bounds how deep the calls may go. -/
def readValue : Nat → List UInt8 → Option (JsonValue × List UInt8)
  | 0, _ => none
  | n + 1, text =>
    if text.head? = some 34 then (readString text).map fun r => (string r.1, r.2)
    else if text.head? = some 91 then
      (readBody (readElements n) 93 text.tail).map fun r => (array r.1, r.2)
    else if text.head? = some 123 then
      (readBody (readMembers n) 125 text.tail).map fun r => (object r.1, r.2)
    else (scalar (text.takeWhile isScalarByte)).map fun v => (v, text.dropWhile isScalarByte)

def readElement : Nat → List UInt8 → Option (JsonValue × List UInt8)
  | 0, _ => none
  | n + 1, text => (readValue n (skipBlanks text)).map fun r => (r.1, skipBlanks r.2)

def readElements : Nat → List UInt8 → Option (List JsonValue × List UInt8)
  | 0, _ => none
  | n + 1, text => readList (readElement n) (readElements n) 93 text

def readMember : Nat → List UInt8 → Option ((List UInt8 × JsonValue) × List UInt8)
  | 0, _ => none
  | n + 1, text =>
    (readString (skipBlanks text)).bind fun name =>
      if (skipBlanks name.2).head? = some 58 then
        (readElement n (skipBlanks name.2).tail).map fun r => ((name.1, r.1), r.2)
      else none

def readMembers : Nat → List UInt8 → Option (List (List UInt8 × JsonValue) × List UInt8)
  | 0, _ => none
  | n + 1, text => readList (readMember n) (readMembers n) 125 text

end

def parse (text : List UInt8) : Option JsonValue :=
  (readElement (3 * text.length + 1) text).bind fun r => if r.2 = [] then some r.1 else none

variable {v : JsonValue} {p : Part} {s text rest : List UInt8} {units : List CodeUnit}

theorem readCharacters_quote (text : List UInt8) : readCharacters (34 :: text) = some ([], text) := by
  rw [readCharacters.eq_def]
  exact if_pos rfl

theorem readCharacters_plain {b : UInt8} (h : Unescaped b) (text : List UInt8) :
    readCharacters (b :: text) = (readCharacters text).map fun r => (.byte b :: r.1, r.2) := by
  rw [readCharacters.eq_def]
  simp only [if_neg h.2.1, if_neg h.2.2, if_neg (UInt8.not_lt.mpr h.1)]

theorem readCharacters_short {b c : UInt8} (h : shortEscape c = some b) (text : List UInt8) :
    readCharacters (92 :: c :: text) = (readCharacters text).map fun r => (.byte b :: r.1, r.2) := by
  have hne : ¬ c = 117 := by
    rintro rfl
    cases h
  rw [readCharacters.eq_def]
  simp only [if_neg (show ¬ (92 : UInt8) = 34 by decide), if_pos, if_neg hne, h, Option.bind_some]

theorem readCharacters_unicode {x y z w : UInt8} {c : Nat} (h : fourDigits x y z w = some c)
    (text : List UInt8) : readCharacters (92 :: 117 :: x :: y :: z :: w :: text) =
      (readCharacters text).map fun r => (.code c :: r.1, r.2) := by
  rw [readCharacters.eq_def]
  simp only [if_neg (show ¬ (92 : UInt8) = 34 by decide), if_pos, h, Option.bind_some]

theorem readCharacters_complete (h : Characters units text) (rest : List UInt8) :
    readCharacters (text ++ 34 :: rest) = some (units, rest) := by
  induction h with
  | nil => exact readCharacters_quote rest
  | plain h _ ih => rw [List.cons_append, readCharacters_plain h, ih, Option.map_some]
  | short h _ ih =>
    rw [List.cons_append, List.cons_append, readCharacters_short h, ih, Option.map_some]
  | unicode h _ ih =>
    simp only [List.cons_append]
    rw [readCharacters_unicode h, ih, Option.map_some]

theorem readString_complete (h : Quoted s text) (rest : List UInt8) :
    readString (text ++ rest) = some (s, rest) := by
  obtain ⟨units, body, hbody, rfl, rfl⟩ := h
  rw [List.cons_append, List.append_assoc, readString, if_pos rfl, List.singleton_append,
    readCharacters_complete hbody]
  rfl

theorem skipBlanks_append (h : Blank s) (text : List UInt8) :
    skipBlanks (s ++ text) = skipBlanks text := by
  induction s with
  | nil => rfl
  | cons b s ih =>
    rw [List.cons_append, skipBlanks, List.dropWhile_cons_of_pos (h b List.mem_cons_self)]
    exact ih fun c hc => h c (List.mem_cons_of_mem _ hc)

theorem skipBlanks_self (h : ∀ b ∈ text.head?, isBlank b = false) : skipBlanks text = text := by
  cases text with
  | nil => rfl
  | cons b text =>
    rw [skipBlanks, List.dropWhile_cons_of_neg]
    rw [h b rfl]
    exact Bool.false_ne_true

def Opens (text : List UInt8) : Prop :=
  ∃ b more, text = b :: more ∧ isBlank b = false ∧ b ≠ 93 ∧ b ≠ 125

theorem Quoted.opens (h : Quoted s text) : Opens text := by
  obtain ⟨units, body, -, -, rfl⟩ := h
  exact ⟨34, _, rfl, rfl, by decide, by decide⟩

theorem isScalarByte_spec {b : UInt8} (h : isScalarByte b = true) :
    isBlank b = false ∧ b ≠ 34 ∧ b ≠ 91 ∧ b ≠ 93 ∧ b ≠ 123 ∧ b ≠ 125 := by
  refine ⟨?_, ?_, ?_, ?_, ?_, ?_⟩
  · rw [Bool.eq_false_iff]
    intro hblank
    simp only [isBlank, Bool.or_eq_true, decide_eq_true_eq] at hblank
    rcases hblank with ((rfl | rfl) | rfl) | rfl <;> cases h
  all_goals
    rintro rfl
    cases h

theorem Denotes.opens (h : Denotes (.value v) text) : Opens text := by
  cases h with
  | scalar h =>
    obtain ⟨hne, hbytes⟩ := scalar_bytes h
    obtain ⟨b, more, rfl⟩ := List.exists_cons_of_ne_nil hne
    obtain ⟨hblank, -, -, h93, -, h125⟩ := isScalarByte_spec (hbytes b List.mem_cons_self)
    exact ⟨b, more, rfl, hblank, h93, h125⟩
  | string h => exact h.opens
  | noItems _ | array _ => exact ⟨91, _, rfl, rfl, by decide, by decide⟩
  | noMembers _ | object _ => exact ⟨123, _, rfl, rfl, by decide, by decide⟩

/-- After leading blanks, items and members go on with the beginning of a value. -/
theorem Denotes.opens_behind (h : Denotes p text) :
    ∃ u more, text = u ++ more ∧ Blank u ∧ Opens more := by
  have hnone : Blank [] := fun b hb => absurd hb List.not_mem_nil
  have hmore {more : List UInt8} (tail : List UInt8) (h : Opens more) : Opens (more ++ tail) := by
    obtain ⟨b, text, rfl, hb⟩ := h
    exact ⟨b, text ++ tail, rfl, hb⟩
  induction h with
  | scalar h => exact ⟨[], _, rfl, hnone, (Denotes.scalar h).opens⟩
  | string h => exact ⟨[], _, rfl, hnone, h.opens⟩
  | noItems h => exact ⟨[], _, rfl, hnone, (Denotes.noItems h).opens⟩
  | array h _ => exact ⟨[], _, rfl, hnone, (Denotes.array h).opens⟩
  | noMembers h => exact ⟨[], _, rfl, hnone, (Denotes.noMembers h).opens⟩
  | object h _ => exact ⟨[], _, rfl, hnone, (Denotes.object h).opens⟩
  | element hu h _ _ => exact ⟨_, _, List.append_assoc .., hu, hmore _ h.opens⟩
  | lastItem _ ih | lastMember _ ih => exact ih
  | nextItem _ _ ih _ | nextMember _ _ ih _ =>
    obtain ⟨u, more, rfl, hu, hopens⟩ := ih
    exact ⟨u, _, List.append_assoc .., hu, hmore _ hopens⟩
  | @member s v u name w text hu hname _ _ _ =>
    exact ⟨u, name ++ (w ++ 58 :: text), by simp only [List.append_assoc], hu, hmore _ hname.opens⟩

/-- What may stand behind a value. -/
def Stops (rest : List UInt8) : Prop := ∀ b ∈ rest.head?, isScalarByte b = false

/-- What stands behind an element, if anything does. -/
def Closes (rest : List UInt8) : Prop := ∀ b ∈ rest.head?, b = 44 ∨ b = 93 ∨ b = 125

theorem Closes.stops (h : Closes rest) : Stops rest := by
  intro b hb
  rcases h b hb with rfl | rfl | rfl <;> rfl

theorem Closes.skipBlanks_self (h : Closes rest) : skipBlanks rest = rest := by
  refine JsonValue.skipBlanks_self fun b hb => ?_
  rcases h b hb with rfl | rfl | rfl <;> rfl

theorem Stops.append_blank {w : List UInt8} (hw : Blank w) (h : Stops rest) : Stops (w ++ rest) := by
  cases w with
  | nil => exact h
  | cons b w =>
    intro c hc
    have hblank : isBlank c = true := Option.some.inj hc ▸ hw b List.mem_cons_self
    rw [Bool.eq_false_iff]
    intro hscalar
    rw [(isScalarByte_spec hscalar).1] at hblank
    cases hblank

theorem closes_cons {b : UInt8} (h : b = 44 ∨ b = 93 ∨ b = 125) (rest : List UInt8) :
    Closes (b :: rest) := by
  intro c hc
  exact Option.some.inj hc ▸ h

/-- The reader of a part comes to what the part denotes, in front of whatever may follow. -/
def Part.Read : Part → List UInt8 → Prop
  | .value v, text => ∀ n rest, 3 * text.length ≤ n → Stops rest →
    readValue n (text ++ rest) = some (v, rest)
  | .element v, text => ∀ n rest, 3 * text.length + 1 ≤ n → Closes rest →
    readElement n (text ++ rest) = some (v, rest)
  | .elements items, text => ∀ n rest, 3 * text.length + 2 ≤ n →
    readElements n (text ++ 93 :: rest) = some (items, rest)
  | .member m, text => ∀ n rest, 3 * text.length + 1 ≤ n → Closes rest →
    readMember n (text ++ rest) = some (m, rest)
  | .members ms, text => ∀ n rest, 3 * text.length + 2 ≤ n →
    readMembers n (text ++ 125 :: rest) = some (ms, rest)

theorem read_scalar {n : Nat} (h : scalar text = some v) (hrest : Stops rest) :
    readValue (n + 1) (text ++ rest) = some (v, rest) := by
  obtain ⟨hne, hbytes⟩ := scalar_bytes h
  obtain ⟨b, more, rfl⟩ := List.exists_cons_of_ne_nil hne
  obtain ⟨-, h34, h91, -, h123, -⟩ := isScalarByte_spec (hbytes b List.mem_cons_self)
  have hhead {c : UInt8} (hc : b ≠ c) : ¬ (b :: more ++ rest).head? = some c :=
    fun heq => hc (Option.some.inj heq)
  have hstop : rest.takeWhile isScalarByte = [] ∧ rest.dropWhile isScalarByte = rest := by
    cases rest with
    | nil => exact ⟨rfl, rfl⟩
    | cons c rest =>
      have hc : ¬ isScalarByte c = true := by
        rw [hrest c rfl]
        exact Bool.false_ne_true
      exact ⟨List.takeWhile_cons_of_neg hc, List.dropWhile_cons_of_neg hc⟩
  rw [readValue, if_neg (hhead h34), if_neg (hhead h91), if_neg (hhead h123),
    List.takeWhile_append_of_pos hbytes, List.dropWhile_append_of_pos hbytes, hstop.1, hstop.2,
    List.append_nil, h, Option.map_some]

theorem skipBlanks_opens {u : List UInt8} (hu : Blank u) (h : Opens text) (rest : List UInt8) :
    skipBlanks (u ++ (text ++ rest)) = text ++ rest := by
  obtain ⟨b, more, rfl, hblank, -⟩ := h
  rw [skipBlanks_append hu]
  refine skipBlanks_self fun c hc => ?_
  exact Option.some.inj hc ▸ hblank

theorem Denotes.head?_skipBlanks (h : Denotes p text) (rest : List UInt8) :
    (skipBlanks (text ++ rest)).head? ≠ some 93 ∧ (skipBlanks (text ++ rest)).head? ≠ some 125 := by
  obtain ⟨u, more, rfl, hu, hopens⟩ := h.opens_behind
  rw [List.append_assoc, skipBlanks_opens hu hopens]
  obtain ⟨b, tail, rfl, -, h93, h125⟩ := hopens
  exact ⟨fun heq => h93 (Option.some.inj heq), fun heq => h125 (Option.some.inj heq)⟩

section
variable {α : Type} {n : Nat} {u w : List UInt8} {close : UInt8} {item : List UInt8 → Option (α × List UInt8)}
  {more : List UInt8 → Option (List α × List UInt8)}

theorem readList_last {a : α} (hclose : close ≠ 44)
    (h : item (text ++ close :: rest) = some (a, close :: rest)) :
    readList item more close (text ++ close :: rest) = some ([a], rest) := by
  have hhead : ¬ (close :: rest).head? = some 44 := fun heq => hclose (Option.some.inj heq)
  rw [readList, h, Option.bind_some, if_neg hhead, if_pos List.head?_cons, List.tail_cons]

theorem readList_next {a : α} {others : List α} (h : item (text ++ 44 :: s) = some (a, 44 :: s))
    (hmore : more s = some (others, rest)) :
    readList item more close (text ++ 44 :: s) = some (a :: others, rest) := by
  rw [readList, h, Option.bind_some, if_pos List.head?_cons, List.tail_cons, hmore, Option.map_some]

theorem readBody_empty (hu : Blank u) (hclose : isBlank close = false) :
    readBody more close (u ++ close :: rest) = some ([], rest) := by
  have hskip : skipBlanks (u ++ close :: rest) = close :: rest := by
    rw [skipBlanks_append hu]
    refine skipBlanks_self fun b hb => ?_
    exact Option.some.inj hb ▸ hclose
  rw [readBody, hskip, if_pos List.head?_cons, List.tail_cons]

theorem read_string (h : Quoted s text) (rest : List UInt8) :
    readValue (n + 1) (text ++ rest) = some (string s, rest) := by
  have hhead : (text ++ rest).head? = some 34 := by
    obtain ⟨units, body, -, -, rfl⟩ := h
    rfl
  rw [readValue, if_pos hhead, readString_complete h, Option.map_some]

theorem read_array {items : List JsonValue}
    (h : readBody (readElements n) 93 (text ++ 93 :: rest) = some (items, rest)) :
    readValue (n + 1) (91 :: (text ++ [93]) ++ rest) = some (array items, rest) := by
  have htail : (91 :: (text ++ [93]) ++ rest).tail = text ++ 93 :: rest := by
    rw [List.cons_append, List.tail_cons, List.append_assoc, List.singleton_append]
  rw [readValue, if_neg (by simp), if_pos (by simp), htail, h, Option.map_some]

theorem read_object {ms : List (List UInt8 × JsonValue)}
    (h : readBody (readMembers n) 125 (text ++ 125 :: rest) = some (ms, rest)) :
    readValue (n + 1) (123 :: (text ++ [125]) ++ rest) = some (object ms, rest) := by
  have htail : (123 :: (text ++ [125]) ++ rest).tail = text ++ 125 :: rest := by
    rw [List.cons_append, List.tail_cons, List.append_assoc, List.singleton_append]
  rw [readValue, if_neg (by simp), if_neg (by simp), if_pos (by simp), htail, h, Option.map_some]

theorem read_element (hu : Blank u) (h : Opens text) (hw : Blank w) (hrest : Closes rest)
    (hvalue : readValue n (text ++ (w ++ rest)) = some (v, w ++ rest)) :
    readElement (n + 1) (u ++ text ++ w ++ rest) = some (v, rest) := by
  rw [readElement, List.append_assoc, List.append_assoc, skipBlanks_opens hu h, hvalue,
    Option.map_some, skipBlanks_append hw, hrest.skipBlanks_self]

theorem read_member {name : List UInt8} (hu : Blank u) (hname : Quoted s name) (hw : Blank w)
    (hvalue : readElement n (text ++ rest) = some (v, rest)) :
    readMember (n + 1) (u ++ name ++ w ++ 58 :: text ++ rest) = some ((s, v), rest) := by
  have hcolon : skipBlanks (w ++ 58 :: (text ++ rest)) = 58 :: (text ++ rest) := by
    rw [skipBlanks_append hw]
    refine skipBlanks_self fun c hc => ?_
    exact Option.some.inj hc ▸ rfl
  simp only [List.append_assoc, List.cons_append]
  rw [readMember, skipBlanks_opens hu hname.opens, readString_complete hname, Option.bind_some]
  simp only [hcolon, List.head?_cons, if_true, List.tail_cons]
  rw [hvalue, Option.map_some]

end

/-- What the grammar derives is read, whatever follows. Every call of a reader inside another is for a
shorter text or on the way from a list to an item to its value. -/
theorem Denotes.read (h : Denotes p text) : p.Read text := by
  have hpos {n k : Nat} (hn : k + 1 ≤ n) : ∃ m, n = m + 1 ∧ k ≤ m := ⟨n - 1, by omega, by omega⟩
  have hopens {v : JsonValue} {text : List UInt8} (h : Denotes (.value v) text) :
      0 < text.length := by
    obtain ⟨b, more, rfl, -⟩ := h.opens
    exact Nat.succ_pos _
  induction h with
  | @scalar v text h =>
    intro n rest hn hrest
    have hlength := hopens (.scalar h)
    obtain ⟨m, rfl, -⟩ := hpos (show 0 + 1 ≤ n by omega)
    exact read_scalar h hrest
  | @string s text h =>
    intro n rest hn _
    have hlength := hopens (.string h)
    obtain ⟨m, rfl, -⟩ := hpos (show 0 + 1 ≤ n by omega)
    exact read_string h rest
  | @noItems u hu =>
    intro n rest hn _
    have hlength := hopens (.noItems hu)
    obtain ⟨m, rfl, -⟩ := hpos (show 0 + 1 ≤ n by omega)
    exact read_array (readBody_empty hu rfl)
  | @noMembers u hu =>
    intro n rest hn _
    have hlength := hopens (.noMembers hu)
    obtain ⟨m, rfl, -⟩ := hpos (show 0 + 1 ≤ n by omega)
    exact read_object (readBody_empty hu rfl)
  | @array items text h ih =>
    intro n rest hn _
    simp only [List.length_cons, List.length_append, List.length_nil] at hn
    obtain ⟨m, rfl, hm⟩ := hpos (show (3 * text.length + 2) + 1 ≤ n by omega)
    exact read_array ((if_neg (h.head?_skipBlanks _).1).trans (ih m rest hm))
  | @object ms text h ih =>
    intro n rest hn _
    simp only [List.length_cons, List.length_append, List.length_nil] at hn
    obtain ⟨m, rfl, hm⟩ := hpos (show (3 * text.length + 2) + 1 ≤ n by omega)
    exact read_object ((if_neg (h.head?_skipBlanks _).2).trans (ih m rest hm))
  | @element v u text w hu h hw ih =>
    intro n rest hn hrest
    simp only [List.length_append] at hn
    obtain ⟨m, rfl, hm⟩ := hpos (show 3 * text.length + 1 ≤ n by omega)
    exact read_element hu h.opens hw hrest (ih m _ hm (Stops.append_blank hw hrest.stops))
  | @lastItem v text _ ih =>
    intro n rest hn
    obtain ⟨m, rfl, hm⟩ := hpos (show (3 * text.length + 1) + 1 ≤ n by omega)
    exact readList_last (by decide) (ih m (93 :: rest) hm (closes_cons (by simp) rest))
  | @nextItem v items text more _ _ ih ihmore =>
    intro n rest hn
    simp only [List.length_append, List.length_cons] at hn
    obtain ⟨m, rfl, hm⟩ := hpos (show (3 * (text.length + (more.length + 1)) + 1) + 1 ≤ n by omega)
    rw [List.append_assoc, List.cons_append]
    exact readList_next (ih m _ (by omega) (closes_cons (by simp) _)) (ihmore m rest (by omega))
  | @member s v u name w text hu hname hw h ih =>
    intro n rest hn hrest
    simp only [List.length_append, List.length_cons] at hn
    obtain ⟨m, rfl, hm⟩ := hpos (show (3 * text.length + 1) + 1 ≤ n by omega)
    exact read_member hu hname hw (ih m rest hm hrest)
  | @lastMember member text _ ih =>
    intro n rest hn
    obtain ⟨m, rfl, hm⟩ := hpos (show (3 * text.length + 1) + 1 ≤ n by omega)
    exact readList_last (by decide) (ih m (125 :: rest) hm (closes_cons (by simp) rest))
  | @nextMember member ms text more _ _ ih ihmore =>
    intro n rest hn
    simp only [List.length_append, List.length_cons] at hn
    obtain ⟨m, rfl, hm⟩ := hpos (show (3 * (text.length + (more.length + 1)) + 1) + 1 ≤ n by omega)
    rw [List.append_assoc, List.cons_append]
    exact readList_next (ih m _ (by omega) (closes_cons (by simp) _)) (ihmore m rest (by omega))

theorem readCharacters_sound (h : readCharacters text = some (units, rest)) :
    ∃ t, text = t ++ 34 :: rest ∧ Characters units t := by
  have hne : ¬ (92 : UInt8) = 34 := by decide
  induction text using readCharacters.induct generalizing units with
  | case1 => cases h
  | case2 text =>
    rw [readCharacters_quote] at h
    cases h
    exact ⟨[], rfl, .nil⟩
  | case3 => cases h
  | case4 x y z w text _ ih =>
    rw [readCharacters.eq_def] at h
    simp only [if_neg hne, if_pos] at h
    obtain ⟨c, hc, hread⟩ := Option.bind_eq_some_iff.mp h
    obtain ⟨⟨more, behind⟩, hmore, heq⟩ := Option.map_eq_some_iff.mp hread
    cases heq
    obtain ⟨t, rfl, ht⟩ := ih hmore
    exact ⟨92 :: 117 :: x :: y :: z :: w :: t, rfl, .unicode hc ht⟩
  | case5 text _ _ =>
    rw [readCharacters.eq_def] at h
    simp only [if_neg hne, if_pos] at h
    cases h
  | case6 c text hc _ ih =>
    rw [readCharacters.eq_def] at h
    simp only [if_neg hne, if_pos, if_neg hc] at h
    obtain ⟨b, hb, hread⟩ := Option.bind_eq_some_iff.mp h
    obtain ⟨⟨more, behind⟩, hmore, heq⟩ := Option.map_eq_some_iff.mp hread
    cases heq
    obtain ⟨t, rfl, ht⟩ := ih hmore
    exact ⟨92 :: c :: t, rfl, .short hb ht⟩
  | case7 b text h34 h92 hlt =>
    rw [readCharacters.eq_def] at h
    simp only [if_neg h34, if_neg h92, if_pos hlt] at h
    cases h
  | case8 b text h34 h92 hlt ih =>
    rw [readCharacters_plain ⟨UInt8.not_lt.mp hlt, h34, h92⟩] at h
    obtain ⟨⟨more, behind⟩, hread, heq⟩ := Option.map_eq_some_iff.mp h
    cases heq
    obtain ⟨t, rfl, ht⟩ := ih hread
    exact ⟨b :: t, rfl, .plain ⟨UInt8.not_lt.mp hlt, h34, h92⟩ ht⟩

theorem readString_sound (h : readString text = some (s, rest)) :
    ∃ t, text = t ++ rest ∧ Quoted s t := by
  cases text with
  | nil => cases h
  | cons b text =>
    rw [readString] at h
    split_ifs at h with hb
    obtain ⟨⟨units, behind⟩, hread, heq⟩ := Option.map_eq_some_iff.mp h
    cases heq
    obtain ⟨t, rfl, ht⟩ := readCharacters_sound hread
    refine ⟨34 :: (t ++ [34]), ?_, units, t, ht, rfl, rfl⟩
    rw [hb, List.cons_append, List.append_assoc, List.singleton_append]

theorem exists_skipBlanks (text : List UInt8) : ∃ u, text = u ++ skipBlanks text ∧ Blank u :=
  ⟨text.takeWhile isBlank, List.takeWhile_append_dropWhile.symm, fun _ hb => List.mem_takeWhile_imp hb⟩

theorem cons_of_head? {b : UInt8} (h : text.head? = some b) : text = b :: text.tail := by
  cases text with
  | nil => cases h
  | cons c text => rw [Option.some.inj h]; rfl

/-- What the readers have read off a text with `n` calls inside one another is what the grammar derives. -/
structure Sound (n : Nat) : Prop where
  value : ∀ {text v rest}, readValue n text = some (v, rest) →
    ∃ t, text = t ++ rest ∧ Denotes (.value v) t
  element : ∀ {text v rest}, readElement n text = some (v, rest) →
    ∃ t, text = t ++ rest ∧ Denotes (.element v) t
  elements : ∀ {text items rest}, readElements n text = some (items, rest) →
    ∃ t, text = t ++ 93 :: rest ∧ Denotes (.elements items) t
  member : ∀ {text m rest}, readMember n text = some (m, rest) →
    ∃ t, text = t ++ rest ∧ Denotes (.member m) t
  members : ∀ {text ms rest}, readMembers n text = some (ms, rest) →
    ∃ t, text = t ++ 125 :: rest ∧ Denotes (.members ms) t

section
variable {n : Nat} {α : Type} {One : α → List UInt8 → Prop} {Many : List α → List UInt8 → Prop}
  {close : UInt8} {item : List UInt8 → Option (α × List UInt8)}
  {more : List UInt8 → Option (List α × List UInt8)} {items : List α}

theorem readList_sound
    (hitem : ∀ {text a rest}, item text = some (a, rest) → ∃ t, text = t ++ rest ∧ One a t)
    (hmore : ∀ {text items rest}, more text = some (items, rest) →
      ∃ t, text = t ++ close :: rest ∧ Many items t)
    (last : ∀ {a t}, One a t → Many [a] t)
    (next : ∀ {a items t u}, One a t → Many items u → Many (a :: items) (t ++ 44 :: u))
    (h : readList item more close text = some (items, rest)) :
    ∃ t, text = t ++ close :: rest ∧ Many items t := by
  obtain ⟨⟨a, behind⟩, hread, hnext⟩ := Option.bind_eq_some_iff.mp h
  obtain ⟨t, rfl, ht⟩ := hitem hread
  dsimp only at hnext
  split_ifs at hnext with hcomma hclose
  · obtain ⟨⟨others, end'⟩, hothers, heq⟩ := Option.map_eq_some_iff.mp hnext
    cases heq
    obtain ⟨u, hu, hmany⟩ := hmore hothers
    refine ⟨t ++ 44 :: u, ?_, next ht hmany⟩
    rw [List.append_assoc, List.cons_append, ← hu, ← cons_of_head? hcomma]
  · cases hnext
    exact ⟨t, by rw [← cons_of_head? hclose], last ht⟩

theorem readBody_sound
    (hmore : ∀ {text items rest}, more text = some (items, rest) →
      ∃ t, text = t ++ close :: rest ∧ Many items t)
    (h : readBody more close text = some (items, rest)) :
    ∃ t, text = t ++ close :: rest ∧ (items = [] ∧ Blank t ∨ Many items t) := by
  rw [readBody] at h
  split_ifs at h with hnone
  · cases h
    obtain ⟨u, hu, hblank⟩ := exists_skipBlanks text
    refine ⟨u, ?_, .inl ⟨rfl, hblank⟩⟩
    rw [← cons_of_head? hnone]
    exact hu
  · obtain ⟨t, ht, hmany⟩ := hmore h
    exact ⟨t, ht, .inr hmany⟩

theorem Sound.value_succ (ih : Sound n) (h : readValue (n + 1) text = some (v, rest)) :
    ∃ t, text = t ++ rest ∧ Denotes (.value v) t := by
  have henclosed {a b : UInt8} {t : List UInt8} (hhead : text.head? = some a)
      (htail : text.tail = t ++ b :: rest) : text = a :: (t ++ [b]) ++ rest := by
    rw [List.cons_append, List.append_assoc, List.singleton_append, ← htail]
    exact cons_of_head? hhead
  rw [readValue] at h
  split_ifs at h with hquote hbracket hbrace
  · obtain ⟨⟨s, behind⟩, hread, heq⟩ := Option.map_eq_some_iff.mp h
    cases heq
    obtain ⟨t, rfl, ht⟩ := readString_sound hread
    exact ⟨t, rfl, .string ht⟩
  · obtain ⟨⟨items, behind⟩, hread, heq⟩ := Option.map_eq_some_iff.mp h
    cases heq
    obtain ⟨t, htail, ⟨rfl, hblank⟩ | hitems⟩ := readBody_sound ih.elements hread
    · exact ⟨_, henclosed hbracket htail, .noItems hblank⟩
    · exact ⟨_, henclosed hbracket htail, .array hitems⟩
  · obtain ⟨⟨ms, behind⟩, hread, heq⟩ := Option.map_eq_some_iff.mp h
    cases heq
    obtain ⟨t, htail, ⟨rfl, hblank⟩ | hmembers⟩ := readBody_sound ih.members hread
    · exact ⟨_, henclosed hbrace htail, .noMembers hblank⟩
    · exact ⟨_, henclosed hbrace htail, .object hmembers⟩
  · obtain ⟨w, hscalar, heq⟩ := Option.map_eq_some_iff.mp h
    cases heq
    exact ⟨_, List.takeWhile_append_dropWhile.symm, .scalar hscalar⟩

theorem Sound.element_succ (ih : Sound n) (h : readElement (n + 1) text = some (v, rest)) :
    ∃ t, text = t ++ rest ∧ Denotes (.element v) t := by
  rw [readElement] at h
  obtain ⟨⟨w, behind⟩, hread, heq⟩ := Option.map_eq_some_iff.mp h
  cases heq
  obtain ⟨u, hu, hublank⟩ := exists_skipBlanks text
  obtain ⟨t, ht, hvalue⟩ := ih.value hread
  obtain ⟨w, hw, hwblank⟩ := exists_skipBlanks behind
  refine ⟨u ++ t ++ w, ?_, .element hublank hvalue hwblank⟩
  rw [List.append_assoc, List.append_assoc, ← hw, ← ht, ← hu]

theorem Sound.member_succ (ih : Sound n) {m : List UInt8 × JsonValue}
    (h : readMember (n + 1) text = some (m, rest)) :
    ∃ t, text = t ++ rest ∧ Denotes (.member m) t := by
  rw [readMember] at h
  obtain ⟨⟨s, behind⟩, hname, h⟩ := Option.bind_eq_some_iff.mp h
  dsimp only at h
  split_ifs at h with hcolon
  obtain ⟨⟨w, last⟩, hread, heq⟩ := Option.map_eq_some_iff.mp h
  cases heq
  obtain ⟨u, hu, hublank⟩ := exists_skipBlanks text
  obtain ⟨name, htext, hname⟩ := readString_sound hname
  obtain ⟨w, hw, hwblank⟩ := exists_skipBlanks behind
  obtain ⟨t, htail, ht⟩ := ih.element hread
  refine ⟨u ++ name ++ w ++ 58 :: t, ?_, .member hublank hname hwblank ht⟩
  rw [List.append_assoc, List.append_assoc, List.append_assoc, List.cons_append, ← htail,
    ← cons_of_head? hcolon, ← hw, ← htext, ← hu]

theorem sound (n : Nat) : Sound n := by
  induction n with
  | zero => constructor <;> (intro _ _ _ h; cases h)
  | succ n ih =>
    exact ⟨ih.value_succ, ih.element_succ, readList_sound ih.element ih.elements .lastItem .nextItem,
      ih.member_succ, readList_sound ih.member ih.members .lastMember .nextMember⟩

end

/-- The reader accepts a text with the value that it denotes, and no others. -/
theorem parse_eq_some_iff : parse text = some v ↔ Denotes (.element v) text := by
  rw [parse, Option.bind_eq_some_iff]
  constructor
  · rintro ⟨⟨w, rest⟩, hread, h⟩
    dsimp only at h
    split_ifs at h with hrest
    cases h
    obtain ⟨t, ht, hdenotes⟩ := (sound _).element hread
    rw [ht, hrest, List.append_nil]
    exact hdenotes
  · intro h
    have hend : Closes [] := fun b hb => by cases hb
    have hread := h.read (3 * text.length + 1) [] (Nat.le_refl _) hend
    rw [List.append_nil] at hread
    exact ⟨(v, []), hread, if_pos rfl⟩

end JsonValue
end MyEtcd.Library
