import MyEtcd.Common.Types
import MyEtcd.Library.JsonGrammar
import MyEtcd.Library.Search

/-! Compact JSON, and what a search for a name in it comes upon.
Inside a string every quote has a backslash before it, so the name with its quotes is found where
it is a name, however the strings are escaped. -/
namespace MyEtcd
open Library
open Library.JsonValue (Characters CodeUnit)
namespace Json

def escapeByte (b : UInt8) : Bytes :=
  if b = 34 then [92, 34]
  else if b = 92 then [92, 92]
  else if b = 10 then [92, 110]
  else if b = 13 then [92, 114]
  else if b = 9 then [92, 116]
  else [b]

def escape (s : Bytes) : Bytes := s.flatMap escapeByte

def quote (s : Bytes) : Bytes := 34 :: (escape s ++ [34])

def enclose (body : Bytes) : Bytes := 34 :: (body ++ [34])

def member (m : Bytes × Bytes) : Bytes := enclose m.1 ++ 58 :: enclose m.2

def commas : List Bytes → Bytes
  | [] => []
  | x :: rest => x ++ rest.flatMap fun x => 44 :: x

def object (members : List (Bytes × Bytes)) : Bytes :=
  123 :: (commas (members.map member) ++ [125])

def array (items : List Bytes) : Bytes := 91 :: (commas items ++ [93])

def Plain (s : Bytes) : Prop := ∀ b ∈ s, b ≠ 34 ∧ b ≠ 92 ∧ b ≠ 10 ∧ b ≠ 13 ∧ b ≠ 9

instance (s : Bytes) : Decidable (Plain s) := List.decidableBAll _ s

/-- The names of members are written in lower case. -/
def Word (w : Bytes) : Prop := w ≠ [] ∧ ∀ b ∈ w, 97 ≤ b ∧ b ≤ 122

instance (w : Bytes) : Decidable (Word w) := @instDecidableAnd _ _ _ (List.decidableBAll _ w)

/-- The body of a string, in whatever way its characters are escaped. -/
def Body (body : Bytes) : Prop := ∃ units, Characters units body

def Closed (rest : Bytes) : Prop := ∃ c more, rest = c :: more ∧ (c = 44 ∨ c = 93 ∨ c = 125)

/-- A name with its quotes, the colon and what the value begins with. -/
def named (w : Bytes) (x : UInt8) : Bytes := 34 :: (w ++ [34, 58, x])

variable {b x : UInt8} {k w rest : Bytes}

theorem escapeByte_cases (b : UInt8) :
    (b = 34 ∨ b = 92 ∨ b = 10 ∨ b = 13 ∨ b = 9) ∧ (∃ c, escapeByte b = [92, c]) ∨
    (b ≠ 34 ∧ b ≠ 92 ∧ b ≠ 10 ∧ b ≠ 13 ∧ b ≠ 9) ∧ escapeByte b = [b] := by
  unfold escapeByte
  split_ifs with h₁ h₂ h₃ h₄ h₅
  · exact .inl ⟨.inl h₁, _, rfl⟩
  · exact .inl ⟨.inr (.inl h₂), _, rfl⟩
  · exact .inl ⟨.inr (.inr (.inl h₃)), _, rfl⟩
  · exact .inl ⟨.inr (.inr (.inr (.inl h₄))), _, rfl⟩
  · exact .inl ⟨.inr (.inr (.inr (.inr h₅))), _, rfl⟩
  · exact .inr ⟨⟨h₁, h₂, h₃, h₄, h₅⟩, rfl⟩

theorem escape_cons (b : UInt8) (k : Bytes) : escape (b :: k) = escapeByte b ++ escape k :=
  List.flatMap_cons

theorem escape_plain (h : Plain k) : escape k = k := by
  induction k with
  | nil => rfl
  | cons b k ih =>
    have hk : Plain k := fun c hc => h c (List.mem_cons_of_mem _ hc)
    rcases escapeByte_cases b with ⟨hspecial, -⟩ | ⟨-, hb⟩
    · have := h b List.mem_cons_self
      tauto
    · rw [escape_cons, hb, ih hk]
      rfl

theorem length_le_length_escape (k : Bytes) : k.length ≤ (escape k).length := by
  induction k with
  | nil => exact Nat.le_refl _
  | cons b k ih =>
    have hb : 1 ≤ (escapeByte b).length := by
      rcases escapeByte_cases b with ⟨-, c, hb⟩ | ⟨-, hb⟩
      · rw [hb, List.length_cons]
        omega
      · rw [hb, List.length_singleton]
    rw [escape_cons, List.length_append, List.length_cons]
    omega

/-- Only plain text is the same after escaping. -/
theorem escape_eq_self_iff : escape k = k ↔ Plain k := by
  refine ⟨fun h => ?_, escape_plain⟩
  induction k with
  | nil => exact nofun
  | cons b k ih =>
    rw [escape_cons] at h
    rcases escapeByte_cases b with ⟨-, c, hb⟩ | ⟨hplain, hb⟩
    · have hlength := congrArg List.length h
      have hle := length_le_length_escape k
      rw [hb, List.length_append, List.length_cons, List.length_singleton, List.length_cons] at hlength
      omega
    · rw [hb] at h
      rintro c hc
      rcases List.mem_cons.mp hc with rfl | hc
      · exact hplain
      · exact ih (List.cons.inj h).2 c hc

theorem Word.not_mem (h : Word w) : 34 ∉ w ∧ 92 ∉ w := by
  constructor <;> intro hmem <;> exact absurd (h.2 _ hmem) (by decide)

theorem body_nil : Body [] := ⟨[], .nil⟩

theorem Word.body (h : Word w) : Body w := by
  have hletters {w : Bytes} (h : ∀ b ∈ w, 97 ≤ b ∧ b ≤ 122) : Body w := by
    induction w with
    | nil => exact body_nil
    | cons b w ih =>
      obtain ⟨hb, hw⟩ := List.forall_mem_cons.mp h
      obtain ⟨units, hunits⟩ := ih hw
      refine ⟨_, .plain ⟨UInt8.le_trans (by decide) hb.1, ?_, ?_⟩ hunits⟩
      · rintro rfl
        exact absurd hb.1 (by decide)
      · rintro rfl
        exact absurd hb.1 (by decide)
  exact hletters h.2

/-- Digits of a code are no quotes. -/
theorem not_quote_of_fourDigits {x y z v : UInt8} {c : Nat}
    (h : JsonValue.fourDigits x y z v = some c) : 34 ∉ [92, 117, x, y, z, v] := by
  obtain ⟨x', y', z', v', hx, hy, hz, hv, -⟩ := JsonValue.fourDigits_some h
  have hne {b : UInt8} {n : Nat} (hb : JsonValue.hexValue b = some n) : 34 ≠ b := by
    rintro rfl
    cases hb
  simp [hne hx, hne hy, hne hz, hne hv]

/-- Up to its closing quote, a string without escapes is read off the body. -/
theorem body_of_closed {t : Bytes} (hw : 34 ∉ w ∧ 92 ∉ w) (hk : Body k)
    (h : w ++ 34 :: t <+: k ++ 34 :: rest) : k = w ∧ t <+: rest := by
  obtain ⟨units, hk⟩ := hk
  -- an escape in the body does not go with the string
  have hescape {w more : Bytes} (hw : 92 ∉ w) : ¬ w ++ 34 :: t <+: 92 :: more := by
    intro hpat
    cases w with
    | nil => exact absurd (List.cons_prefix_cons.mp hpat).1 (by decide)
    | cons b w => exact hw ((List.cons_prefix_cons.mp hpat).1 ▸ List.mem_cons_self)
  induction hk generalizing w with
  | nil =>
    cases w with
    | nil => exact ⟨rfl, (List.cons_prefix_cons.mp h).2⟩
    | cons b w =>
      exact absurd ((List.cons_prefix_cons.mp h).1 ▸ List.mem_cons_self) hw.1
  | plain hplain _ ih =>
    cases w with
    | nil => exact absurd (List.cons_prefix_cons.mp h).1.symm hplain.2.1
    | cons b w =>
      obtain ⟨rfl, hmore⟩ := List.cons_prefix_cons.mp h
      obtain ⟨rfl, ht⟩ :=
        ih (hw.imp (mt (List.mem_cons_of_mem _)) (mt (List.mem_cons_of_mem _))) hmore
      exact ⟨rfl, ht⟩
  | short => exact absurd h (hescape hw.2)
  | unicode => exact absurd h (hescape hw.2)

theorem rest_of_named (h : named w x <+: 34 :: rest) : w ++ 34 :: [58, x] <+: rest :=
  (List.cons_prefix_cons.mp h).2

/-- The search passes a string that is not the name, or has not got the colon and the beginning of
the value behind it. -/
theorem skips_enclose (hw : Word w) (hk : Body k)
    (hrest : ∃ c more, rest = c :: more ∧ ¬ (97 ≤ c ∧ c ≤ 122))
    (h : ¬ [58, x] <+: rest ∨ 34 ∉ k ∧ k ≠ w) : Skips (named w x) (enclose k) rest := by
  have hbehind {k : Bytes} (hk : Body k) (h : ¬ [58, x] <+: rest ∨ k ≠ w) :
      ¬ named w x <+: 34 :: (k ++ 34 :: rest) := by
    intro hpat
    obtain ⟨hsame, hcolon⟩ := body_of_closed hw.not_mem hk (rest_of_named hpat)
    exact h.elim (fun hno => hno hcolon) fun hne => hne hsame
  have hinside {units : List CodeUnit} {k : Bytes} (hk : Characters units k)
      (h : ¬ [58, x] <+: rest ∨ 34 ∉ k) : Skips (named w x) k (34 :: rest) := by
    have hfirst {b : UInt8} {t rest : Bytes} (hb : b ≠ 34) : ¬ named w x <+: b :: t ++ rest :=
      fun hpat => hb (List.cons_prefix_cons.mp hpat).1.symm
    induction hk with
    | nil => exact skips_nil _ _
    | plain hplain _ ih =>
      exact skips_cons.mpr ⟨hfirst hplain.2.1, ih (h.imp_right (mt (List.mem_cons_of_mem _)))⟩
    | @short c _ _ text _ hchars ih =>
      have htext : ¬ [58, x] <+: rest ∨ 34 ∉ text :=
        h.imp_right fun hno hm => hno (List.mem_cons_of_mem _ (List.mem_cons_of_mem _ hm))
      refine skips_cons.mpr ⟨hfirst (by decide), skips_cons.mpr ⟨?_, ih htext⟩⟩
      by_cases hc : c = 34
      · subst hc
        rcases h with h | hno
        · exact hbehind ⟨_, hchars⟩ (.inl h)
        · exact absurd (List.mem_cons_of_mem _ List.mem_cons_self) hno
      · exact hfirst hc
    | @unicode x' y z v _ _ text hcode _ ih =>
      have htext : ¬ [58, x] <+: rest ∨ 34 ∉ text :=
        h.imp_right fun hno hm => hno (by simp [hm])
      have hsplit : 92 :: 117 :: x' :: y :: z :: v :: text = [92, 117, x', y, z, v] ++ text := rfl
      rw [hsplit, skips_append]
      exact ⟨skips_of_not_mem (not_quote_of_fourDigits hcode), ih htext⟩
  obtain ⟨c, more, rfl, hc⟩ := hrest
  obtain ⟨a, tail, rfl⟩ := List.exists_cons_of_ne_nil hw.1
  obtain ⟨units, hchars⟩ := hk
  refine skips_cons.mpr ⟨?_, skips_append.mpr ⟨hinside hchars (h.imp_right And.left), ?_⟩⟩
  · rw [List.cons_append, List.append_assoc]
    exact hbehind ⟨_, hchars⟩ (h.imp_right And.right)
  · refine skips_cons.mpr ⟨fun hpat => hc ?_, skips_nil _ _⟩
    rw [← (List.cons_prefix_cons.mp (rest_of_named hpat)).1]
    exact hw.2 a List.mem_cons_self

theorem closed_commas (items : List Bytes) (h : Closed rest) :
    Closed ((items.flatMap fun item => 44 :: item) ++ rest) := by
  cases items with
  | nil => exact h
  | cons item items => exact ⟨44, _, rfl, .inl rfl⟩

theorem skips_member {m : Bytes × Bytes} (hw : Word w) (hm : Word m.1 ∧ Body m.2)
    (hrest : Closed rest) (h : x ≠ 34 ∨ m.1 ≠ w) : Skips (named w x) (member m) rest := by
  refine skips_append.mpr ⟨skips_enclose hw hm.1.body ⟨58, _, rfl, by decide⟩ ?_,
    skips_cons.mpr ⟨?_, ?_⟩⟩
  · refine h.imp (fun hx hpat => hx ?_) fun hname => ⟨hm.1.not_mem.1, hname⟩
    exact (List.cons_prefix_cons.mp (List.cons_prefix_cons.mp hpat).2).1
  · exact fun hpat => absurd (List.cons_prefix_cons.mp hpat).1 (by decide)
  · obtain ⟨c, more, rfl, hc⟩ := hrest
    refine skips_enclose hw hm.2 ⟨c, more, rfl, ?_⟩ (.inl fun hpat => ?_)
    · rcases hc with rfl | rfl | rfl <;> decide
    · have hcolon : 58 = c := (List.cons_prefix_cons.mp hpat).1
      subst hcolon
      revert hc
      decide

theorem skips_commas {items : List Bytes} (hrest : Closed rest)
    (h : ∀ item ∈ items, ∀ rest, Closed rest → Skips (named w x) item rest) :
    Skips (named w x) (commas items) rest := by
  have hmore (items : List Bytes)
      (h : ∀ item ∈ items, ∀ rest, Closed rest → Skips (named w x) item rest) :
      Skips (named w x) (items.flatMap fun item => 44 :: item) rest := by
    induction items with
    | nil => exact skips_nil _ _
    | cons item items ih =>
      rw [List.flatMap_cons, skips_append]
      refine ⟨skips_cons.mpr ⟨fun hpat => ?_, ?_⟩, ih fun i hi => h i (List.mem_cons_of_mem _ hi)⟩
      · exact absurd (List.cons_prefix_cons.mp hpat).1 (by decide)
      · exact h item List.mem_cons_self _ (closed_commas items hrest)
  cases items with
  | nil => exact skips_nil _ _
  | cons item items =>
    refine skips_append.mpr ⟨h item List.mem_cons_self _ (closed_commas items hrest), ?_⟩
    exact hmore items fun i hi => h i (List.mem_cons_of_mem _ hi)

theorem skips_object {members : List (Bytes × Bytes)} (hw : Word w) (hx : x ≠ 34)
    (h : ∀ m ∈ members, Word m.1 ∧ Body m.2) (rest : Bytes) :
    Skips (named w x) (object members) rest := by
  refine skips_cons.mpr ⟨fun hpat => ?_, skips_append.mpr ⟨?_, skips_of_not_mem (by decide)⟩⟩
  · exact absurd (List.cons_prefix_cons.mp hpat).1 (by decide)
  · refine skips_commas ⟨125, rest, rfl, .inr (.inr rfl)⟩ fun item hitem rest hclosed => ?_
    obtain ⟨m, hm, rfl⟩ := List.mem_map.mp hitem
    exact skips_member hw (h m hm) hclosed (.inl hx)

theorem skips_array {objects : List (List (Bytes × Bytes))} (hw : Word w) (hx : x ≠ 34)
    (h : ∀ members ∈ objects, ∀ m ∈ members, Word m.1 ∧ Body m.2) (rest : Bytes) :
    Skips (named w x) (array (objects.map object)) rest := by
  refine skips_cons.mpr ⟨fun hpat => ?_, skips_append.mpr ⟨?_, skips_of_not_mem (by decide)⟩⟩
  · exact absurd (List.cons_prefix_cons.mp hpat).1 (by decide)
  · refine skips_commas ⟨93, rest, rfl, .inr (.inl rfl)⟩ fun item hitem rest _ => ?_
    obtain ⟨members, hmembers, rfl⟩ := List.mem_map.mp hitem
    exact skips_object hw hx (h members hmembers) rest

def field (w : Bytes) (objects : List (List (Bytes × Bytes))) : Bytes :=
  enclose w ++ 58 :: array (objects.map object)

theorem field_append (w : Bytes) (objects : List (List (Bytes × Bytes))) (rest : Bytes) :
    field w objects ++ rest = named w 91 ++ (commas (objects.map object) ++ 93 :: rest) := by
  simp [field, enclose, named, array]

theorem skips_field {name : Bytes} {objects : List (List (Bytes × Bytes))} (hw : Word w)
    (hname : Word name) (hne : name ≠ w) (hx : x ≠ 34)
    (h : ∀ members ∈ objects, ∀ m ∈ members, Word m.1 ∧ Body m.2) (rest : Bytes) :
    Skips (named w x) (field name objects) rest := by
  refine skips_append.mpr ⟨skips_enclose hw hname.body ⟨58, _, rfl, by decide⟩
    (.inr ⟨hname.not_mem.1, hne⟩), ?_⟩
  refine skips_cons.mpr ⟨fun hpat => ?_, skips_array hw hx h rest⟩
  exact absurd (List.cons_prefix_cons.mp hpat).1 (by decide)

/-- The array of a name is what the search for the name leads to. -/
theorem cut_field {front : Bytes} (objects : List (List (Bytes × Bytes)))
    (h : Skips (named w 91) front (field w objects ++ rest)) :
    cut (named w 91) (front ++ (field w objects ++ rest)) =
      some (front, commas (objects.map object) ++ 93 :: rest) := by
  rw [cut_skips h, field_append]
  have hself : cut (named w 91) (named w 91 ++ (commas (objects.map object) ++ 93 :: rest)) =
      some ([], commas (objects.map object) ++ 93 :: rest) := cut_self (List.cons_ne_nil _ _) _
  rw [hself, Option.map_some, List.append_nil]

theorem not_mem_commas {items : List Bytes} (hb : b ≠ 44) (h : ∀ item ∈ items, b ∉ item) :
    b ∉ commas items := by
  cases items with
  | nil => exact List.not_mem_nil
  | cons item items =>
    intro hmem
    rcases List.mem_append.mp hmem with hmem | hmem
    · exact h item List.mem_cons_self hmem
    · obtain ⟨i, hi, hmem⟩ := List.mem_flatMap.mp hmem
      exact (List.mem_cons.mp hmem).elim hb (h i (List.mem_cons_of_mem _ hi))

/-- The brackets of objects and arrays that are not in the values are nowhere inside. -/
theorem not_mem_members {members : List (Bytes × Bytes)} (hb : b = 93 ∨ b = 125)
    (h : ∀ m ∈ members, Word m.1 ∧ b ∉ m.2) : b ∉ commas (members.map member) := by
  have hother : b ≠ 44 ∧ b ≠ 58 ∧ b ≠ 34 ∧ ¬ (97 ≤ b ∧ b ≤ 122) := by
    rcases hb with rfl | rfl <;> decide
  obtain ⟨hcomma, hcolon, hquote, hletter⟩ := hother
  refine not_mem_commas hcomma fun item hitem hmem => ?_
  obtain ⟨m, hm, rfl⟩ := List.mem_map.mp hitem
  have hname : b ∉ m.1 := fun hk => hletter ((h m hm).1.2 b hk)
  simp [member, enclose, hquote, hcolon, hname, (h m hm).2] at hmem

theorem not_mem_objects {objects : List (List (Bytes × Bytes))}
    (h : ∀ members ∈ objects, ∀ m ∈ members, Word m.1 ∧ 93 ∉ m.2) :
    93 ∉ commas (objects.map object) := by
  refine not_mem_commas (by decide) fun item hitem hmem => ?_
  obtain ⟨members, hmembers, rfl⟩ := List.mem_map.mp hitem
  rcases List.mem_cons.mp hmem with heq | hmem
  · revert heq
    decide
  · rcases List.mem_append.mp hmem with hmem | hmem
    · exact not_mem_members (.inl rfl) (h members hmembers) hmem
    · revert hmem
      decide

end Json
end MyEtcd
