import MyEtcd.Server.TxnParser

/-! Which transactions are understood as their clients mean them.
A client sends the documented form as compact JSON, and escapes its strings in whatever way JSON
allows; nothing is unescaped by the reader, and closing brackets and braces inside strings end what
they stand in. -/
namespace MyEtcd
open Library Json
open Library.JsonValue (Quoted Characters CodeUnit)

/-- A string, and what a client writes between quotes for it. -/
structure JsonString where
  text : Bytes
  written : Bytes
  denotes : Quoted text (enclose written)

namespace JsonString

/-- The string has no backslash, and no bracket in it that the reader of a transaction stops at. -/
def Readable (s : JsonString) : Prop := 92 ∉ s.written ∧ 93 ∉ s.written ∧ 125 ∉ s.written

instance (s : JsonString) : Decidable s.Readable := inferInstanceAs (Decidable (_ ∧ _))

/-- The reader comes to the end of the string, and not before. -/
def Whole (s : JsonString) : Prop := 34 ∉ s.written ∧ 93 ∉ s.written ∧ 125 ∉ s.written

variable {s : JsonString}

theorem characters (s : JsonString) :
    ∃ units, Characters units s.written ∧ s.text = JsonValue.decode units := by
  obtain ⟨units, body, hbody, htext, henclosed⟩ := s.denotes
  obtain rfl : s.written = body := List.append_cancel_right (List.cons.inj henclosed).2
  exact ⟨units, hbody, htext⟩

theorem body (s : JsonString) : Body s.written := by
  obtain ⟨units, hunits, -⟩ := s.characters
  exact ⟨units, hunits⟩

theorem written_eq_text_iff : s.written = s.text ↔ 92 ∉ s.written := by
  obtain ⟨units, hunits, htext⟩ := s.characters
  rw [htext, eq_comm, hunits.decode_eq_iff]

theorem written_ne_nil (h : s.text ≠ []) : s.written ≠ [] := by
  intro hnil
  have hsame : s.written = s.text := written_eq_text_iff.mpr (by simp [hnil])
  exact h (hsame ▸ hnil)

/-- A quote, and a bracket of an object or an array, is written for itself only. -/
theorem mem_text {b : UInt8} (hb : b = 34 ∨ b = 93 ∨ b = 125) (h : b ∈ s.written) : b ∈ s.text := by
  obtain ⟨units, hunits, htext⟩ := s.characters
  rw [htext]
  clear htext
  refine JsonValue.mem_decode ?_
  generalize s.written = body at hunits h
  induction hunits with
  | nil => cases h
  | plain _ _ ih =>
    rcases List.mem_cons.mp h with rfl | h
    · exact List.mem_cons_self
    · exact List.mem_cons_of_mem _ (ih h)
  | short hc _ ih =>
    simp only [List.mem_cons] at h
    rcases h with rfl | rfl | h
    · exact absurd hb (by decide)
    · rcases hb with rfl | rfl | rfl
      · obtain rfl := Option.some.inj hc
        exact List.mem_cons_self
      · cases hc
      · cases hc
    · exact List.mem_cons_of_mem _ (ih h)
  | @unicode x y z w c _ _ hc _ ih =>
    have hdigit {d : UInt8} {n : Nat} (hd : JsonValue.hexValue d = some n) : b ≠ d := by
      rintro rfl
      rcases hb with rfl | rfl | rfl <;> cases hd
    obtain ⟨_, _, _, _, hx, hy, hz, hw, -⟩ := JsonValue.fourDigits_some hc
    have hletters : b ≠ 92 ∧ b ≠ 117 := by
      rcases hb with rfl | rfl | rfl <;> decide
    simp only [List.mem_cons, hletters.1, hletters.2, hdigit hx, hdigit hy, hdigit hz, hdigit hw,
      false_or] at h
    exact List.mem_cons_of_mem _ (ih h)

theorem whole_of_text (h : 34 ∉ s.text ∧ 93 ∉ s.text ∧ 125 ∉ s.text) : s.Whole :=
  ⟨mt (mem_text (by decide)) h.1, mt (mem_text (by decide)) h.2.1, mt (mem_text (by decide)) h.2.2⟩

theorem readable_iff : s.Readable ↔ s.Whole ∧ s.written = s.text := by
  rw [written_eq_text_iff]
  constructor
  · rintro ⟨hescape, hbrackets⟩
    refine ⟨⟨fun hquote => ?_, hbrackets⟩, hescape⟩
    -- a quote has a backslash before it
    obtain ⟨units, hunits, -⟩ := s.characters
    generalize s.written = body at hunits hescape hquote
    induction hunits with
    | nil => cases hquote
    | plain hb _ ih =>
      rcases List.mem_cons.mp hquote with heq | hquote
      · exact hb.2.1 heq.symm
      · exact ih (mt (List.mem_cons_of_mem _) hescape) hquote
    | short => exact hescape List.mem_cons_self
    | unicode => exact hescape List.mem_cons_self
  · rintro ⟨⟨-, hbrackets⟩, hescape⟩
    exact ⟨hescape, hbrackets⟩

end JsonString

/-- A condition of a transaction in the documented form. -/
structure Condition where
  target : CompareTarget
  key : JsonString
  op : CompareOp
  value : JsonString
  documented : target ≠ .other ∧ key.text ≠ []

/-- An operation of a transaction in the documented form. The value of a deletion is not sent. -/
structure Operation where
  type : TxnOpType
  key : JsonString
  value : JsonString
  documented : type ≠ .other ∧ key.text ≠ []

/-- A transaction in the documented form. -/
structure Txn where
  compares : List Condition
  success : List Operation
  failure : List Operation

/-- What the client means by a condition. -/
def Condition.meant (c : Condition) : Compare :=
  { target := c.target, key := c.key.text, op := c.op, value := c.value.text }

/-- What the client means by an operation. -/
def Operation.meant (op : Operation) : TxnOp :=
  { type := op.type, key := op.key.text, value := op.value.text }

namespace Txn

def targetName : CompareTarget → Bytes
  | .value => ascii "value"
  | .version => ascii "version"
  | .other => []

def opName : CompareOp → Bytes
  | .equal => ascii "equal"
  | .notEqual => ascii "notequal"

def compareMembers (c : Condition) : List (Bytes × Bytes) :=
  [(ascii "target", targetName c.target), (ascii "key", c.key.written), (ascii "op", opName c.op),
    (ascii "value", c.value.written)]

def opMembers (op : Operation) : List (Bytes × Bytes) :=
  match op.type with
  | .put =>
    [(ascii "type", ascii "PUT"), (ascii "key", op.key.written), (ascii "value", op.value.written)]
  | .delete => [(ascii "type", ascii "DELETE"), (ascii "key", op.key.written)]
  | .other => []

/-- What the client sends. -/
def body (t : Txn) : Bytes :=
  123 :: (field (ascii "compare") (t.compares.map compareMembers) ++
    44 :: (field (ascii "success") (t.success.map opMembers) ++
      44 :: (field (ascii "failure") (t.failure.map opMembers) ++ [125])))

def branch (t : Txn) (conditionsMet : Bool) : List Operation :=
  if conditionsMet then t.success else t.failure

def conditionsMet (t : Txn) (s : KVStore) : Bool :=
  t.compares.all fun c => c.meant.holds (s.get c.meant.key 0)

/-- The comparisons of the client are evaluated, and the operations of the branch that they choose
are proposed. -/
def Understood (t : Txn) (s : KVStore) : Prop :=
  EtcdServer.compares t.body = t.compares.map Condition.meant ∧
    ((EtcdServer.txnRequest t.body).branch (t.conditionsMet s)).filterMap TxnOp.entry =
      (t.branch (t.conditionsMet s)).filterMap fun op => op.meant.entry

/-- Every string is readable that the reader has to understand. -/
def Legible (t : Txn) (s : KVStore) : Prop :=
  (∀ c ∈ t.compares, c.key.Readable ∧ c.value.Readable) ∧
    ∀ op ∈ t.branch (t.conditionsMet s), op.key.Readable ∧ (op.type = .put → op.value.Readable)

/-- What the reader makes of a condition. -/
def readCompare (c : Condition) : Compare :=
  { target := c.target, key := c.key.written, op := c.op, value := c.value.written }

/-- What the reader makes of an operation. -/
def readOp (op : Operation) : TxnOp :=
  match op.type with
  | .put => { type := .put, key := op.key.written, value := op.value.written }
  | type => { type, key := op.key.written }

/-- A member that the reader finds and comes to the end of. -/
def Found (m : Bytes × Bytes) : Prop := (Word m.1 ∧ Body m.2) ∧ 34 ∉ m.2 ∧ 93 ∉ m.2 ∧ 125 ∉ m.2

theorem word_names : ∀ name ∈ [ascii "target", ascii "key", ascii "op", ascii "value", ascii "type",
    ascii "compare", ascii "success", ascii "failure"], Word name := by
  decide

theorem found_string {name : Bytes} {s : JsonString} (hname : Word name) (h : s.Whole) :
    Found (name, s.written) := ⟨⟨hname, s.body⟩, h⟩

theorem found_value {name text : Bytes} (hname : Word name) (h : text ∈ [ascii "value",
    ascii "version", ascii "equal", ascii "notequal", ascii "PUT", ascii "DELETE"]) :
    Found (name, text) := by
  have hplain {text : Bytes} (h : ∀ b ∈ text, JsonValue.Unescaped b) : Body text := by
    induction text with
    | nil => exact body_nil
    | cons b text ih =>
      obtain ⟨hb, htext⟩ := List.forall_mem_cons.mp h
      obtain ⟨units, hunits⟩ := ih htext
      exact ⟨_, .plain hb hunits⟩
  have hbytes : ∀ b ∈ text, JsonValue.Unescaped b ∧ b ≠ 93 ∧ b ≠ 125 := by
    have hall : ∀ text ∈ [ascii "value", ascii "version", ascii "equal", ascii "notequal",
        ascii "PUT", ascii "DELETE"], text.all fun b => (32 ≤ b && b ≠ 34 && b ≠ 92) &&
          (b ≠ 93 && b ≠ 125) := by decide
    intro b hb
    have htext := List.all_eq_true.mp (hall text h) b hb
    simp only [Bool.and_eq_true, decide_eq_true_eq] at htext
    exact ⟨⟨htext.1.1.1, htext.1.1.2, htext.1.2⟩, htext.2.1, htext.2.2⟩
  refine ⟨⟨hname, hplain fun b hb => (hbytes b hb).1⟩, fun h => ?_, fun h => ?_, fun h => ?_⟩
  · exact (hbytes _ h).1.2.1 rfl
  · exact (hbytes _ h).2.1 rfl
  · exact (hbytes _ h).2.2 rfl

theorem targetName_mem {target : CompareTarget} (h : target ≠ .other) : targetName target ∈
    [ascii "value", ascii "version", ascii "equal", ascii "notequal", ascii "PUT", ascii "DELETE"] := by
  cases target with
  | other => exact absurd rfl h
  | value => decide
  | version => decide

theorem opName_mem (op : CompareOp) : opName op ∈
    [ascii "value", ascii "version", ascii "equal", ascii "notequal", ascii "PUT", ascii "DELETE"] := by
  cases op <;> decide

theorem compareMembers_written (c : Condition) : ∀ m ∈ compareMembers c, Word m.1 ∧ Body m.2 := by
  intro m hm
  simp only [compareMembers, List.mem_cons, List.not_mem_nil, or_false] at hm
  rcases hm with rfl | rfl | rfl | rfl
  · exact (found_value (word_names _ (by simp)) (targetName_mem c.documented.1)).1
  · exact ⟨word_names _ (by simp), c.key.body⟩
  · exact (found_value (word_names _ (by simp)) (opName_mem c.op)).1
  · exact ⟨word_names _ (by simp), c.value.body⟩

theorem opMembers_written (op : Operation) : ∀ m ∈ opMembers op, Word m.1 ∧ Body m.2 := by
  intro m hm
  unfold opMembers at hm
  split at hm
  · simp only [List.mem_cons, List.not_mem_nil, or_false] at hm
    rcases hm with rfl | rfl | rfl
    · exact (found_value (word_names _ (by simp)) (by simp)).1
    · exact ⟨word_names _ (by simp), op.key.body⟩
    · exact ⟨word_names _ (by simp), op.value.body⟩
  · simp only [List.mem_cons, List.not_mem_nil, or_false] at hm
    rcases hm with rfl | rfl
    · exact (found_value (word_names _ (by simp)) (by simp)).1
    · exact ⟨word_names _ (by simp), op.key.body⟩
  · cases hm

theorem found_compareMembers {c : Condition} (h : c.key.Whole ∧ c.value.Whole) :
    ∀ m ∈ compareMembers c, Found m := by
  intro m hm
  simp only [compareMembers, List.mem_cons, List.not_mem_nil, or_false] at hm
  rcases hm with rfl | rfl | rfl | rfl
  · exact found_value (word_names _ (by simp)) (targetName_mem c.documented.1)
  · exact found_string (word_names _ (by simp)) h.1
  · exact found_value (word_names _ (by simp)) (opName_mem c.op)
  · exact found_string (word_names _ (by simp)) h.2

theorem parseStr_found {members : List (Bytes × Bytes)} {w : Bytes} (hw : Word w)
    (h : ∀ m ∈ members, Found m) : EtcdServer.parseStr (object members) w =
      ((members.find? fun m => m.1 = w).map Prod.snd).getD [] :=
  EtcdServer.parseStr_object hw fun m hm => ⟨(h m hm).1, (h m hm).2.1⟩

theorem parseCompare_object {c : Condition} (h : c.key.Whole ∧ c.value.Whole) :
    EtcdServer.parseCompare (object (compareMembers c)) = readCompare c := by
  have hparse {w : Bytes} (hw : Word w) := parseStr_found hw (found_compareMembers h)
  have htarget : EtcdServer.parseStr (object (compareMembers c)) (ascii "target") =
      targetName c.target := hparse (by decide)
  have hkey : EtcdServer.parseStr (object (compareMembers c)) (ascii "key") = c.key.written :=
    hparse (by decide)
  have hop : EtcdServer.parseStr (object (compareMembers c)) (ascii "op") = opName c.op :=
    hparse (by decide)
  have hvalue : EtcdServer.parseStr (object (compareMembers c)) (ascii "value") = c.value.written :=
    hparse (by decide)
  have htargetSame : EtcdServer.parseTarget (targetName c.target) = c.target := by
    have hother := c.documented.1
    generalize c.target = target at hother
    cases target with
    | other => exact absurd rfl hother
    | value => decide
    | version => decide
  have hopSame : (if opName c.op = ascii "notequal" then CompareOp.notEqual else .equal) = c.op := by
    cases c.op <;> decide
  rw [EtcdServer.parseCompare, htarget, hkey, hop, hvalue, htargetSame, hopSame]
  rfl

/-- The strings of an operation. -/
def WholeOp (op : Operation) : Prop := op.key.Whole ∧ (op.type = .put → op.value.Whole)

theorem found_opMembers {op : Operation} (h : WholeOp op) : ∀ m ∈ opMembers op, Found m := by
  intro m hm
  unfold opMembers at hm
  split at hm
  · next hput =>
    simp only [List.mem_cons, List.not_mem_nil, or_false] at hm
    rcases hm with rfl | rfl | rfl
    · exact found_value (word_names _ (by simp)) (by simp)
    · exact found_string (word_names _ (by simp)) h.1
    · exact found_string (word_names _ (by simp)) (h.2 hput)
  · simp only [List.mem_cons, List.not_mem_nil, or_false] at hm
    rcases hm with rfl | rfl
    · exact found_value (word_names _ (by simp)) (by simp)
    · exact found_string (word_names _ (by simp)) h.1
  · cases hm

theorem parseOp_object {op : Operation} (h : WholeOp op) :
    EtcdServer.parseOp (object (opMembers op)) = readOp op := by
  have hparse {w : Bytes} (hw : Word w) := parseStr_found hw (found_opMembers h)
  have htypeText := hparse (word_names (ascii "type") (by simp))
  have hkey := hparse (word_names (ascii "key") (by simp))
  have hvalue := hparse (word_names (ascii "value") (by simp))
  rw [EtcdServer.parseOp, htypeText, hkey, hvalue]
  obtain ⟨type, key, value, htype, -⟩ := op
  cases type with
  | put => rfl
  | delete => rfl
  | other => exact absurd rfl htype

/-- Operations with one entry have the same key, and the same value if they are puts. -/
theorem entry_inj {op op' : TxnOp} {e : RaftEntry} (h : op.entry = some e) (h' : op'.entry = some e) :
    op'.key = op.key ∧ (op.type = .put → op'.value = op.value) := by
  obtain ⟨type, key, value⟩ := op
  obtain ⟨type', key', value'⟩ := op'
  obtain ⟨-, h⟩ := Option.ite_none_left_eq_some.mp h
  obtain ⟨-, h'⟩ := Option.ite_none_left_eq_some.mp h'
  cases type with
  | put =>
    obtain rfl := Option.some.inj h
    cases type' <;> simp_all
  | delete =>
    obtain rfl := Option.some.inj h
    cases type' <;> simp_all
  | other => cases h

variable {t : Txn} {s : KVStore}

theorem compares_body (h : ∀ c ∈ t.compares, c.key.Whole ∧ c.value.Whole) :
    EtcdServer.compares t.body = t.compares.map readCompare := by
  have hfound : ∀ members ∈ t.compares.map compareMembers, ∀ m ∈ members, Found m := by
    intro members hmembers
    obtain ⟨c, hc, rfl⟩ := List.mem_map.mp hmembers
    exact found_compareMembers (h c hc)
  obtain ⟨behind, hbody⟩ : ∃ behind, t.body =
      [123] ++ (field (ascii "compare") (t.compares.map compareMembers) ++ behind) := ⟨_, rfl⟩
  have hcut : cut (named (ascii "compare") 91) t.body = some ([123],
      commas ((t.compares.map compareMembers).map object) ++ 93 :: behind) := by
    rw [hbody]
    exact cut_field _ (skips_of_not_mem (by decide))
  have hend := not_mem_objects fun members hmembers m hm =>
    And.intro (hfound members hmembers m hm).1.1 (hfound members hmembers m hm).2.2.1
  have hpart : EtcdServer.compareSection t.body = named (ascii "compare") 91 ++
      (commas ((t.compares.map compareMembers).map object) ++ [93]) := by
    rw [EtcdServer.compareSection, hcut]
    dsimp only
    rw [cut_singleton hend]
    exact List.append_assoc _ _ _
  rw [EtcdServer.compares, hpart, EtcdServer.objects_array (by decide) fun members hmembers m hm =>
    ⟨(hfound members hmembers m hm).1.1, (hfound members hmembers m hm).2.2.2⟩, List.map_map,
    List.map_map]
  exact List.map_congr_left fun c hc => parseCompare_object (h c hc)

/-- The search for the chosen branch comes to it, whatever the strings in front of it. -/
theorem cut_branch (t : Txn) (conditionsMet : Bool) : ∃ before behind,
    cut (named (EtcdServer.opsToExecute conditionsMet) 91) t.body = some (before,
      commas (((t.branch conditionsMet).map opMembers).map object) ++ 93 :: behind) := by
  have hskips {w name : Bytes} (hw : Word w) (hname : Word name) (hne : name ≠ w)
      {objects : List (List (Bytes × Bytes))}
      (h : ∀ members ∈ objects, ∀ m ∈ members, Word m.1 ∧ Body m.2) (rest : Bytes) {a : UInt8}
      (ha : a ≠ 34) : Skips (named w 91) (a :: field name objects) rest :=
    skips_cons.mpr ⟨fun hpat => ha (List.cons_prefix_cons.mp hpat).1.symm,
      skips_field hw hname hne (by decide) h rest⟩
  have hcompares : ∀ members ∈ t.compares.map compareMembers, ∀ m ∈ members,
      Word m.1 ∧ Body m.2 := by
    intro members hmembers
    obtain ⟨c, _, rfl⟩ := List.mem_map.mp hmembers
    exact compareMembers_written c
  have hsuccess : ∀ members ∈ t.success.map opMembers, ∀ m ∈ members, Word m.1 ∧ Body m.2 := by
    intro members hmembers
    obtain ⟨op, _, rfl⟩ := List.mem_map.mp hmembers
    exact opMembers_written op
  cases conditionsMet with
  | true =>
    have hbody : t.body = 123 :: field (ascii "compare") (t.compares.map compareMembers) ++ [44] ++
        (field (ascii "success") (t.success.map opMembers) ++
          44 :: (field (ascii "failure") (t.failure.map opMembers) ++ [125])) := by
      simp [body]
    have hname : EtcdServer.opsToExecute true = ascii "success" := rfl
    rw [hbody, hname]
    refine ⟨_, _, cut_field _ (skips_append.mpr ⟨?_, ?_⟩)⟩
    · exact hskips (word_names _ (by simp)) (word_names _ (by simp)) (by decide) hcompares _ (by decide)
    · exact skips_of_not_mem (by decide)
  | false =>
    have hbody : t.body = 123 :: field (ascii "compare") (t.compares.map compareMembers) ++
        44 :: field (ascii "success") (t.success.map opMembers) ++ [44] ++
          (field (ascii "failure") (t.failure.map opMembers) ++ [125]) := by
      simp [body]
    have hname : EtcdServer.opsToExecute false = ascii "failure" := rfl
    rw [hbody, hname]
    refine ⟨_, _, cut_field _ (skips_append.mpr ⟨skips_append.mpr ⟨?_, ?_⟩, ?_⟩)⟩
    · exact hskips (word_names _ (by simp)) (word_names _ (by simp)) (by decide) hcompares _ (by decide)
    · exact hskips (word_names _ (by simp)) (word_names _ (by simp)) (by decide) hsuccess _ (by decide)
    · exact skips_of_not_mem (by decide)

theorem operations_body {conditionsMet : Bool} (h : ∀ op ∈ t.branch conditionsMet, WholeOp op) :
    EtcdServer.operations t.body conditionsMet = (t.branch conditionsMet).map readOp := by
  have hfound : ∀ members ∈ (t.branch conditionsMet).map opMembers, ∀ m ∈ members, Found m := by
    intro members hmembers
    obtain ⟨op, hop, rfl⟩ := List.mem_map.mp hmembers
    exact found_opMembers (h op hop)
  obtain ⟨before, behind, hcut⟩ := t.cut_branch conditionsMet
  have hend := not_mem_objects fun members hmembers m hm =>
    And.intro (hfound members hmembers m hm).1.1 (hfound members hmembers m hm).2.2.1
  have hpart : EtcdServer.execSection t.body conditionsMet = [91] ++
      (commas (((t.branch conditionsMet).map opMembers).map object) ++ [93]) := by
    rw [EtcdServer.execSection, hcut]
    dsimp only
    rw [cut_singleton hend]
    rfl
  rw [EtcdServer.operations, hpart, EtcdServer.objects_array (by decide) fun members hmembers m hm =>
    ⟨(hfound members hmembers m hm).1.1, (hfound members hmembers m hm).2.2.2⟩, List.map_map,
    List.map_map]
  exact List.map_congr_left fun op hop => parseOp_object (h op hop)

theorem whole_of_mem_compares {body : Bytes} {c : Compare} (h : c ∈ EtcdServer.compares body) :
    (34 ∉ c.key ∧ 93 ∉ c.key ∧ 125 ∉ c.key) ∧ 34 ∉ c.value ∧ 93 ∉ c.value ∧ 125 ∉ c.value := by
  obtain ⟨obj, hobj, rfl⟩ := List.mem_map.mp h
  have hnot {b : UInt8} (name : Bytes) (hb : b = 34 ∨ b = 93 ∨ b = 125) :
      b ∉ EtcdServer.parseStr obj name :=
    EtcdServer.not_mem_parseStr hb (EtcdServer.not_mem_compareSection body) hobj
  exact ⟨⟨hnot _ (by decide), hnot _ (by decide), hnot _ (by decide)⟩,
    hnot _ (by decide), hnot _ (by decide), hnot _ (by decide)⟩

theorem whole_of_mem_operations {body : Bytes} {conditionsMet : Bool} {op : TxnOp}
    (h : op ∈ EtcdServer.operations body conditionsMet) :
    (34 ∉ op.key ∧ 93 ∉ op.key ∧ 125 ∉ op.key) ∧
      34 ∉ op.value ∧ 93 ∉ op.value ∧ 125 ∉ op.value := by
  obtain ⟨obj, hobj, rfl⟩ := List.mem_map.mp h
  have hnot {b : UInt8} (name : Bytes) (hb : b = 34 ∨ b = 93 ∨ b = 125) :
      b ∉ EtcdServer.parseStr obj name :=
    EtcdServer.not_mem_parseStr hb (EtcdServer.not_mem_execSection body conditionsMet) hobj
  exact ⟨⟨hnot _ (by decide), hnot _ (by decide), hnot _ (by decide)⟩,
    hnot _ (by decide), hnot _ (by decide), hnot _ (by decide)⟩

theorem entry_isSome {op : TxnOp} (htype : op.type ≠ .other) (hkey : op.key ≠ []) :
    op.entry.isSome := by
  rw [TxnOp.entry, if_neg hkey]
  obtain ⟨type, key, value⟩ := op
  cases type with
  | other => exact absurd rfl htype
  | _ => rfl

theorem entry_meant (op : Operation) : op.meant.entry.isSome :=
  entry_isSome op.documented.1 op.documented.2

theorem entry_readOp (op : Operation) : (readOp op).entry.isSome := by
  obtain ⟨type, key, value, htype, htext⟩ := op
  have hkey := JsonString.written_ne_nil htext
  cases type with
  | other => exact absurd rfl htype
  | put => exact entry_isSome htype hkey
  | delete => exact entry_isSome htype hkey

theorem entry_readOp_eq_iff (op : Operation) : (readOp op).entry = op.meant.entry ↔
    op.key.written = op.key.text ∧ (op.type = .put → op.value.written = op.value.text) := by
  obtain ⟨type, key, value, htype, htext⟩ := op
  have hwritten := JsonString.written_ne_nil htext
  cases type with
  | other => exact absurd rfl htype
  | put => simp_all [readOp, Operation.meant, TxnOp.entry]
  | delete => simp_all [readOp, Operation.meant, TxnOp.entry]

private theorem eq_of_filterMap_eq {α β : Type} {f g : α → Option β} {l : List α}
    (hf : ∀ a ∈ l, (f a).isSome) (hg : ∀ a ∈ l, (g a).isSome)
    (h : l.filterMap f = l.filterMap g) : ∀ a ∈ l, f a = g a := by
  induction l with
  | nil => exact nofun
  | cons a l ih =>
    obtain ⟨b, hb⟩ := Option.isSome_iff_exists.mp (hf a List.mem_cons_self)
    obtain ⟨c, hc⟩ := Option.isSome_iff_exists.mp (hg a List.mem_cons_self)
    rw [List.filterMap_cons_some hb, List.filterMap_cons_some hc] at h
    obtain ⟨rfl, hl⟩ := List.cons.inj h
    intro x hx
    rcases List.mem_cons.mp hx with rfl | hx
    · exact hb.trans hc.symm
    · exact ih (fun a ha => hf a (List.mem_cons_of_mem _ ha))
        (fun a ha => hg a (List.mem_cons_of_mem _ ha)) hl x hx

theorem branch_txnRequest (body : Bytes) (conditionsMet : Bool) :
    (EtcdServer.txnRequest body).branch conditionsMet = EtcdServer.operations body conditionsMet := by
  cases conditionsMet <;> rfl

/-- What is read correctly has been read to its end, and is the same with and without escapes. -/
theorem legible_of_understood (h : t.Understood s) : t.Legible s := by
  obtain ⟨hcompares, hproposed⟩ := h
  rw [branch_txnRequest] at hproposed
  constructor
  · have hwhole : ∀ c ∈ t.compares, c.key.Whole ∧ c.value.Whole := by
      intro c hc
      have hmem : c.meant ∈ EtcdServer.compares t.body := hcompares ▸ List.mem_map_of_mem hc
      exact (whole_of_mem_compares hmem).imp JsonString.whole_of_text JsonString.whole_of_text
    have hsame : t.compares.map readCompare = t.compares.map Condition.meant :=
      (compares_body hwhole).symm.trans hcompares
    intro c hc
    have heq : readCompare c = c.meant := List.map_inj_left.mp hsame c hc
    exact ⟨JsonString.readable_iff.mpr ⟨(hwhole c hc).1, congrArg Compare.key heq⟩,
      JsonString.readable_iff.mpr ⟨(hwhole c hc).2, congrArg Compare.value heq⟩⟩
  · have hwhole : ∀ op ∈ t.branch (t.conditionsMet s), WholeOp op := by
      intro op hop
      obtain ⟨e, he⟩ := Option.isSome_iff_exists.mp (entry_meant op)
      have hmem : e ∈ (t.branch (t.conditionsMet s)).filterMap fun op => op.meant.entry :=
        List.mem_filterMap.mpr ⟨op, hop, he⟩
      rw [← hproposed] at hmem
      obtain ⟨op', hop', he'⟩ := List.mem_filterMap.mp hmem
      obtain ⟨hsameKey, hsameValue⟩ := entry_inj he he'
      have hread := whole_of_mem_operations hop'
      rw [hsameKey] at hread
      refine ⟨JsonString.whole_of_text hread.1, fun hput => JsonString.whole_of_text ?_⟩
      rw [hsameValue hput] at hread
      exact hread.2
    rw [operations_body hwhole, List.filterMap_map] at hproposed
    have hsame := eq_of_filterMap_eq (fun op _ => entry_readOp op) (fun op _ => entry_meant op)
      hproposed
    intro op hop
    obtain ⟨hkey, hvalue⟩ := (entry_readOp_eq_iff op).mp (hsame op hop)
    exact ⟨JsonString.readable_iff.mpr ⟨(hwhole op hop).1, hkey⟩, fun hput =>
      JsonString.readable_iff.mpr ⟨(hwhole op hop).2 hput, hvalue hput⟩⟩

theorem understood_of_legible (h : t.Legible s) : t.Understood s := by
  obtain ⟨hcompares, hops⟩ := h
  constructor
  · rw [compares_body fun c hc => (hcompares c hc).imp (fun h => (JsonString.readable_iff.mp h).1)
      fun h => (JsonString.readable_iff.mp h).1]
    refine List.map_congr_left fun c hc => ?_
    rw [readCompare, (JsonString.readable_iff.mp (hcompares c hc).1).2,
      (JsonString.readable_iff.mp (hcompares c hc).2).2, Condition.meant]
  · rw [branch_txnRequest, operations_body fun op hop =>
      ⟨(JsonString.readable_iff.mp (hops op hop).1).1, fun hput =>
        (JsonString.readable_iff.mp ((hops op hop).2 hput)).1⟩, List.filterMap_map]
    exact List.filterMap_congr fun op hop => (entry_readOp_eq_iff op).mpr
      ⟨(JsonString.readable_iff.mp (hops op hop).1).2, fun hput =>
        (JsonString.readable_iff.mp ((hops op hop).2 hput)).2⟩

/-- A transaction is understood if and only if its keys and values, in the comparisons and in the
branch that they choose, are written without an escape and have no closing bracket or brace. -/
theorem txn_understood_iff (t : Txn) (s : KVStore) : t.Understood s ↔ t.Legible s :=
  ⟨legible_of_understood, understood_of_legible⟩

theorem quoted_letter : Quoted [107] (enclose [107]) :=
  ⟨[.byte 107], [107], .plain ⟨by decide, by decide, by decide⟩ .nil, rfl, rfl⟩

theorem quoted_escape : Quoted [34] (enclose [92, 34]) :=
  ⟨[.byte 34], [92, 34], .short rfl .nil, rfl, rfl⟩

theorem put_documented : TxnOpType.put ≠ .other ∧ [(107 : UInt8)] ≠ [] := by decide

/-- A put of a quote, which is written with a backslash. -/
def quotedPut : Operation where
  type := .put
  key := ⟨[107], [107], quoted_letter⟩
  value := ⟨[34], [92, 34], quoted_escape⟩
  documented := put_documented

theorem quoted_misunderstood : ¬ Understood ⟨[], [quotedPut], []⟩ {} := by
  intro h
  have hput := (legible_of_understood h).2 quotedPut List.mem_cons_self
  exact absurd (hput.2 rfl) (by decide)

end Txn
end MyEtcd
