import MyEtcd.Server.Json
import MyEtcd.Server.KVServer

/-! How a transaction is read off the body of its request.
The reader looks for quotes, braces and brackets without regard to strings, and takes what stands
between two quotes as it is. -/
namespace MyEtcd
open Library Json

namespace EtcdServer

/-- `parse_str`. -/
def parseStr (s name : Bytes) : Bytes :=
  match cut (named name 34) s with
  | none => []
  | some (_, rest) =>
    match cut [34] rest with
    | none => []
    | some (value, _) => value

/-- The objects that the loops over a section come to: from a brace up to the next closing one. -/
def objects (part : Bytes) : List Bytes :=
  match _hopen : cut [123] part with
  | none => []
  | some (_, rest) =>
    match _hclose : cut [125] rest with
    | none => []
    | some (inner, rest) => (123 :: (inner ++ [125])) :: objects rest
termination_by part.length
decreasing_by
  have hopen := congrArg List.length (cut_some _hopen)
  have hclose := congrArg List.length (cut_some _hclose)
  simp only [List.length_append, List.length_singleton] at hopen hclose
  omega

/-- `cmp_section`. Without a closing bracket its length is `npos - cmp_start + 1`, which is zero where
the body begins with the section. -/
def compareSection (body : Bytes) : Bytes :=
  match cut (named (ascii "compare") 91) body with
  | none => []
  | some (before, rest) =>
    match cut [93] rest with
    | some (inner, _) => named (ascii "compare") 91 ++ inner ++ [93]
    | none => if before = [] then [] else named (ascii "compare") 91 ++ rest

def parseTarget (target : Bytes) : CompareTarget :=
  if target = ascii "value" then .value else if target = ascii "version" then .version else .other

def parseCompare (obj : Bytes) : Compare where
  target := parseTarget (parseStr obj (ascii "target"))
  key := parseStr obj (ascii "key")
  op := if parseStr obj (ascii "op") = ascii "notequal" then .notEqual else .equal
  value := parseStr obj (ascii "value")

def compares (body : Bytes) : List Compare := (objects (compareSection body)).map parseCompare

/-- `ops_to_execute`. -/
def opsToExecute (conditionsMet : Bool) : Bytes :=
  if conditionsMet then ascii "success" else ascii "failure"

/-- `exec_section`. -/
def execSection (body : Bytes) (conditionsMet : Bool) : Bytes :=
  match cut (named (opsToExecute conditionsMet) 91) body with
  | none => []
  | some (_, rest) =>
    match cut [93] rest with
    | some (inner, _) => 91 :: (inner ++ [93])
    | none => 91 :: rest

def parseType (type : Bytes) : TxnOpType :=
  if type = ascii "PUT" then .put else if type = ascii "DELETE" then .delete else .other

def parseOp (obj : Bytes) : TxnOp where
  type := parseType (parseStr obj (ascii "type"))
  key := parseStr obj (ascii "key")
  value := parseStr obj (ascii "value")

def operations (body : Bytes) (conditionsMet : Bool) : List TxnOp :=
  (objects (execSection body conditionsMet)).map parseOp

/-- The request that a body is taken for. -/
def txnRequest (body : Bytes) : Request :=
  .txn (compares body) (operations body true) (operations body false)

variable {part front inner rest : Bytes} {w : Bytes}

theorem objects_none (h : 123 ∉ part) : objects part = [] := by
  rcases cut_singleton_cases 123 part with ⟨hcut, -⟩ | ⟨u, v, -, rfl, -⟩
  · rw [objects]
    split
    · rfl
    · next hopen => rw [hcut] at hopen; cases hopen
  · exact absurd (List.mem_append_right _ List.mem_cons_self) h

theorem objects_unclosed (hfront : 123 ∉ front) (h : 125 ∉ rest) :
    objects (front ++ 123 :: rest) = [] := by
  rw [objects]
  split
  · rfl
  · next hopen =>
    rw [cut_singleton hfront] at hopen
    obtain ⟨rfl, rfl⟩ := Prod.mk.inj (Option.some.inj hopen)
    split
    · rfl
    · next hclose =>
      exact absurd (cut_some hclose ▸ by simp) h

theorem objects_object (hfront : 123 ∉ front) (hinner : 125 ∉ inner) (rest : Bytes) :
    objects (front ++ 123 :: (inner ++ 125 :: rest)) = (123 :: (inner ++ [125])) :: objects rest := by
  rw [objects]
  split
  · next hopen => rw [cut_singleton hfront] at hopen; cases hopen
  · next hopen =>
    rw [cut_singleton hfront] at hopen
    obtain ⟨rfl, rfl⟩ := Prod.mk.inj (Option.some.inj hopen)
    split
    · next hclose => rw [cut_singleton hinner] at hclose; cases hclose
    · next hclose =>
      rw [cut_singleton hinner] at hclose
      obtain ⟨rfl, rfl⟩ := Prod.mk.inj (Option.some.inj hclose)
      rfl

/-- What the loop comes to stands in the section as it is, and has no closing brace inside. -/
theorem exists_of_mem_objects {obj : Bytes} (h : obj ∈ objects part) :
    ∃ front inner rest, part = front ++ obj ++ rest ∧ obj = 123 :: (inner ++ [125]) ∧
      125 ∉ inner := by
  induction hlength : part.length using Nat.strong_induction_on generalizing part with
  | _ n ih =>
    subst hlength
    rcases cut_singleton_cases 123 part with ⟨-, hnone⟩ | ⟨before, rest, -, rfl, hbefore⟩
    · rw [objects_none hnone] at h
      cases h
    · rcases cut_singleton_cases 125 rest with ⟨-, hnone⟩ | ⟨inner, rest, -, rfl, hinner⟩
      · rw [objects_unclosed hbefore hnone] at h
        cases h
      · rw [objects_object hbefore hinner] at h
        rcases List.mem_cons.mp h with rfl | h
        · exact ⟨before, inner, rest, by simp, rfl, hinner⟩
        · obtain ⟨front, inner', rest', rfl, hobj⟩ := ih rest.length (by simp; omega) h rfl
          exact ⟨before ++ 123 :: (inner ++ 125 :: front), inner', rest', by simp, hobj⟩

private theorem mem_dropLast {s x y : Bytes} {a b : UInt8} (hs : s = x ++ a :: y) (h : b ∈ x) :
    b ∈ s.dropLast := by
  rw [hs, List.dropLast_append_cons]
  exact List.mem_append_left _ h

/-- What is read between two quotes of an object has no quote and no closing brace in it, and no
bracket that ends the section. -/
theorem not_mem_parseStr {obj name : Bytes} {b : UInt8} (hb : b = 34 ∨ b = 93 ∨ b = 125)
    (hpart : 93 ∉ part.dropLast) (h : obj ∈ objects part) : b ∉ parseStr obj name := by
  obtain ⟨front, inner, rest, hsplit, hobj, hinner⟩ := exists_of_mem_objects h
  intro hmem
  unfold parseStr at hmem
  split at hmem
  · cases hmem
  · next before text hname =>
    rcases cut_singleton_cases 34 text with ⟨hcut, -⟩ | ⟨value, behind, hcut, rfl, hvalue⟩
    · rw [hcut] at hmem
      cases hmem
    · rw [hcut] at hmem
      rcases hb with rfl | hb
      · exact hvalue hmem
      · have hbefore : obj = (before ++ named name 34 ++ value) ++ 34 :: behind := by
          rw [cut_some hname]
          simp
        have hdrop : b ∈ obj.dropLast := mem_dropLast hbefore (List.mem_append_right _ hmem)
        rw [hobj, List.dropLast_cons_of_ne_nil (by simp), List.dropLast_concat] at hdrop
        rcases List.mem_cons.mp hdrop with rfl | hdrop
        · revert hb
          decide
        · rcases hb with rfl | rfl
          · have hpartSplit : part = (front ++ 123 :: inner) ++ 125 :: rest := by
              rw [hsplit, hobj]
              simp
            exact hpart (mem_dropLast hpartSplit
              (List.mem_append_right _ (List.mem_cons_of_mem _ hdrop)))
          · exact hinner hdrop

theorem not_mem_compareSection (body : Bytes) : 93 ∉ (compareSection body).dropLast := by
  have hname : 93 ∉ named (ascii "compare") 91 := by decide
  unfold compareSection
  split
  · exact List.not_mem_nil
  · next before rest _ =>
    rcases cut_singleton_cases 93 rest with ⟨hcut, hrest⟩ | ⟨inner, behind, hcut, -, hinner⟩
    · rw [hcut]
      dsimp only
      split_ifs
      · exact List.not_mem_nil
      · exact fun hmem => (List.mem_append.mp (List.dropLast_subset _ hmem)).elim hname hrest
    · rw [hcut]
      dsimp only
      rw [List.dropLast_concat]
      exact fun hmem => (List.mem_append.mp hmem).elim hname hinner

theorem not_mem_execSection (body : Bytes) (conditionsMet : Bool) :
    93 ∉ (execSection body conditionsMet).dropLast := by
  have hcons {s : Bytes} (hs : 93 ∉ s) : 93 ∉ 91 :: s := by
    intro hmem
    rcases List.mem_cons.mp hmem with heq | hmem
    · revert heq
      decide
    · exact hs hmem
  unfold execSection
  split
  · exact List.not_mem_nil
  · next before rest _ =>
    rcases cut_singleton_cases 93 rest with ⟨hcut, hrest⟩ | ⟨inner, behind, hcut, -, hinner⟩
    · rw [hcut]
      exact fun hmem => hcons hrest (List.dropLast_subset _ hmem)
    · rw [hcut]
      dsimp only
      rw [← List.cons_append, List.dropLast_concat]
      exact hcons hinner

/-- The value of a name in an object is what stands behind the name, escapes included. -/
theorem parseStr_member {m : Bytes × Bytes} (hw : Word w) (hm : Word m.1 ∧ Body m.2)
    (hquote : 34 ∉ m.2) (hrest : Closed rest) {a : UInt8} (ha : a ≠ 34) :
    parseStr (a :: (member m ++ rest)) w = if m.1 = w then m.2 else parseStr rest w := by
  have hskips {front rest : Bytes} (h : Skips (named w 34) front rest) :
      parseStr (front ++ rest) w = parseStr rest w := by
    rw [parseStr, cut_skips h, parseStr]
    cases cut (named w 34) rest <;> rfl
  have hfirst : Skips (named w 34) [a] (member m ++ rest) :=
    skips_of_not_mem fun hmem => ha (List.mem_singleton.mp hmem).symm
  rw [← List.singleton_append, hskips hfirst]
  split_ifs with hname
  · have htext : member m ++ rest = named w 34 ++ (m.2 ++ 34 :: rest) := by
      rw [← hname]
      simp [member, named, enclose]
    have hself : cut (named w 34) (named w 34 ++ (m.2 ++ 34 :: rest)) =
        some ([], m.2 ++ 34 :: rest) := cut_self (List.cons_ne_nil _ _) _
    rw [htext, parseStr, hself]
    dsimp only
    rw [cut_singleton hquote]
  · exact hskips (skips_member hw hm hrest (.inr hname))

theorem parseStr_object {members : List (Bytes × Bytes)} (hw : Word w)
    (h : ∀ m ∈ members, (Word m.1 ∧ Body m.2) ∧ 34 ∉ m.2) :
    parseStr (object members) w = ((members.find? fun m => m.1 = w).map Prod.snd).getD [] := by
  have hend {s : Bytes} (hs : 34 ∉ s) : parseStr s w = [] := by
    have hcut : cut (named w 34) s = none :=
      cut_none (List.cons_ne_nil _ _) (skips_of_not_mem hs)
    rw [parseStr, hcut]
  have hmembers {a : UInt8} (ha : a ≠ 34) :
      parseStr (a :: (commas (members.map member) ++ [125])) w =
        ((members.find? fun m => m.1 = w).map Prod.snd).getD [] := by
    induction members generalizing a with
    | nil => exact hend (by simp [commas, Ne.symm ha])
    | cons m members ih =>
      have ih := @ih (fun m hm => h m (List.mem_cons_of_mem _ hm)) 44 (by decide)
      have hmore : parseStr (((members.map member).flatMap fun item => 44 :: item) ++ [125]) w =
          ((members.find? fun m => m.1 = w).map Prod.snd).getD [] := by
        cases members with
        | nil => exact hend (by decide)
        | cons m' members => exact ih
      obtain ⟨hm, hquote⟩ := h m List.mem_cons_self
      rw [List.map_cons, commas, List.append_assoc, parseStr_member hw hm hquote
        (closed_commas _ ⟨125, [], rfl, .inr (.inr rfl)⟩) ha, hmore]
      by_cases hname : m.1 = w
      · rw [if_pos hname, List.find?_cons_of_pos (by simpa using hname)]
        rfl
      · rw [if_neg hname, List.find?_cons_of_neg (by simpa using hname)]
  exact hmembers (by decide)

/-- A section that holds an array is taken apart into the objects of the array. -/
theorem objects_array (hfront : 123 ∉ front) {items : List (List (Bytes × Bytes))}
    (h : ∀ members ∈ items, ∀ m ∈ members, Word m.1 ∧ 125 ∉ m.2) :
    objects (front ++ (commas (items.map object) ++ [93])) = items.map object := by
  induction items generalizing front with
  | nil => exact objects_none (by simpa [commas] using hfront)
  | cons members items ih =>
    have ih {front : Bytes} (hfront : 123 ∉ front) :=
      ih hfront fun members hmembers => h members (List.mem_cons_of_mem _ hmembers)
    have hinner : 125 ∉ commas (members.map member) :=
      not_mem_members (.inr rfl) (h members List.mem_cons_self)
    have hmore : objects (((items.map object).flatMap fun item => 44 :: item) ++ [93]) =
        items.map object := by
      cases items with
      | nil => exact objects_none (by decide)
      | cons members' items => exact @ih [44] (by decide)
    have htext : front ++ (commas ((members :: items).map object) ++ [93]) =
        front ++ 123 :: (commas (members.map member) ++
          125 :: (((items.map object).flatMap fun item => 44 :: item) ++ [93])) := by
      simp [commas, object]
    rw [htext, objects_object hfront hinner, hmore]
    rfl

end EtcdServer
end MyEtcd
