import MyEtcd.Http.Handlers

/-! The requests that a client writes for its calls. Whatever way it encodes the parameters and however
the text is cut, the server gets the call itself, or the client is told that it is not admissible. -/
namespace MyEtcd
open Library

namespace ServerCall

def method : ServerCall → Bytes
  | put _ _ _ => ascii "PUT"
  | clusterInfo => ascii "GET"
  | _ => ascii "POST"

def path : ServerCall → Bytes
  | put _ _ _ => ascii "/v3/kv/put"
  | range _ _ => ascii "/v3/kv/range"
  | delete _ => ascii "/v3/kv/delete"
  | txn _ => ascii "/v3/kv/txn"
  | watch _ _ => ascii "/v3/watch"
  | watchCancel _ => ascii "/v3/watch/cancel"
  | leaseGrant _ => ascii "/v3/lease/grant"
  | leaseRevoke _ => ascii "/v3/lease/revoke"
  | leaseKeepAlive _ => ascii "/v3/lease/keepalive"
  | clusterInfo => ascii "/v3/cluster/info"
  | memberAdd _ => ascii "/v3/cluster/member/add"
  | memberRemove _ => ascii "/v3/cluster/member/remove"

/-- The parameters of a call. -/
def params : ServerCall → List (String × Bytes)
  | put key _ leaseId => [("key", key), ("lease", decimalInt leaseId)]
  | range key rangeEnd => [("key", key), ("range_end", rangeEnd)]
  | delete key => [("key", key)]
  | watch key byPrefix => [("key", key), ("prefix", if byPrefix then ascii "true" else ascii "false")]
  | watchCancel id | leaseRevoke id | leaseKeepAlive id => [("ID", decimalInt id)]
  | leaseGrant ttl => [("TTL", decimalInt ttl)]
  | memberAdd peerAddr => [("peer", peerAddr)]
  | memberRemove id => [("ID", decimal id)]
  | txn _ | clusterInfo => []

/-- What a client may leave out. -/
def optional : List (String × Bytes) := [("lease", ascii "0"), ("range_end", []), ("prefix", ascii "false")]

def body : ServerCall → Option Bytes
  | put _ value _ => some value
  | txn body => some body
  | _ => none

/-- The lease of a put is a number of 64 bits. -/
def Typed : ServerCall → Prop
  | put _ _ leaseId => -2 ^ 63 ≤ leaseId ∧ leaseId < 2 ^ 63
  | _ => True

end ServerCall

/-- A parameter in a query, with the texts that stand for its name and its value. -/
structure SentParam where
  name : Bytes
  value : Bytes
  nameText : Bytes
  valueText : Bytes
  name_enc : Encodes nameText name
  value_enc : Encodes valueText value
  texts_wf : ∀ b ∈ nameText ++ valueText, b ≠ 38 ∧ isSpace b = false
  nameText_wf : 61 ∉ nameText

namespace SentParam

def text (p : SentParam) : Bytes := p.nameText ++ 61 :: p.valueText

def joined : List SentParam → Bytes
  | [] => []
  | [p] => p.text
  | p :: q :: rest => p.text ++ 38 :: joined (q :: rest)

def query (params : List SentParam) : Bytes := if params = [] then [] else 63 :: joined params

def named (params : List SentParam) (name : String) : Option Bytes :=
  (params.map fun p => (p.name, p.value)).lookup (ascii name)

end SentParam

open SimpleHttpServer

/-- The header for the token. -/
structure TokenHeader (headers : List (Bytes × Bytes)) (authToken name blanks auth : Bytes) : Prop where
  name_wf : name = ascii "Authorization" ∨ name = ascii "authorization"
  blanks_wf : ∀ b ∈ blanks, b = 32 ∨ b = 9
  auth_wf : ∀ b ∈ auth.head?, b ≠ 32 ∧ b ≠ 9
  token : auth = authToken ∨ auth = ascii "Bearer " ++ authToken
  sent : (name, blanks ++ auth) ∈ headers
  only : ∀ h ∈ headers, h.1 = ascii "Authorization" ∨ h.1 = ascii "authorization" →
    h = (name, blanks ++ auth)

/-- The request is for the call. It may have other parameters and headers. -/
structure Asks (r : SentRequest) (call : ServerCall) (authToken : Bytes) : Prop where
  method : r.method = call.method
  target : ∃ params version, r.target = call.path ++ SentParam.query params ++ 32 :: version ∧
    (params.map SentParam.name).Nodup ∧ ∀ p ∈ call.params,
      SentParam.named params p.1 = some p.2 ∨ p ∈ ServerCall.optional ∧ SentParam.named params p.1 = none
  body : ∀ body ∈ call.body, r.body = body
  token : authToken ≠ [] → ∃ name blanks auth, TokenHeader (r.before ++ r.after) authToken name blanks auth

theorem getlines_last {delim : UInt8} {line : Bytes} (h : delim ∉ line) (hne : line ≠ []) :
    getlines delim line = [line] := by
  induction line with
  | nil => exact absurd rfl hne
  | cons b rest ih =>
    have hb : b ≠ delim := fun heq => h (heq ▸ List.mem_cons_self)
    rw [getlines, if_neg hb]
    cases rest with
    | nil => rfl
    | cons c rest => rw [ih (fun hmem => h (List.mem_cons_of_mem _ hmem)) (List.cons_ne_nil _ _)]

namespace SentParam

theorem text_wf (p : SentParam) : p.text ≠ [] ∧ 38 ∉ p.text := by
  refine ⟨by simp [text], fun hmem => ?_⟩
  rcases List.mem_append.mp hmem with hmem | hmem
  · exact (p.texts_wf 38 (List.mem_append_left _ hmem)).1 rfl
  · rcases List.mem_cons.mp hmem with heq | hmem
    · exact absurd heq (by decide)
    · exact (p.texts_wf 38 (List.mem_append_right _ hmem)).1 rfl

/-- The query is taken apart where it has been put together. -/
theorem getlines_joined (params : List SentParam) : getlines 38 (joined params) = params.map text := by
  induction params with
  | nil => rfl
  | cons p rest ih =>
    cases rest with
    | nil => exact getlines_last p.text_wf.2 p.text_wf.1
    | cons q rest =>
      rw [joined, getlines_append p.text_wf.2, ih]
      rfl

theorem parseQuery_joined (params : List SentParam) : parseQuery (joined params) =
    (params.map fun p => (p.name, p.value)).foldl (fun m e => m.insert e.1 e.2) ∅ := by
  rw [parseQuery, getlines_joined, List.foldl_map, List.foldl_map]
  congr 1
  funext m p
  rw [text, cut_singleton p.nameText_wf]
  dsimp only
  rw [urlDecode_encoded p.name_enc, urlDecode_encoded p.value_enc]

end SentParam

/-- With every name once, the map has what the list has. -/
theorem get?_foldl_lookup {l : List (Bytes × Bytes)} (h : (l.map Prod.fst).Nodup)
    (m : OrderedMap Bytes Bytes) (name : Bytes) :
    (l.foldl (fun m e => m.insert e.1 e.2) m).get? name = (l.lookup name).or (m.get? name) := by
  induction l generalizing m with
  | nil => rfl
  | cons e l ih =>
    obtain ⟨hnew, hrest⟩ := List.nodup_cons.mp h
    rw [List.foldl_cons, ih hrest, List.lookup_cons, OrderedMap.get?_insert]
    rcases eq_or_ne name e.1 with rfl | hname
    · have hnone : l.lookup e.1 = none := by
        refine List.lookup_eq_none_iff.mpr fun e' he' => bne_iff_ne.mpr fun heq => ?_
        exact hnew (heq ▸ List.mem_map_of_mem he')
      rw [hnone, if_pos rfl, beq_self_eq_true]
      rfl
    · rw [if_neg hname, beq_false_of_ne hname]

theorem SentParam.isSpace_query {params : List SentParam} :
    ∀ b ∈ SentParam.query params, isSpace b = false := by
  have htext (p : SentParam) : ∀ b ∈ p.text, isSpace b = false := by
    intro b hb
    rcases List.mem_append.mp hb with hb | hb
    · exact (p.texts_wf b (List.mem_append_left _ hb)).2
    · rcases List.mem_cons.mp hb with rfl | hb
      · rfl
      · exact (p.texts_wf b (List.mem_append_right _ hb)).2
  have hjoined : ∀ b ∈ joined params, isSpace b = false := by
    induction params with
    | nil => exact fun b hb => by cases hb
    | cons p rest ih =>
      cases rest with
      | nil => exact htext p
      | cons q rest =>
        intro b hb
        rcases List.mem_append.mp hb with hb | hb
        · exact htext p b hb
        · rcases List.mem_cons.mp hb with rfl | hb
          · rfl
          · exact ih b hb
  intro b hb
  unfold query at hb
  split_ifs at hb
  · cases hb
  · rcases List.mem_cons.mp hb with rfl | hb
    · rfl
    · exact hjoined b hb

def IsWord (word : Bytes) : Prop := word ≠ [] ∧ ∀ b ∈ word, isSpace b = false

theorem ServerCall.isWord_method (call : ServerCall) : IsWord call.method := by
  have hall : call.method.all (fun b => !isSpace b) = true := by cases call <;> rfl
  refine ⟨fun heq => ?_, fun b hb => ?_⟩
  · cases call <;> cases heq
  · simpa using List.all_eq_true.mp hall b hb

theorem ServerCall.isWord_path (call : ServerCall) : IsWord call.path ∧ 63 ∉ call.path := by
  have hall : call.path.all (fun b => !isSpace b && b != 63) = true := by cases call <;> rfl
  have hbyte (b : UInt8) (hb : b ∈ call.path) : isSpace b = false ∧ b ≠ 63 := by
    simpa using List.all_eq_true.mp hall b hb
  refine ⟨⟨fun heq => ?_, fun b hb => (hbyte b hb).1⟩, fun hmem => (hbyte 63 hmem).2 rfl⟩
  cases call <;> cases heq

theorem ServerCall.not_dangerous (call : ServerCall) : ¬ dangerousMethods.contains call.method := by
  have hnot : dangerousMethods.contains call.method = false := by cases call <;> rfl
  exact ne_true_of_eq_false hnot

section
variable {word : Bytes} (h : IsWord word) (rest : Bytes)
include h

theorem IsWord.takeWhile : (word ++ 32 :: rest).takeWhile (fun b => ¬ isSpace b) = word := by
  rw [List.takeWhile_append_of_pos fun b hb => by simp [h.2 b hb], List.takeWhile_cons_of_neg (by decide),
    List.append_nil]

theorem IsWord.dropWhile : (word ++ 32 :: rest).dropWhile (fun b => ¬ isSpace b) = 32 :: rest := by
  rw [List.dropWhile_append_of_pos fun b hb => by simp [h.2 b hb], List.dropWhile_cons_of_neg (by decide)]

theorem IsWord.dropWhile_space : (word ++ rest).dropWhile isSpace = word ++ rest := by
  obtain ⟨b, more, rfl⟩ := List.exists_cons_of_ne_nil h.1
  rw [List.cons_append, List.dropWhile_cons_of_neg (by simp [h.2 b List.mem_cons_self])]

end

namespace SimpleHttpServer
variable {r : SentRequest} {call : ServerCall} {authToken : Bytes}

/-- The request line is read as the method, the path and the parameters. -/
theorem parseRequest_line {params : List SentParam} {version : Bytes} (rest : Bytes)
    (hmethod : r.method = call.method)
    (htarget : r.target = call.path ++ SentParam.query params ++ 32 :: version) :
    (parseRequest (r.head ++ rest)).method = call.method ∧
      (parseRequest (r.head ++ rest)).path = call.path ∧
      (parseRequest (r.head ++ rest)).queryParams =
        (params.map fun p => (p.name, p.value)).foldl (fun m e => m.insert e.1 e.2) ∅ := by
  have hline : chomp ((getlines 10 (r.head ++ rest)).headD []) = r.method ++ 32 :: r.target := by
    rw [getlines_head]
    change chomp (r.method ++ 32 :: r.target ++ [13]) = _
    rw [chomp, if_pos List.getLast?_concat, List.dropLast_concat]
  have hword := call.isWord_method
  obtain ⟨hpath, hquestion⟩ := call.isWord_path
  have htarget' : IsWord (call.path ++ SentParam.query params) := by
    refine ⟨fun heq => hpath.1 (List.append_eq_nil_iff.mp heq).1, fun b hb => ?_⟩
    exact (List.mem_append.mp hb).elim (hpath.2 b) (SentParam.isSpace_query b)
  have hfront : (call.method ++ 32 :: r.target).dropWhile isSpace = call.method ++ 32 :: r.target :=
    hword.dropWhile_space _
  have hread : ((((call.method ++ 32 :: r.target).dropWhile fun b => ¬ isSpace b).dropWhile
      isSpace).takeWhile fun b => ¬ isSpace b) = call.path ++ SentParam.query params := by
    rw [hword.dropWhile, List.dropWhile_cons_of_pos rfl, htarget, htarget'.dropWhile_space,
      htarget'.takeWhile]
  have hcut : cut [63] (call.path ++ SentParam.query params) =
      if params = [] then none else some (call.path, SentParam.joined params) := by
    rw [SentParam.query]
    split_ifs with hnone
    · rw [List.append_nil]
      exact cut_none (List.cons_ne_nil _ _) (skips_of_not_mem hquestion)
    · exact cut_singleton hquestion _
  unfold parseRequest
  dsimp only
  rw [hline, hmethod, hfront, hread, hcut, hword.takeWhile]
  refine ⟨rfl, ?_, ?_⟩
  · split_ifs with hnone
    · rw [hnone]
      exact List.append_nil _
    · rfl
  · split_ifs with hnone
    · rw [hnone]
      rfl
    · exact SentParam.parseQuery_joined params

end SimpleHttpServer

/-- A header that always has the same value has it in the map. -/
theorem get?_foldl_same {l : List (Bytes × Bytes)} {name value : Bytes}
    (hall : ∀ e ∈ l, e.1 = name → e.2 = value) (m : OrderedMap Bytes Bytes)
    (h : (name, value) ∈ l ∨ m.get? name = some value) :
    (l.foldl (fun m e => m.insert e.1 e.2) m).get? name = some value := by
  induction l generalizing m with
  | nil => exact h.resolve_left List.not_mem_nil
  | cons e l ih =>
    rw [List.foldl_cons]
    refine ih (fun e he => hall e (List.mem_cons_of_mem _ he)) _ ?_
    rw [OrderedMap.get?_insert]
    rcases h with h | h
    · rcases List.mem_cons.mp h with rfl | h
      · exact .inr (if_pos rfl)
      · exact .inl h
    · right
      split_ifs with hname
      · rw [hall e List.mem_cons_self hname.symm]
      · exact h

theorem not_contentLength_token {name : Bytes}
    (h : name = ascii "Authorization" ∨ name = ascii "authorization") : isContentLength name = false := by
  rcases h with rfl | rfl <;> decide

namespace TokenHeader
variable {r : SentRequest} {authToken name blanks auth : Bytes}
  (h : TokenHeader (r.before ++ r.after) authToken name blanks auth)
include h

theorem trimmed_value : (blanks ++ auth).dropWhile (fun b => b = 32 ∨ b = 9) = auth := by
  rw [List.dropWhile_append_of_pos fun b hb => decide_eq_true (h.blanks_wf b hb)]
  cases auth with
  | nil => rfl
  | cons b rest =>
    have hb := h.auth_wf b rfl
    exact List.dropWhile_cons_of_neg (by simp [hb.1, hb.2])

theorem mem_trimmed : (name, auth) ∈ trimmed r.headers := by
  refine List.mem_map.mpr ⟨(name, blanks ++ auth), ?_, by rw [trimmed_value h]⟩
  rcases List.mem_append.mp h.sent with hsent | hsent
  · exact List.mem_append_left _ hsent
  · exact List.mem_append_right _ (List.mem_cons_of_mem _ hsent)

theorem only_trimmed {e : Bytes × Bytes} (he : e ∈ trimmed r.headers)
    (hname : e.1 = ascii "Authorization" ∨ e.1 = ascii "authorization") : e = (name, auth) := by
  obtain ⟨sent, hsent, rfl⟩ := List.mem_map.mp he
  have hmem : sent ∈ r.before ++ r.after := by
    rcases List.mem_append.mp hsent with hsent | hsent
    · exact List.mem_append_left _ hsent
    · rcases List.mem_cons.mp hsent with rfl | hsent
      · have hnot := not_contentLength_token hname
        exact absurd r.lengthName_wf (by rw [hnot]; decide)
      · exact List.mem_append_right _ hsent
  rw [h.only sent hmem hname]
  exact congrArg (Prod.mk name) (trimmed_value h)

theorem found {headers : OrderedMap Bytes Bytes}
    (hheaders : headers = (trimmed r.headers).foldl (fun headers h => headers.insert h.1 h.2) ∅) :
    (headers.get? (ascii "Authorization")).or (headers.get? (ascii "authorization")) = some auth := by
  have hget : headers.get? name = some auth := by
    rw [hheaders]
    refine get?_foldl_same (fun e he hname => ?_) ∅ (.inl (mem_trimmed h))
    rw [only_trimmed h he (hname ▸ h.name_wf)]
  rcases h.name_wf with hname | hname
  · rw [← hname, hget]
    rfl
  · have hnone : headers.get? (ascii "Authorization") = none := by
      rw [hheaders, get?_foldl_headers]
      · rfl
      · intro e he heq
        have hfirst : e.1 = name := by rw [only_trimmed h he (.inl heq)]
        rw [heq, hname] at hfirst
        exact absurd hfirst (by decide)
    rw [hnone, ← hname, hget]
    rfl

end TokenHeader

namespace SimpleHttpServer
variable {r : SentRequest} {call : ServerCall} {authToken : Bytes}

theorem authorized_request {req : HttpRequest}
    (hheaders : req.headers = (trimmed r.headers).foldl (fun headers h => headers.insert h.1 h.2) ∅)
    (h : authToken ≠ [] → ∃ name blanks auth,
      TokenHeader (r.before ++ r.after) authToken name blanks auth) :
    authorized authToken req = true := by
  rw [authorized, Bool.or_eq_true, List.isEmpty_iff]
  refine or_iff_not_imp_left.mpr fun hne => ?_
  obtain ⟨name, blanks, auth, h⟩ := h hne
  rw [h.found hheaders]
  dsimp only
  rcases h.token with rfl | rfl
  · simp
  · have hbearer : (ascii "Bearer ").length = 7 := rfl
    have hlong : (ascii "Bearer " ++ authToken).length > 7 := by
      have hpos := List.length_pos_iff.mpr hne
      rw [List.length_append]
      omega
    rw [Bool.or_eq_true]
    right
    simp only [hlong, List.take_left' hbearer, List.drop_left' hbearer, decide_true, Bool.and_self]

theorem parseInt_decimalInt (n : Int) {rest : Bytes} (h : ∀ b ∈ rest.head?, isDigit b = false) :
    parseInt (decimalInt n ++ rest) = some n := by
  rw [decimalInt]
  split_ifs with hneg
  · have hsign : sign ((45 :: decimal n.natAbs ++ rest).dropWhile isSpace) =
        (true, decimal n.natAbs ++ rest) := rfl
    have hstop : rest.takeWhile isDigit = [] := by
      cases rest with
      | nil => rfl
      | cons b rest => exact List.takeWhile_cons_of_neg (by rw [h b rfl]; decide)
    have htake : (decimal n.natAbs ++ rest).takeWhile isDigit = decimal n.natAbs := by
      rw [List.takeWhile_append_of_pos fun b hb => isDigit_of_mem_decimal hb, hstop, List.append_nil]
    unfold parseInt
    rw [hsign]
    dsimp only
    rw [htake, if_neg (by simpa using decimal_ne_nil _), digitsValue_decimal, if_pos rfl]
    congr 1
    omega
  · rw [parseInt_decimal n.natAbs h]
    congr 1
    omega

theorem stoll_decimalInt (n : Int) :
    stoll (decimalInt n) = if -2 ^ 63 ≤ n ∧ n < 2 ^ 63 then some n else none := by
  have hread : parseInt (decimalInt n ++ []) = some n := parseInt_decimalInt n (by simp)
  rw [List.append_nil] at hread
  rw [stoll, hread, Option.filter_some]
  simp only [decide_eq_true_eq]

theorem stoull_decimal (n : Nat) :
    SnapshotManager.stoull (decimal n) = if n < 2 ^ 64 then some n else none := by
  have hread : parseInt (decimal n ++ []) = some (n : Int) := parseInt_decimal n (by simp)
  rw [List.append_nil] at hread
  rw [SnapshotManager.stoull, hread, Option.bind_some, Int.natAbs_natCast]
  split_ifs with hlt
  · congr 1
    omega
  · rfl

variable {req : HttpRequest} {params : List SentParam}

/-- What the parameters in the map are. -/
structure Carries (req : HttpRequest) (call : ServerCall) (params : List SentParam) : Prop where
  get : ∀ name : String, req.queryParams.get? (ascii name) = SentParam.named params name
  sent : ∀ p ∈ call.params, SentParam.named params p.1 = some p.2 ∨
    p ∈ ServerCall.optional ∧ SentParam.named params p.1 = none

theorem Carries.getParam_eq (h : Carries req call params) {name : String} {value : Bytes}
    (hp : (name, value) ∈ call.params) (hopt : (name, value) ∈ ServerCall.optional → value = []) :
    getParam req name = value := by
  rw [getParam, h.get]
  rcases h.sent _ hp with hsent | ⟨hmem, hsent⟩
  · rw [hsent]
    rfl
  · rw [hsent, hopt hmem]
    rfl

theorem Carries.intParam_eq (h : Carries req call params) {name : String} {n : Int}
    (hp : (name, decimalInt n) ∈ call.params)
    (hopt : (name, decimalInt n) ∈ ServerCall.optional → n = 0) :
    intParam req name = if -2 ^ 63 ≤ n ∧ n < 2 ^ 63 then n else 0 := by
  rw [intParam, h.get]
  rcases h.sent _ hp with hsent | ⟨hmem, hsent⟩
  · rw [hsent, Option.bind_some, stoll_decimalInt]
    split_ifs <;> rfl
  · rw [hsent, hopt hmem]
    rfl

/-- The call if it is admissible, or an error that the client has made. -/
def Answers (call : ServerCall) (result : Except HttpResponse ServerCall) : Prop :=
  (call.Admissible → result = .ok call) ∧
    (¬ call.Admissible → ∃ text, result = .error (badRequest text))

theorem answers_forKey {make : Bytes → ServerCall} {key : Bytes} (hkey : getParam req "key" = key)
    (hmake : (make key).Admissible ↔ key ≠ []) : Answers (make key) (forKey req make) := by
  rw [forKey, hkey]
  constructor
  · intro hgood
    exact if_neg fun hnil => hmake.mp hgood (List.isEmpty_iff.mp hnil)
  · intro hbad
    exact ⟨_, if_pos (List.isEmpty_iff.mpr (not_not.mp (mt hmake.mpr hbad)))⟩

theorem answers_forId {make : Int → ServerCall} {id : Int}
    (hid : intParam req "ID" = if -2 ^ 63 ≤ id ∧ id < 2 ^ 63 then id else 0)
    (hmake : (make id).Admissible ↔ 0 < id ∧ id < 2 ^ 63) : Answers (make id) (forId req make) := by
  rw [Answers, hmake]
  constructor
  · intro hgood
    have hin : -2 ^ 63 ≤ id ∧ id < 2 ^ 63 := by omega
    rw [forId, hid, if_pos hin]
    exact if_neg (not_le.mpr hgood.1)
  · intro hbad
    have hsmall : intParam req "ID" ≤ 0 := by
      rw [hid]
      split_ifs <;> omega
    exact ⟨_, if_pos hsmall⟩

theorem answers_handlePut {key value : Bytes} {leaseId : Int} (hkey : getParam req "key" = key)
    (hlease : intParam req "lease" = leaseId) (hvalue : req.body = value)
    (htyped : (ServerCall.put key value leaseId).Typed) :
    Answers (.put key value leaseId) (handlePut req) := by
  have hadmissible : (ServerCall.put key value leaseId).Admissible ↔
      handlePutError key value = none := by
    rw [handlePutError]
    split_ifs with hempty hlong hlarge
    · exact iff_of_false (fun h => h.1 (List.isEmpty_iff.mp hempty)) (by simp)
    · exact iff_of_false (fun h => not_le.mpr hlong h.2.1) (by simp)
    · exact iff_of_false (fun h => not_le.mpr hlarge h.2.2.1) (by simp)
    · refine iff_of_true ⟨fun heq => hempty (List.isEmpty_iff.mpr heq), not_lt.mp hlong,
        not_lt.mp hlarge, htyped.1, htyped.2⟩ rfl
  rw [Answers, hadmissible, handlePut, hkey, hlease, hvalue]
  cases handlePutError key value with
  | none => exact ⟨fun _ => rfl, fun hbad => absurd rfl hbad⟩
  | some text => exact ⟨(fun hgood => by cases hgood), fun _ => ⟨text, rfl⟩⟩

theorem answers_handleLeaseGrant {ttl : Int}
    (httl : intParam req "TTL" = if -2 ^ 63 ≤ ttl ∧ ttl < 2 ^ 63 then ttl else 0) :
    Answers (.leaseGrant ttl) (handleLeaseGrant req) := by
  rw [handleLeaseGrant, httl]
  constructor
  · intro hgood
    have hgood : 0 < ttl ∧ ttl ≤ 31536000 := hgood
    have hin : -2 ^ 63 ≤ ttl ∧ ttl < 2 ^ 63 := by omega
    have hsmall : ¬ ttl > 86400 * 365 := not_lt.mpr hgood.2
    rw [if_pos hin, if_neg (not_le.mpr hgood.1), if_neg hsmall]
  · intro hbad
    have hbad : ¬ (0 < ttl ∧ ttl ≤ 31536000) := hbad
    split_ifs
    · exact ⟨_, rfl⟩
    · exact ⟨_, rfl⟩
    · omega
    · exact ⟨_, rfl⟩
    · omega
    · omega

theorem answers_handleMemberAdd {peerAddr : Bytes} (hpeer : getParam req "peer" = peerAddr) :
    Answers (.memberAdd peerAddr) (handleMemberAdd req) := by
  rw [handleMemberAdd, hpeer]
  constructor
  · intro hgood
    exact if_neg fun hnil => hgood (List.isEmpty_iff.mp hnil)
  · intro hbad
    exact ⟨_, if_pos (List.isEmpty_iff.mpr (not_not.mp hbad))⟩

theorem answers_handleMemberRemove {id : Nat}
    (hid : req.queryParams.get? (ascii "ID") = some (decimal id)) :
    Answers (.memberRemove id) (handleMemberRemove req) := by
  rw [handleMemberRemove, hid, Option.bind_some, stoull_decimal]
  constructor
  · intro hgood
    rw [if_pos hgood.2]
    exact if_neg (Nat.pos_iff_ne_zero.mp hgood.1)
  · intro hbad
    have hbad : ¬ (0 < id ∧ id < 2 ^ 64) := hbad
    refine ⟨_, if_pos ?_⟩
    split_ifs
    · exact Nat.eq_zero_of_not_pos fun hpos => hbad ⟨hpos, by assumption⟩
    · rfl

theorem optional_names {name : String} {value : Bytes} (h : (name, value) ∈ ServerCall.optional) :
    name ∈ ["lease", "range_end", "prefix"] := by
  have hmem := List.mem_map_of_mem (f := Prod.fst) h
  exact hmem

theorem optional_lease {n : Int} (h : ("lease", decimalInt n) ∈ ServerCall.optional) : n = 0 := by
  have htext : decimalInt n = ascii "0" := by simpa [ServerCall.optional] using h
  have hread : parseInt (decimalInt n ++ []) = some n := parseInt_decimalInt n (by simp)
  rw [htext] at hread
  exact (Option.some.inj hread).symm

/-- The route of a call leads to its handler, which takes it as it was meant. -/
theorem routes_call (h : Carries req call params) (hbody : ∀ body ∈ call.body, req.body = body)
    (htyped : call.Typed) :
    ∃ handler, routes call.method call.path = some handler ∧ Answers call (handler req) := by
  have hnot {name : String} {value : Bytes} {p : Prop}
      (hname : name ∉ ["lease", "range_end", "prefix"])
      (hmem : (name, value) ∈ ServerCall.optional) : p :=
    absurd (optional_names hmem) hname
  cases call with
  | put key value leaseId =>
    refine ⟨handlePut, rfl, answers_handlePut ?_ ?_ (hbody value rfl) htyped⟩
    · exact h.getParam_eq List.mem_cons_self (hnot (by decide))
    · have htyped : -2 ^ 63 ≤ leaseId ∧ leaseId < 2 ^ 63 := htyped
      have hlease := h.intParam_eq (List.mem_cons_of_mem _ List.mem_cons_self) optional_lease
      rwa [if_pos htyped] at hlease
  | range key rangeEnd =>
    have hend : getParam req "range_end" = rangeEnd := by
      refine h.getParam_eq (List.mem_cons_of_mem _ List.mem_cons_self) fun hmem => ?_
      simpa [ServerCall.optional] using hmem
    refine ⟨handleRange, rfl, ?_⟩
    rw [handleRange, hend]
    refine @answers_forKey req (fun key => .range key rangeEnd) key ?_ Iff.rfl
    exact h.getParam_eq List.mem_cons_self (hnot (by decide))
  | delete key =>
    refine ⟨handleDelete, rfl, answers_forKey ?_ Iff.rfl⟩
    exact h.getParam_eq List.mem_cons_self (hnot (by decide))
  | txn requestBody =>
    refine ⟨handleTxn, rfl, fun _ => ?_, fun hbad => absurd trivial hbad⟩
    rw [handleTxn, hbody requestBody rfl]
  | watch key byPrefix =>
    have hflag : decide (getParam req "prefix" = ascii "true") = byPrefix := by
      rw [getParam, h.get]
      rcases h.sent _ (List.mem_cons_of_mem _ List.mem_cons_self) with hsent | ⟨hmem, hsent⟩
      · rw [hsent]
        cases byPrefix <;> rfl
      · rw [hsent]
        cases byPrefix with
        | false => rfl
        | true => exact absurd hmem (by decide)
    refine ⟨handleWatch, rfl, ?_⟩
    rw [handleWatch, hflag]
    refine @answers_forKey req (fun key => .watch key byPrefix) key ?_ Iff.rfl
    exact h.getParam_eq List.mem_cons_self (hnot (by decide))
  | watchCancel id =>
    refine ⟨handleWatchCancel, rfl, answers_forId ?_ Iff.rfl⟩
    exact h.intParam_eq List.mem_cons_self (hnot (by decide))
  | leaseGrant ttl =>
    refine ⟨handleLeaseGrant, rfl, answers_handleLeaseGrant ?_⟩
    exact h.intParam_eq List.mem_cons_self (hnot (by decide))
  | leaseRevoke id =>
    refine ⟨handleLeaseRevoke, rfl, answers_forId ?_ Iff.rfl⟩
    exact h.intParam_eq List.mem_cons_self (hnot (by decide))
  | leaseKeepAlive id =>
    refine ⟨handleLeaseKeepAlive, rfl, answers_forId ?_ Iff.rfl⟩
    exact h.intParam_eq List.mem_cons_self (hnot (by decide))
  | clusterInfo => exact ⟨_, rfl, fun _ => rfl, fun hbad => absurd trivial hbad⟩
  | memberAdd peerAddr =>
    refine ⟨handleMemberAdd, rfl, answers_handleMemberAdd ?_⟩
    exact h.getParam_eq List.mem_cons_self (hnot (by decide))
  | memberRemove id =>
    refine ⟨handleMemberRemove, rfl, answers_handleMemberRemove ?_⟩
    rw [h.get]
    exact (h.sent _ List.mem_cons_self).resolve_right fun hopt => hnot (by decide) hopt.1

/-- A request for a call is dispatched to it, if its body has arrived or the call has none. -/
theorem dispatch_parseRequest (h : Asks r call authToken) (htyped : call.Typed) {rest : Bytes}
    (hbody : ∀ body ∈ call.body, (parseRequest (r.head ++ rest)).body = body) :
    Answers call (dispatch authToken (parseRequest (r.head ++ rest))) := by
  obtain ⟨params, version, htarget, hnodup, hsent⟩ := h.target
  obtain ⟨hmethod, hpath, hparams⟩ := parseRequest_line rest h.method htarget
  have hauth : authorized authToken (parseRequest (r.head ++ rest)) = true :=
    authorized_request (parseHeaders_request r rest) h.token
  have hnames : ((params.map fun p => (p.name, p.value)).map Prod.fst).Nodup := by
    rw [List.map_map]
    exact hnodup
  have hcarries : Carries (parseRequest (r.head ++ rest)) call params := by
    refine ⟨fun name => ?_, hsent⟩
    rw [hparams, get?_foldl_lookup hnames]
    exact Option.or_none
  obtain ⟨handler, hroute, hanswers⟩ := routes_call hcarries hbody htyped
  rw [dispatch, hmethod, hpath, if_neg call.not_dangerous, if_neg (not_not.mpr hauth), hroute]
  exact hanswers

end SimpleHttpServer

namespace Transmission
open SimpleHttpServer

/-- Only a call that has a body depends on what has been received of it. -/
theorem answers_call (t : Transmission) {call : ServerCall} {authToken : Bytes}
    (h : Asks t.request call authToken) (htyped : call.Typed) (hzero : ∀ body ∈ call.body, 0 ∉ body) :
    ∃ req, handleClient t.chunks = some req ∧ Answers call (dispatch authToken req) := by
  obtain ⟨rest, hrequest, hrest⟩ := t.handleClient_head
  refine ⟨_, hrequest, dispatch_parseRequest h htyped fun body hbody => ?_⟩
  have hsent := h.body body hbody
  rw [hrest (hsent ▸ hzero body hbody)]
  exact (body_parseRequest _ t.length_body).trans hsent

/-- A call that a client sends, in any order and encoding of its parameters and cut in any way, arrives at
the server as it was sent if it is admissible. If not, the client is told with status 400. -/
theorem call_arrives (t : Transmission) {call : ServerCall} {authToken : Bytes}
    (h : Asks t.request call authToken) (htyped : call.Typed) (hzero : ∀ body ∈ call.body, 0 ∉ body) :
    ∃ req, handleClient t.chunks = some req ∧
      (call.Admissible → dispatch authToken req = .ok call) ∧
      (¬ call.Admissible → ∃ text, dispatch authToken req = .error (badRequest text)) :=
  t.answers_call h htyped hzero

def leasedPut : ServerCall := .put (ascii "a b") (ascii "xyz") (-7)

theorem put_wf : ∀ b ∈ ascii "PUT", b ≠ 0 ∧ b ≠ 10 ∧ b ≠ 13 ∧ b ≠ 58 := forall_of_all (by decide)

def leasedPutRequest : SentRequest where
  method := ascii "PUT"
  target := ascii "/v3/kv/put?lease=%2D7&key=a+b HTTP/1.1"
  before := [(ascii "Host", ascii " h"), (ascii "authorization", ascii " Bearer t")]
  lengthName := ascii "content-length"
  blanks := [32, 9]
  digits := [51]
  behind := []
  after := []
  body := ascii "xyz"
  method_wf := put_wf
  target_wf := forall_of_all (by decide)
  headers_wf := by
    intro h hmem
    rcases List.mem_cons.mp hmem with rfl | hmem
    · exact ⟨forall_of_all (by decide), forall_of_all (by decide), by decide⟩
    · obtain rfl := List.mem_singleton.mp hmem
      exact ⟨forall_of_all (by decide), forall_of_all (by decide), by decide⟩
  lengthName_wf := by decide
  blanks_wf := forall_of_all (by decide)
  digits_wf := ⟨by decide, forall_of_all (by decide), by decide⟩

/-- In two chunks. -/
def leasedPutSent : Transmission where
  request := leasedPutRequest
  chunks := [leasedPutRequest.text.take 30, leasedPutRequest.text.drop 30]
  whole := by decide
  sizes := by decide
  total := by decide

theorem encodes_plain {text : Bytes} (h : ∀ b ∈ text, b ≠ 37 ∧ b ≠ 43) : Encodes text text := by
  induction text with
  | nil => exact .nil
  | cons b rest ih =>
    obtain ⟨hb, hrest⟩ := List.forall_mem_cons.mp h
    exact .plain hb (ih hrest)

def leaseParam : SentParam where
  name := ascii "lease"
  value := ascii "-7"
  nameText := ascii "lease"
  valueText := ascii "%2D7"
  name_enc := encodes_plain (forall_of_all (by decide))
  value_enc := @Encodes.escaped 50 68 2 13 [55] [55] rfl rfl (.plain (by decide) .nil)
  texts_wf := forall_of_all (by decide)
  nameText_wf := by decide

def keyParam : SentParam where
  name := ascii "key"
  value := ascii "a b"
  nameText := ascii "key"
  valueText := ascii "a+b"
  name_enc := encodes_plain (forall_of_all (by decide))
  value_enc := .plain (by decide) (.plus (.plain (by decide) .nil))
  texts_wf := forall_of_all (by decide)
  nameText_wf := by decide

theorem asks_leasedPut : Asks leasedPutRequest leasedPut (ascii "t") := by
  refine ⟨rfl, ⟨[leaseParam, keyParam], ascii "HTTP/1.1", rfl, by decide, ?_⟩, ?_, ?_⟩
  · intro p hp
    left
    rcases List.mem_cons.mp hp with rfl | hp
    · rfl
    · obtain rfl := List.mem_singleton.mp hp
      rfl
  · intro body hbody
    exact Option.some.inj hbody
  · intro _
    refine ⟨ascii "authorization", [32], ascii "Bearer t", .inr rfl, forall_of_all (by decide), ?_,
      .inr rfl, by decide, by decide⟩
    intro b hb
    obtain rfl := Option.some.inj hb
    decide

theorem admissible_leasedPut : leasedPut.Admissible :=
  ⟨by decide, by decide, by decide, by decide, by decide⟩

theorem leasedPut_arrives : ∃ req, handleClient leasedPutSent.chunks = some req ∧
    dispatch (ascii "t") req = .ok leasedPut := by
  have htyped : leasedPut.Typed := ⟨by decide, by decide⟩
  have hzero : ∀ body ∈ leasedPut.body, 0 ∉ body := by
    intro body hbody
    obtain rfl := Option.some.inj hbody
    decide
  obtain ⟨req, hreceived, hgood, _⟩ := leasedPutSent.call_arrives asks_leasedPut htyped hzero
  exact ⟨req, hreceived, hgood admissible_leasedPut⟩

end Transmission
end MyEtcd
