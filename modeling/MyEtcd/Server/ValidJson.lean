import MyEtcd.Server.CompactJson
import MyEtcd.Server.HttpHandler

/-! Which answers are JSON texts that say what they are meant to say.
`escape` leaves control characters as they are, except for the three that it has a letter for, and the
address of a new member is not escaped at all. -/
namespace MyEtcd
open Library Json
open Library.JsonValue (Denotes IsText parse)

namespace Json

def kvValue (kv : KeyValue) : JsonValue :=
  .object [(ascii "key", .string kv.key), (ascii "value", .string kv.value),
    (ascii "create_revision", .number (decimalInt kv.createRevision)),
    (ascii "mod_revision", .number (decimalInt kv.modRevision)),
    (ascii "version", .number (decimal kv.version)), (ascii "lease", .number (decimalInt kv.leaseId))]

def kvListValue (kvs : List KeyValue) (count : Int) : JsonValue :=
  .object [(ascii "count", .number (if count > 0 then decimalInt count else decimal kvs.length)),
    (ascii "kvs", .array (kvs.map kvValue))]

def watchEventValue (ev : WatchEvent) : JsonValue :=
  .object [(ascii "type", .string (if ev.type = .put then ascii "PUT" else ascii "DELETE")),
    (ascii "kv", kvValue ev.kv)]

def errorValue (code : Int) (message : Bytes) : JsonValue :=
  .object [(ascii "error", .string message), (ascii "code", .number (decimalInt code))]

/-- A result of a transaction, as the entry that the operation proposes. -/
def resultValue (entry : RaftEntry) : JsonValue :=
  .object [(ascii "type", .string (if entry.type = .put then ascii "PUT" else ascii "DELETE")),
    (ascii "key", .string entry.key)]

def txnValue (entries : List RaftEntry) (succeeded : Bool) : JsonValue :=
  .object [(ascii "succeeded", .bool succeeded), (ascii "results", .array (entries.map resultValue))]

def clusterValue (config : ServerConfig) (n : RaftNode) (kvstore : KVStore) : JsonValue :=
  .object [(ascii "node_id", .number (decimal config.nodeId)), (ascii "name", .string config.name),
    (ascii "state", .string (EtcdServer.stateText n.state)),
    (ascii "term", .number (decimal n.currentTerm)), (ascii "leader_id", .number (decimal n.leaderId)),
    (ascii "revision", .number (decimalInt kvstore.currentRevision)),
    (ascii "keys", .number (decimal kvstore.keys.length))]

def memberValue (id : Nat) (peerAddr : Bytes) : JsonValue :=
  .object [(ascii "header", .object [(ascii "revision", .number (decimal 0))]),
    (ascii "member", .object [(ascii "ID", .number (decimal id)),
      (ascii "peerURLs", .array [.string peerAddr])])]

theorem print_kvValue (kv : KeyValue) : print (kvValue kv) = kvToJson kv := by
  unfold kvToJson
  simp only [kvValue, print_object, List.map_cons, List.map_nil, printMember, print_string, print_number,
    commas, List.flatMap_cons, List.flatMap_nil, quote, List.append_assoc, List.cons_append]
  rfl

theorem print_kvListValue (kvs : List KeyValue) (count : Int) :
    print (kvListValue kvs count) = kvListToJson kvs count := by
  have hkvs : (kvs.map kvValue).map print = kvs.map kvToJson := by
    rw [List.map_map]
    exact List.map_congr_left fun kv _ => print_kvValue kv
  simp only [kvListValue, print_object, List.map_cons, List.map_nil, printMember, print_array, hkvs,
    print_number, commas, List.flatMap_cons, List.flatMap_nil, quote, kvListToJson, List.append_assoc,
    List.cons_append]
  split_ifs <;> simp only [List.append_assoc] <;> rfl

theorem print_watchEventValue (ev : WatchEvent) : print (watchEventValue ev) = watchEventToJson ev := by
  simp only [watchEventValue, print_object, List.map_cons, List.map_nil, printMember, print_string,
    print_kvValue, commas, List.flatMap_cons, List.flatMap_nil, quote, watchEventToJson,
    List.append_assoc, List.cons_append]
  generalize kvToJson ev.kv = text
  split_ifs <;> rfl

theorem print_errorValue (code : Int) (message : Bytes) :
    print (errorValue code message) = (HttpResponse.setError {} code message).body := by
  simp only [errorValue, print_object, List.map_cons, List.map_nil, printMember, print_string,
    print_number, commas, List.flatMap_cons, List.flatMap_nil, quote, HttpResponse.setError,
    List.append_assoc, List.cons_append]
  rfl

theorem txnResult_eq (op : TxnOp) :
    EtcdServer.txnResult op = op.entry.map fun entry => print (resultValue entry) := by
  have hput {entry : RaftEntry} (h : entry.type = .put) : print (resultValue entry) =
      ascii "\x7b\"type\":\"PUT\",\"key\":\"" ++ escape entry.key ++ ascii "\"\x7d" := by
    simp only [resultValue, if_pos h, print_object, List.map_cons, List.map_nil, printMember,
      print_string, commas, List.flatMap_cons, List.flatMap_nil, quote, List.append_assoc,
      List.cons_append]
    rfl
  have hdelete {entry : RaftEntry} (h : entry.type ≠ .put) : print (resultValue entry) =
      ascii "\x7b\"type\":\"DELETE\",\"key\":\"" ++ escape entry.key ++ ascii "\"\x7d" := by
    simp only [resultValue, if_neg h, print_object, List.map_cons, List.map_nil, printMember,
      print_string, commas, List.flatMap_cons, List.flatMap_nil, quote, List.append_assoc,
      List.cons_append]
    rfl
  obtain ⟨type, key, value⟩ := op
  rw [EtcdServer.txnResult, TxnOp.entry]
  by_cases hkey : key = []
  · rw [if_neg (fun h => h.2 hkey), if_neg (fun h => h.2 hkey), if_pos hkey]
    rfl
  · rw [if_neg hkey]
    cases type with
    | put =>
      rw [if_pos ⟨rfl, hkey⟩, Option.map_some, hput rfl]
    | delete =>
      rw [if_neg (fun h => by cases h.1), if_pos ⟨rfl, hkey⟩, Option.map_some,
        hdelete (fun h => by cases h)]
    | other =>
      rw [if_neg (fun h => by cases h.1), if_neg (fun h => by cases h.1)]
      rfl

theorem operations_missing {requestBody : Bytes} {conditionsMet : Bool}
    (h : (cut (named (EtcdServer.opsToExecute conditionsMet) 91) requestBody).isNone = true) :
    EtcdServer.operations requestBody conditionsMet = [] := by
  rw [EtcdServer.operations, EtcdServer.execSection, Option.isNone_iff_eq_none.mp h,
    EtcdServer.objects_none List.not_mem_nil]
  rfl

def proposals (requestBody : Bytes) (conditionsMet : Bool) : List RaftEntry :=
  (EtcdServer.operations requestBody conditionsMet).filterMap TxnOp.entry

theorem print_txnValue (requestBody : Bytes) (conditionsMet : Bool) :
    print (txnValue (proposals requestBody conditionsMet) conditionsMet) =
      (EtcdServer.txnResponse requestBody conditionsMet).body := by
  have hresults : ((proposals requestBody conditionsMet).map resultValue).map print =
      (EtcdServer.operations requestBody conditionsMet).filterMap EtcdServer.txnResult := by
    rw [proposals, List.map_map, List.map_filterMap]
    exact List.filterMap_congr fun op _ => (txnResult_eq op).symm
  have hbool : print (.bool conditionsMet) = if conditionsMet then ascii "true" else ascii "false" := by
    rw [print]
  have hprint : print (txnValue (proposals requestBody conditionsMet) conditionsMet) =
      ascii "\x7b\"succeeded\":" ++ (if conditionsMet then ascii "true" else ascii "false") ++
        ascii ",\"results\":[" ++
        commas ((EtcdServer.operations requestBody conditionsMet).filterMap EtcdServer.txnResult) ++
        ascii "]\x7d" := by
    simp only [txnValue, print_object, List.map_cons, List.map_nil, printMember, print_array, hresults,
      hbool, commas, List.flatMap_cons, List.flatMap_nil, quote, List.append_assoc, List.cons_append]
    rfl
  rw [hprint, EtcdServer.txnResponse]
  by_cases hmissing : (cut (named (EtcdServer.opsToExecute conditionsMet) 91) requestBody).isNone
  · rw [operations_missing hmissing, if_pos hmissing]
    simp only [HttpResponse.setJson, List.filterMap_nil, commas, List.append_nil, List.append_assoc]
    rfl
  · rw [if_neg hmissing]
    rfl

theorem print_memberValue (id : Nat) (peerAddr : Bytes) :
    print (memberValue id peerAddr) = EtcdServer.memberJson id (escape peerAddr) := by
  unfold EtcdServer.memberJson
  simp only [memberValue, print_object, List.map_cons, List.map_nil, printMember, print_array,
    print_string, print_number, commas, List.flatMap_cons, List.flatMap_nil, quote, List.append_assoc,
    List.cons_append]
  rfl

theorem print_clusterValue (config : ServerConfig) (n : RaftNode) (kvstore : KVStore) :
    print (clusterValue config n kvstore) = (EtcdServer.clusterInfo config n kvstore).body := by
  simp only [clusterValue, print_object, List.map_cons, List.map_nil, printMember, print_string,
    print_number, commas, List.flatMap_cons, List.flatMap_nil, quote, EtcdServer.clusterInfo,
    HttpResponse.setJson, List.append_assoc, List.cons_append]
  cases n.state <;> rfl

section
variable {P : Bytes → Prop}

theorem built_kvValue (kv : KeyValue) : Built P (kvValue kv) ↔ P kv.key ∧ P kv.value := by
  rw [kvValue, built_object_iff (by simp only [List.forall_mem_cons]; decide)]
  simp

theorem built_kvListValue (kvs : List KeyValue) (count : Int) :
    Built P (kvListValue kvs count) ↔ ∀ kv ∈ kvs, P kv.key ∧ P kv.value := by
  have hcount : Built P (.number (if count > 0 then decimalInt count else decimal kvs.length)) := by
    split_ifs
    · exact built_decimalInt _
    · exact built_decimal _
  rw [kvListValue, built_object_iff (by simp only [List.forall_mem_cons]; decide)]
  simp [hcount, built_kvValue]

theorem built_errorValue (code : Int) (message : Bytes) :
    Built P (errorValue code message) ↔ P message := by
  rw [errorValue, built_object_iff (by simp only [List.forall_mem_cons]; decide)]
  simp

theorem built_memberValue (id : Nat) (peerAddr : Bytes) :
    Built P (memberValue id peerAddr) ↔ P peerAddr := by
  have hheader : Built P (.object [(ascii "revision", .number (decimal 0))]) := by
    rw [built_object_iff (by simp only [List.forall_mem_cons]; decide)]
    simp
  rw [memberValue, built_object_iff (by simp only [List.forall_mem_cons]; decide)]
  simp only [List.forall_mem_cons, hheader, true_and]
  rw [built_object_iff (by simp only [List.forall_mem_cons]; decide)]
  simp

variable (hP : ∀ s, Fixed s → P s)
include hP

theorem built_watchEventValue (ev : WatchEvent) :
    Built P (watchEventValue ev) ↔ P ev.kv.key ∧ P ev.kv.value := by
  have htype : P (if ev.type = .put then ascii "PUT" else ascii "DELETE") := by
    split_ifs <;> exact hP _ (by decide)
  rw [watchEventValue, built_object_iff (by simp only [List.forall_mem_cons]; decide)]
  simp [htype, built_kvValue]

theorem built_txnValue (entries : List RaftEntry) (succeeded : Bool) :
    Built P (txnValue entries succeeded) ↔ ∀ entry ∈ entries, P entry.key := by
  have hresult (entry : RaftEntry) : Built P (resultValue entry) ↔ P entry.key := by
    have htype : P (if entry.type = .put then ascii "PUT" else ascii "DELETE") := by
      split_ifs <;> exact hP _ (by decide)
    rw [resultValue, built_object_iff (by simp only [List.forall_mem_cons]; decide)]
    simp [htype]
  rw [txnValue, built_object_iff (by simp only [List.forall_mem_cons]; decide)]
  simp [hresult]

theorem built_clusterValue (config : ServerConfig) (n : RaftNode) (kvstore : KVStore) :
    Built P (clusterValue config n kvstore) ↔ P config.name := by
  have hstate : P (EtcdServer.stateText n.state) := by
    cases n.state <;> exact hP _ (by decide)
  rw [clusterValue, built_object_iff (by simp only [List.forall_mem_cons]; decide)]
  simp [hstate]

end

end Json

/-- The answers with text of clients or of the configuration in them. -/
inductive Answer where
  | kvList (kvs : List KeyValue) (count : Int)
  | watchEvent (ev : WatchEvent)
  | error (code : Int) (message : Bytes)
  | txn (requestBody : Bytes) (conditionsMet : Bool)
  | clusterInfo (config : ServerConfig) (n : RaftNode) (kvstore : KVStore)
  | memberAdd (n : RaftNode) (peerAddr : Bytes) (refusal : Option Bytes)

namespace Answer

def body : Answer → Bytes
  | kvList kvs count => kvListToJson kvs count
  | watchEvent ev => watchEventToJson ev
  | error code message => (HttpResponse.setError {} code message).body
  | txn requestBody conditionsMet => (EtcdServer.txnResponse requestBody conditionsMet).body
  | clusterInfo config n kvstore => (EtcdServer.clusterInfo config n kvstore).body
  | memberAdd n peerAddr refusal => (EtcdServer.memberAddResponse n peerAddr refusal).body

/-- What an answer is meant to say. -/
def value : Answer → JsonValue
  | kvList kvs count => kvListValue kvs count
  | watchEvent ev => watchEventValue ev
  | error code message => errorValue code message
  | txn requestBody conditionsMet => txnValue (proposals requestBody conditionsMet) conditionsMet
  | clusterInfo config n kvstore => clusterValue config n kvstore
  | memberAdd n peerAddr refusal =>
    match EtcdServer.memberAddResult n peerAddr refusal with
    | .error (code, text) => errorValue code text
    | .ok newId => memberValue newId peerAddr

/-- The texts that go through `escape`. -/
def escaped : Answer → List Bytes
  | kvList kvs _ => kvs.flatMap fun kv => [kv.key, kv.value]
  | watchEvent ev => [ev.kv.key, ev.kv.value]
  | error _ message => [message]
  | txn requestBody conditionsMet => (proposals requestBody conditionsMet).map RaftEntry.key
  | clusterInfo config _ _ => [config.name]
  | memberAdd n peerAddr refusal =>
    match EtcdServer.memberAddResult n peerAddr refusal with
    | .error (_, text) => [text]
    | .ok _ => []

/-- The texts that do not. -/
def unescaped : Answer → List Bytes
  | memberAdd n peerAddr refusal =>
    match EtcdServer.memberAddResult n peerAddr refusal with
    | .error _ => []
    | .ok _ => [peerAddr]
  | _ => []

/-- The body is a JSON text, and a parser gets out of it what it is meant to say. -/
def Says (text : Bytes) (v : JsonValue) : Prop := (∃ w, IsText w text) ∧ parse text = some v

theorem says_iff {text : Bytes} {v : JsonValue} :
    Says text v ↔ Utf8 text ∧ Denotes (.element v) text := by
  rw [Says, JsonValue.parse_eq_some_iff]
  constructor
  · rintro ⟨⟨w, hutf8, -⟩, hdenotes⟩
    exact ⟨hutf8, hdenotes⟩
  · rintro ⟨hutf8, hdenotes⟩
    exact ⟨⟨v, hutf8, hdenotes⟩, hdenotes⟩

theorem says_print_iff {v : JsonValue} (h : Built Utf8 v) : Says (print v) v ↔ Built NoControl v := by
  rw [says_iff]
  constructor
  · rintro ⟨-, hdenotes⟩
    exact noControl_of_print h hdenotes.not_control
  · intro hcontrol
    exact ⟨utf8_print h, denotes_element (denotes_print hcontrol)⟩

theorem length_memberJson (id : Nat) (s : Bytes) :
    (EtcdServer.memberJson id s).length = (EtcdServer.memberJson id []).length + s.length := by
  simp only [EtcdServer.memberJson, List.length_append, List.length_nil]
  omega

theorem says_memberJson_iff {id : Nat} {peerAddr : Bytes} (h : Utf8 peerAddr) :
    Says (EtcdServer.memberJson id peerAddr) (memberValue id peerAddr) ↔ Verbatim peerAddr := by
  constructor
  · intro hsays
    obtain ⟨-, hdenotes⟩ := says_iff.mp hsays
    have hlength := length_print_le hdenotes
    rw [printPart, print_memberValue, length_memberJson id peerAddr, length_memberJson id (escape _)]
      at hlength
    refine verbatim_iff.mpr ⟨fun b hb => hdenotes.not_control b ?_,
      plain_of_length_escape_le (by omega)⟩
    rw [EtcdServer.memberJson]
    exact List.mem_append_left _ (List.mem_append_right _ hb)
  · intro hverbatim
    obtain ⟨hcontrol, hplain⟩ := verbatim_iff.mp hverbatim
    have hprint : EtcdServer.memberJson id peerAddr = print (memberValue id peerAddr) := by
      rw [print_memberValue, escape_plain hplain]
    rw [hprint]
    exact (says_print_iff ((built_memberValue _ _).mpr h)).mpr ((built_memberValue _ _).mpr hcontrol)

theorem says_iff_of_print {text : Bytes} {v : JsonValue} {strings : List Bytes} (hprint : print v = text)
    (hbuilt : ∀ P : Bytes → Prop, (∀ s, Fixed s → P s) → (Built P v ↔ ∀ s ∈ strings, P s))
    (h : ∀ s ∈ strings, Utf8 s) : Says text v ↔ ∀ s ∈ strings, NoControl s := by
  have hutf8 : Built Utf8 v := (hbuilt Utf8 fun _ => Fixed.utf8).mpr h
  rw [← hprint, says_print_iff hutf8]
  exact hbuilt NoControl fun _ => Fixed.noControl

/-- Where all texts in it are encoded characters, an answer is a JSON text that says what it is meant
to say just when nothing that is escaped contains a control character without a short escape, and
the address of a new member needs no escapes. -/
theorem says_value_iff (a : Answer) (h : ∀ s ∈ a.escaped ++ a.unescaped, Utf8 s) :
    Says a.body a.value ↔ (∀ s ∈ a.escaped, NoControl s) ∧ ∀ s ∈ a.unescaped, Verbatim s := by
  obtain ⟨hescaped, hunescaped⟩ := List.forall_mem_append.mp h
  have hnone : (∀ s ∈ ([] : List Bytes), Verbatim s) := fun s hs => absurd hs List.not_mem_nil
  cases a with
  | kvList kvs count =>
    refine (says_iff_of_print (print_kvListValue kvs count) (fun P _ => ?_) hescaped).trans
      (and_iff_left hnone).symm
    rw [built_kvListValue, escaped, List.forall_mem_flatMap]
    simp
  | watchEvent ev =>
    refine (says_iff_of_print (print_watchEventValue ev) (fun P hP => ?_) hescaped).trans
      (and_iff_left hnone).symm
    rw [built_watchEventValue hP]
    simp [escaped]
  | error code message =>
    refine (says_iff_of_print (print_errorValue code message) (fun P _ => ?_) hescaped).trans
      (and_iff_left hnone).symm
    rw [built_errorValue]
    simp [escaped]
  | txn requestBody conditionsMet =>
    refine (says_iff_of_print (print_txnValue requestBody conditionsMet) (fun P hP => ?_)
      hescaped).trans (and_iff_left hnone).symm
    rw [built_txnValue hP, escaped, List.forall_mem_map]
  | clusterInfo config n kvstore =>
    refine (says_iff_of_print (print_clusterValue config n kvstore) (fun P hP => ?_)
      hescaped).trans (and_iff_left hnone).symm
    rw [built_clusterValue hP]
    simp [escaped]
  | memberAdd n peerAddr refusal =>
    rw [body, EtcdServer.memberAddResponse, value]
    rw [escaped] at hescaped ⊢
    rw [unescaped] at hunescaped ⊢
    cases hresult : EtcdServer.memberAddResult n peerAddr refusal with
    | error e =>
      obtain ⟨code, text⟩ := e
      simp only [hresult] at hescaped ⊢
      refine (says_iff_of_print (print_errorValue code text) (fun P _ => ?_) hescaped).trans
        (and_iff_left hnone).symm
      rw [built_errorValue]
      simp
    | ok newId =>
      simp only [hresult] at hunescaped ⊢
      have haddr := hunescaped peerAddr List.mem_cons_self
      refine (says_memberJson_iff haddr).trans ?_
      simp

theorem says_value_iff_twoBytes : Says
    (kvList [{ key := ascii "k", value := [195, 169, 34, 10] }] 1).body
    (kvList [{ key := ascii "k", value := [195, 169, 34, 10] }] 1).value := by
  have hutf8 : ∀ s ∈ [ascii "k", [195, 169, 34, 10]], Utf8 s :=
    List.forall_mem_cons.mpr ⟨⟨[Char.ofNat 107], rfl⟩,
      List.forall_mem_singleton.mpr ⟨[Char.ofNat 233, Char.ofNat 34, Char.ofNat 10], rfl⟩⟩
  have hcontrol : ∀ s ∈ [ascii "k", [195, 169, 34, 10]], NoControl s :=
    List.forall_mem_cons.mpr ⟨by decide, List.forall_mem_singleton.mpr (by decide)⟩
  exact (says_value_iff (kvList [{ key := ascii "k", value := [195, 169, 34, 10] }] 1) hutf8).mpr
    ⟨hcontrol, fun s hs => absurd hs List.not_mem_nil⟩

/-- The byte 1 in a value, and a quote in the address of a new member. -/
theorem control_and_quote_misread :
    (Utf8 [1] ∧ ¬ ∃ v, IsText v (kvList [{ key := ascii "k", value := [1] }] 1).body) ∧
    Utf8 [34] ∧ ¬ Says (memberAdd { nodeId := 1, state := .leader } [34] none).body
      (memberAdd { nodeId := 1, state := .leader } [34] none).value := by
  refine ⟨⟨⟨[Char.ofNat 1], rfl⟩, ?_⟩, ⟨[Char.ofNat 34], rfl⟩, fun hsays => ?_⟩
  · rintro ⟨v, -, hdenotes⟩
    have hbuilt : Built (fun _ => True) (kvListValue [{ key := ascii "k", value := [1] }] 1) :=
      (built_kvListValue _ _).mpr fun _ _ => ⟨trivial, trivial⟩
    rw [body, ← print_kvListValue] at hdenotes
    have hcontrol := (built_kvListValue _ _).mp (noControl_of_print hbuilt hdenotes.not_control)
    exact absurd (hcontrol _ List.mem_cons_self).2 (by decide)
  · have hverbatim : Verbatim [34] := (says_memberJson_iff ⟨[Char.ofNat 34], rfl⟩).mp hsays
    exact (hverbatim 34 List.mem_cons_self).2.1 rfl

end Answer
end MyEtcd
