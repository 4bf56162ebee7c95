import MyEtcd.Http.Answers
import MyEtcd.Server.Attachments
import MyEtcd.Server.KVServer
import MyEtcd.Server.ValidJson

/-! From one client through the connections and the store to another client. What has been put is read
as it was, with all the formats in between, if it is text that the answers can carry. -/
namespace MyEtcd
open Library SimpleHttpServer Json
open Library.JsonValue (parse)

namespace ServerCall

/-- The calls that go into the log, as requests to the server. -/
def request : ServerCall → Option Request
  | put key value leaseId => some (.put key value leaseId)
  | delete key => some (.delete key)
  | txn requestBody => some (EtcdServer.txnRequest requestBody)
  | _ => none

end ServerCall

namespace EtcdServer

/-- What `Range` finds. Without an end of the range it reads the key alone. -/
def found (kvstore : KVStore) (key rangeEnd : Bytes) (revision limit : Int) : List KeyValue :=
  if rangeEnd.isEmpty then (kvstore.get key revision).toList
  else kvstore.range key rangeEnd revision limit

def range (kvstore : KVStore) (key rangeEnd : Bytes) (revision limit : Int) : HttpResponse :=
  let kvs := found kvstore key rangeEnd revision limit
  HttpResponse.setJson {} (kvListToJson kvs kvs.length)

end EtcdServer

/-- The server answers reads of the store as `Range` does, and everything with `SetJson` or `SetError`. -/
structure Serves (server : ServerCall → HttpResponse) (kvstore : KVStore) : Prop where
  made : ∀ call, (server call).Made
  range : ∀ key rangeEnd, server (.range key rangeEnd) = EtcdServer.range kvstore key rangeEnd 0 0

/-- Text that answers can carry. -/
def Printable (s : Bytes) : Prop := Utf8 s ∧ NoControl s

theorem Printable.zero_not_mem {s : Bytes} (h : Printable s) : 0 ∉ s := by
  intro hmem
  have hcontrol := h.2 0 hmem
  revert hcontrol
  decide

theorem Json.parse_print {v : JsonValue} (h : Built Printable v) : parse (print v) = some v :=
  ((Answer.says_print_iff (h.mono fun _ => And.left)).mpr (h.mono fun _ => And.right)).2

namespace KVStore

/-- What a read of a key shows to clients. -/
def shown (s : KVStore) (key : Bytes) : Option (Bytes × Int) :=
  (s.get key 0).map fun kv => (kv.value, kv.leaseId)

theorem shown_eq (s : KVStore) (key : Bytes) : s.shown key =
    ((s.mvcc.get key 0).map KeyValue.content).map fun c => ((s.backend.get key).getD c.value, c.leaseId) := by
  rw [shown, get, Option.map_map, Option.map_map]
  rfl

private theorem shown_write {s s' : KVStore} {w : Write}
    (hmvcc : s'.mvcc = s.mvcc.allocateRevision.2.write w)
    (hbackend : ∀ key, s'.backend.get key =
      if w.key = key then w.content.map Content.value else s.backend.get key) (key : Bytes) :
    s'.shown key = if w.key = key then w.content.map fun c => (c.value, c.leaseId) else s.shown key := by
  rw [shown_eq, shown_eq, hmvcc, MVCC.content_get_write, hbackend]
  by_cases hkey : w.key = key
  · rw [if_pos hkey, if_pos hkey, if_pos hkey]
    cases w.content <;> rfl
  · rw [if_neg hkey, if_neg hkey, if_neg hkey]
    rfl

/-- A write decides on what its own key shows. -/
theorem shown_processEntry (s : KVStore) {entry : RaftEntry} (h : EtcdServer.Writes entry)
    (key : Bytes) : (EtcdServer.processEntry s entry).shown key =
      if entry.key = key then
        if entry.type = .put then some (entry.value, entry.leaseId) else none
      else s.shown key := by
  rw [EtcdServer.processEntry]
  rcases h with htype | htype
  · rw [htype, if_pos rfl]
    refine shown_write (w := .put entry.key s.mvcc.currentRev entry.value entry.leaseId) rfl ?_ key
    intro key
    refine (OrderedMap.get?_insert s.backend.store entry.key key entry.value).trans ?_
    by_cases hkey : key = entry.key
    · simp [hkey, Write.key, Write.content]
    · simp [hkey, Ne.symm hkey, Write.key, Backend.get]
  · have hnot : ¬ EventType.delete = .put := by decide
    rw [htype, if_neg hnot]
    refine shown_write (w := .delete entry.key s.mvcc.currentRev) rfl ?_ key
    intro key
    refine (OrderedMap.get?_erase s.backend.store entry.key key).trans ?_
    by_cases hkey : key = entry.key
    · simp [hkey, Write.key, Write.content]
    · simp [hkey, Ne.symm hkey, Write.key, Backend.get]

/-- Later writes of other keys do not. -/
theorem shown_processRaftEntries (s : KVStore) {entries : List RaftEntry} {key : Bytes}
    (h : ∀ e ∈ entries, EtcdServer.Writes e → e.key ≠ key) :
    (EtcdServer.processRaftEntries s entries).shown key = s.shown key := by
  induction entries generalizing s with
  | nil => rfl
  | cons e rest ih =>
    have hrest := ih (EtcdServer.processEntry s e) fun x hx => h x (List.mem_cons_of_mem _ hx)
    refine hrest.trans ?_
    by_cases hwrites : EtcdServer.Writes e
    · rw [shown_processEntry s hwrites, if_neg (h e List.mem_cons_self hwrites)]
    · rw [EtcdServer.processEntry_of_not_writes hwrites]

end KVStore

namespace Transmission
variable {server : ServerCall → HttpResponse} {kvstore : KVStore} {authToken : Bytes}

/-- The client of an admissible call reads what the server answers to it. -/
theorem readResponse_call (t : Transmission) {call : ServerCall} (h : Asks t.request call authToken)
    (htyped : call.Typed) (hadmissible : call.Admissible) (hzero : ∀ body ∈ call.body, 0 ∉ body)
    (hmade : (server call).Made) :
    (handleClientImpl server authToken t.chunks).bind readResponse = some (server call).written := by
  obtain ⟨req, hrequest, hanswers⟩ := t.answers_call h htyped hzero
  rw [handleClientImpl, hrequest, Option.map_some, Option.bind_some, handleRequest,
    hanswers.1 hadmissible]
  exact readResponse_buildResponse (clean_made hmade)

/-- The client of a range reads what the store has there. -/
theorem range_read (t : Transmission) {key rangeEnd : Bytes} (hserves : Serves server kvstore)
    (h : Asks t.request (.range key rangeEnd) authToken) (hkey : key ≠ [])
    (htext : ∀ kv ∈ EtcdServer.found kvstore key rangeEnd 0 0, Printable kv.key ∧ Printable kv.value) :
    ∃ resp, (handleClientImpl server authToken t.chunks).bind readResponse = some resp ∧
      resp.statusCode = 200 ∧
      parse resp.body = some (kvListValue (EtcdServer.found kvstore key rangeEnd 0 0)
        (EtcdServer.found kvstore key rangeEnd 0 0).length) := by
  refine ⟨_, t.readResponse_call h trivial hkey (fun body hbody => by cases hbody) (hserves.made _),
    ?_, ?_⟩
  · rw [hserves.range]
    rfl
  · have hbody : (EtcdServer.range kvstore key rangeEnd 0 0).written.body =
        kvListToJson (EtcdServer.found kvstore key rangeEnd 0 0)
          (EtcdServer.found kvstore key rangeEnd 0 0).length := rfl
    rw [hserves.range, hbody, ← print_kvListValue]
    exact parse_print ((built_kvListValue _ _).mpr htext)

/-- What one client puts, another one reads, whatever other keys have been written since: the put goes
through the connection into an entry, and its key, value and lease from the store through the other
connection. -/
theorem put_then_range (sent read : Transmission) {key value : Bytes} {leaseId : Int}
    (hsent : Asks sent.request (.put key value leaseId) authToken)
    (hread : Asks read.request (.range key []) authToken)
    (hadmissible : (ServerCall.put key value leaseId).Admissible)
    (hkey : Printable key) (hvalue : Printable value) :
    (handleClient sent.chunks).map (dispatch authToken) = some (.ok (.put key value leaseId)) ∧
    ∀ entry, (ServerCall.put key value leaseId).request.bind Request.entry = some entry →
      ∀ kvstore term index later, (∀ e ∈ later, EtcdServer.Writes e → e.key ≠ key) →
        ∀ server, Serves server (EtcdServer.processRaftEntries kvstore
          ({ entry with term, index } :: later)) →
        ∃ resp kv, (handleClientImpl server authToken read.chunks).bind readResponse = some resp ∧
          resp.statusCode = 200 ∧ parse resp.body = some (kvListValue [kv] 1) ∧
          kv.key = key ∧ kv.value = value ∧ kv.leaseId = leaseId := by
  have htyped : (ServerCall.put key value leaseId).Typed := hadmissible.2.2.2
  have hzero : ∀ body ∈ (ServerCall.put key value leaseId).body, 0 ∉ body := by
    intro body hbody
    obtain rfl := Option.some.inj hbody
    exact hvalue.zero_not_mem
  constructor
  · obtain ⟨req, hrequest, hanswers⟩ := sent.answers_call hsent htyped hzero
    rw [hrequest, Option.map_some, hanswers.1 hadmissible]
  · intro entry hentry kvstore term index later hlater server hserves
    obtain rfl := Option.some.inj hentry
    have hshown := KVStore.shown_processRaftEntries
      (EtcdServer.processEntry kvstore { type := .put, key, value, leaseId, term, index }) hlater
    rw [KVStore.shown_processEntry _ (.inl rfl), if_pos rfl, if_pos rfl] at hshown
    obtain ⟨kv, hget, hkv⟩ := Option.map_eq_some_iff.mp hshown
    obtain ⟨hkvValue, hkvLease⟩ := Prod.mk.inj hkv
    have hkvKey : kv.key = key := by
      obtain ⟨found, hread, rfl⟩ := Option.map_eq_some_iff.mp hget
      have hfoundKey : found.key = key := MVCC.key_of_get hread
      exact hfoundKey
    have hfound : EtcdServer.found (EtcdServer.processRaftEntries kvstore
        ({ type := .put, key, value, leaseId, term, index } :: later)) key [] 0 0 = [kv] := by
      refine (if_pos rfl).trans ?_
      rw [EtcdServer.processRaftEntries, List.foldl_cons]
      exact congrArg Option.toList hget
    obtain ⟨resp, hresp, hstatus, hbody⟩ := read.range_read hserves hread hadmissible.1 (by
      intro x hx
      rw [hfound] at hx
      rw [List.mem_singleton.mp hx, hkvKey, hkvValue]
      exact ⟨hkey, hvalue⟩)
    rw [hfound] at hbody
    exact ⟨resp, kv, hresp, hstatus, hbody, hkvKey, hkvValue, hkvLease⟩

/-- A read of the key `a b`. -/
def readBackRequest : SentRequest where
  method := ascii "POST"
  target := ascii "/v3/kv/range?key=a+b HTTP/1.1"
  before := [(ascii "Authorization", ascii "t")]
  lengthName := ascii "CONTENT-LENGTH"
  blanks := []
  digits := [48]
  behind := []
  after := []
  body := []
  method_wf := forall_of_all (by decide)
  target_wf := forall_of_all (by decide)
  headers_wf := by
    intro h hmem
    obtain rfl := List.mem_singleton.mp hmem
    exact ⟨forall_of_all (by decide), forall_of_all (by decide), by decide⟩
  lengthName_wf := by decide
  blanks_wf := forall_of_all rfl
  digits_wf := ⟨by decide, forall_of_all (by decide), by decide⟩

def readBack : Transmission where
  request := readBackRequest
  chunks := [readBackRequest.text]
  whole := by decide
  sizes := by decide
  total := by decide

theorem asks_readBack : Asks readBackRequest (.range (ascii "a b") []) (ascii "t") := by
  refine ⟨rfl, ⟨[keyParam], ascii "HTTP/1.1", rfl, by decide, ?_⟩, ?_, ?_⟩
  · intro p hp
    rcases List.mem_cons.mp hp with rfl | hp
    · exact .inl rfl
    · obtain rfl := List.mem_singleton.mp hp
      exact .inr ⟨by decide, rfl⟩
  · exact fun body hbody => by cases hbody
  · intro _
    refine ⟨ascii "Authorization", [], ascii "t", .inl rfl, forall_of_all rfl, ?_, .inl rfl,
      by decide, by decide⟩
    intro b hb
    obtain rfl := Option.some.inj hb
    decide

def stored : KVStore := EtcdServer.processRaftEntries {}
  [{ key := ascii "a b", value := ascii "xyz", leaseId := -7, term := 1, index := 1 }]

def reader : ServerCall → HttpResponse
  | .range key rangeEnd => EtcdServer.range stored key rangeEnd 0 0
  | _ => HttpResponse.setError {} 500 []

theorem serves_reader : Serves reader stored := by
  refine ⟨fun call => ?_, fun _ _ => rfl⟩
  cases call with
  | range key rangeEnd => exact .inl ⟨_, rfl⟩
  | _ => exact .inr ⟨500, [], rfl⟩

theorem put_then_range_read : ∃ resp kv,
    (handleClientImpl reader (ascii "t") readBack.chunks).bind readResponse = some resp ∧
      resp.statusCode = 200 ∧ parse resp.body = some (kvListValue [kv] 1) ∧
      kv.key = ascii "a b" ∧ kv.value = ascii "xyz" ∧ kv.leaseId = -7 := by
  obtain ⟨-, hreads⟩ := put_then_range leasedPutSent readBack asks_leasedPut asks_readBack
    admissible_leasedPut ⟨⟨"a b".toList, rfl⟩, by decide⟩ ⟨⟨"xyz".toList, rfl⟩, by decide⟩
  exact hreads _ rfl {} 1 1 [] (fun e he => by cases he) reader serves_reader

end Transmission
end MyEtcd
