import MyEtcd.Http.Calls

/-! What is written to the connection, and what a client reads there. Whatever request has come, the
answer has the four headers and its body behind them, as long as it says. -/
namespace MyEtcd
open Library Transmission

namespace SimpleHttpServer

/-- The text behind the code. -/
def reason (statusCode : Int) : Bytes :=
  if statusCode = 200 then ascii "OK"
  else if statusCode = 400 then ascii "Bad Request"
  else if statusCode = 404 then ascii "Not Found"
  else if statusCode = 500 then ascii "Internal Server Error"
  else if statusCode = 503 then ascii "Service Unavailable"
  else ascii "Unknown"

def writtenHeaders (resp : HttpResponse) : OrderedMap Bytes Bytes :=
  ((resp.headers.insert (ascii "Content-Length") (decimal resp.body.length)).insert
    (ascii "Connection") (ascii "close")).insert (ascii "Server") (ascii "my-etcd/1.0")

def buildResponse (resp : HttpResponse) : Bytes :=
  ascii "HTTP/1.1 " ++ decimalInt resp.statusCode ++ ascii " " ++ reason resp.statusCode ++ [13, 10] ++
    (writtenHeaders resp).entries.flatMap (fun h => h.1 ++ ascii ": " ++ h.2 ++ [13, 10]) ++
    [13, 10] ++ resp.body

/-- What is sent on a connection; nothing where the header of the request does not end. -/
def handleClientImpl (server : ServerCall → HttpResponse) (authToken : Bytes) (chunks : List Bytes) :
    Option Bytes :=
  (handleClient chunks).map fun req => buildResponse (handleRequest server authToken req)

end SimpleHttpServer

open SimpleHttpServer

/-- What a client makes of an answer: the code, the headers, and a body of just the length that the
headers tell. -/
def readResponse (text : Bytes) : Option HttpResponse := do
  let (front, body) ← cut crlf2 text
  let lines := getlines 10 (front ++ crlf2)
  let statusCode ← parseInt ((chomp (lines.headD [])).drop 9)
  let headers : OrderedMap Bytes Bytes :=
    ((lines.drop 1).filterMap headerLine).foldl (fun headers h => headers.insert h.1 h.2) ∅
  let length ← (headers.get? (ascii "Content-Length")).bind parseInt
  if (body.length : Int) = length then some { statusCode, headers, body } else none

namespace HttpResponse

/-- A header that can be written on a line. -/
structure CleanHeader (h : Bytes × Bytes) : Prop where
  name : ∀ b ∈ h.1, b ≠ 0 ∧ b ≠ 10 ∧ b ≠ 13 ∧ b ≠ 58
  value : ∀ b ∈ h.2, b ≠ 0 ∧ b ≠ 10 ∧ b ≠ 13
  front : ∀ b ∈ h.2.head?, b ≠ 32 ∧ b ≠ 9

def Clean (resp : HttpResponse) : Prop := ∀ h ∈ resp.headers.entries, CleanHeader h

/-- An answer that `SetJson` or `SetError` has made. -/
def Made (resp : HttpResponse) : Prop :=
  (∃ json, resp = setJson {} json) ∨ ∃ code message, resp = setError {} code message

def written (resp : HttpResponse) : HttpResponse := { resp with headers := writtenHeaders resp }

end HttpResponse

namespace SimpleHttpServer
variable {resp : HttpResponse}

def statusLine (resp : HttpResponse) : Bytes :=
  ascii "HTTP/1.1 " ++ (decimalInt resp.statusCode ++ (ascii " " ++ reason resp.statusCode))

def headerLines (resp : HttpResponse) : List Bytes :=
  (writtenHeaders resp).entries.map fun h => h.1 ++ 58 :: (32 :: h.2)

theorem buildResponse_eq (resp : HttpResponse) : buildResponse resp =
    SentRequest.ended (statusLine resp :: headerLines resp) ++ [13, 10] ++ resp.body := by
  have hcolon : ascii ": " = [58, 32] := rfl
  rw [buildResponse, SentRequest.ended, List.flatMap_cons, headerLines, List.flatMap_map, statusLine]
  simp [hcolon]

theorem digit_wf {b : UInt8} (h : isDigit b = true) :
    b ≠ 0 ∧ b ≠ 10 ∧ b ≠ 13 ∧ b ≠ 32 ∧ b ≠ 9 := by
  refine ⟨?_, ?_, ?_, ?_, ?_⟩ <;> rintro rfl <;> revert h <;> decide

theorem clean_written (h : resp.Clean) : resp.written.Clean := by
  have hlength : HttpResponse.CleanHeader (ascii "Content-Length", decimal resp.body.length) := by
    have hdigit (b : UInt8) (hb : b ∈ decimal resp.body.length) := digit_wf (isDigit_of_mem_decimal hb)
    have hname : ∀ b ∈ ascii "Content-Length", b ≠ 0 ∧ b ≠ 10 ∧ b ≠ 13 ∧ b ≠ 58 :=
      forall_of_all (by decide)
    refine ⟨hname, fun b hb => ?_, fun b hb => ?_⟩
    · exact ⟨(hdigit b hb).1, (hdigit b hb).2.1, (hdigit b hb).2.2.1⟩
    · exact (hdigit b (List.mem_of_mem_head? hb)).2.2.2
  have hinsert {m : OrderedMap Bytes Bytes} {name value : Bytes}
      (hm : ∀ e ∈ m.entries, HttpResponse.CleanHeader e) (he : HttpResponse.CleanHeader (name, value)) :
      ∀ e ∈ (m.insert name value).entries, HttpResponse.CleanHeader e := by
    rintro ⟨k, v⟩ hmem
    rw [OrderedMap.mem_entries_iff, OrderedMap.get?_insert] at hmem
    split_ifs at hmem with hname
    · obtain rfl := Option.some.inj hmem
      rwa [hname]
    · exact hm _ ((OrderedMap.mem_entries_iff _ _ _).mpr hmem)
  refine hinsert (hinsert (hinsert h hlength) ?_) ?_
  · exact ⟨forall_of_all (by decide), forall_of_all (by decide), fun b hb => by cases hb; decide⟩
  · exact ⟨forall_of_all (by decide), forall_of_all (by decide), fun b hb => by cases hb; decide⟩

theorem isLine_statusLine (resp : HttpResponse) : IsLine (statusLine resp) := by
  have hcode : ∀ b ∈ decimalInt resp.statusCode, b ≠ 0 ∧ b ≠ 10 ∧ b ≠ 13 := by
    have hdigit (b : UInt8) (hb : b ∈ decimal resp.statusCode.natAbs) :
        b ≠ 0 ∧ b ≠ 10 ∧ b ≠ 13 := by
      have hb := digit_wf (isDigit_of_mem_decimal hb)
      exact ⟨hb.1, hb.2.1, hb.2.2.1⟩
    intro b hb
    rw [decimalInt] at hb
    split_ifs at hb
    · rcases List.mem_cons.mp hb with rfl | hb
      · decide
      · exact hdigit b hb
    · exact hdigit b hb
  have hreason : ∀ b ∈ reason resp.statusCode, b ≠ 0 ∧ b ≠ 10 ∧ b ≠ 13 := by
    unfold reason
    split_ifs <;> exact forall_of_all (by decide)
  have hfixed : ∀ b ∈ ascii "HTTP/1.1 ", b ≠ 0 ∧ b ≠ 10 ∧ b ≠ 13 := forall_of_all (by decide)
  have hblank : ∀ b ∈ ascii " ", b ≠ 0 ∧ b ≠ 10 ∧ b ≠ 13 := forall_of_all (by decide)
  refine ⟨by simp [statusLine, ascii], fun b hb => ?_⟩
  rcases List.mem_append.mp hb with hb | hb
  · exact hfixed b hb
  · rcases List.mem_append.mp hb with hb | hb
    · exact hcode b hb
    · exact (List.mem_append.mp hb).elim (hblank b) (hreason b)

theorem isLine_headerLines (h : resp.Clean) {line : Bytes} (hline : line ∈ headerLines resp) :
    IsLine line := by
  obtain ⟨e, he, rfl⟩ := List.mem_map.mp hline
  have hclean := clean_written h e he
  refine ⟨by simp, fun b hb => ?_⟩
  rcases List.mem_append.mp hb with hb | hb
  · have hb := hclean.name b hb
    exact ⟨hb.1, hb.2.1, hb.2.2.1⟩
  · rcases List.mem_cons.mp hb with rfl | hb
    · decide
    · rcases List.mem_cons.mp hb with rfl | hb
      · decide
      · exact hclean.value b hb

theorem statusCode_read (resp : HttpResponse) :
    parseInt ((statusLine resp).drop 9) = some resp.statusCode := by
  have hdrop : (statusLine resp).drop 9 =
      decimalInt resp.statusCode ++ (ascii " " ++ reason resp.statusCode) := List.drop_left' rfl
  rw [hdrop]
  refine parseInt_decimalInt _ fun b hb => ?_
  obtain rfl : 32 = b := Option.some.inj hb
  rfl

theorem headerLine_written {h : Bytes × Bytes} (hclean : HttpResponse.CleanHeader h) :
    headerLine (h.1 ++ 58 :: (32 :: h.2) ++ [13]) = some h := by
  have hvalue : (32 :: h.2).dropWhile (fun b => b = 32 ∨ b = 9) = h.2 := by
    rw [List.dropWhile_cons_of_pos (by decide)]
    cases hh : h.2 with
    | nil => rfl
    | cons b rest =>
      have hb := hclean.front b (by rw [hh]; rfl)
      exact List.dropWhile_cons_of_neg (by simp [hb.1, hb.2])
  rw [headerLine_ended fun b hb => (hclean.name b hb).2.2.2, hvalue]

/-- The lines of the headers are read as the headers that were written. -/
theorem headers_read (h : resp.Clean) :
    (((headerLines resp).map fun line => line ++ [13]).filterMap headerLine).foldl
      (fun headers h => headers.insert h.1 h.2) ∅ = writtenHeaders resp := by
  have hlines : ((headerLines resp).map fun line => line ++ [13]).filterMap headerLine =
      (writtenHeaders resp).entries := by
    rw [headerLines, List.map_map, List.filterMap_map]
    conv_rhs => rw [← List.filterMap_some (l := (writtenHeaders resp).entries)]
    exact List.filterMap_congr fun e he => headerLine_written (clean_written h e he)
  rw [hlines]
  refine OrderedMap.ext_get? fun k => ?_
  rw [OrderedMap.get?_foldl_insert_entries]
  exact Option.or_none

/-- The round trip of an answer. Its body may be anything. -/
theorem readResponse_buildResponse (h : resp.Clean) :
    readResponse (buildResponse resp) = some resp.written := by
  have hlines : ∀ line ∈ statusLine resp :: headerLines resp, IsLine line := by
    refine List.forall_mem_cons.mpr ⟨isLine_statusLine resp, fun line hline => ?_⟩
    exact isLine_headerLines h hline
  obtain ⟨front, hcut⟩ := cut_ended (List.cons_ne_nil _ _) hlines resp.body
  have hhead : front ++ crlf2 = SentRequest.ended (statusLine resp :: headerLines resp) ++ [13, 10] :=
    List.append_cancel_right (cut_some hcut).symm
  have hget : getlines 10 (front ++ crlf2) =
      ((statusLine resp :: headerLines resp).map fun line => line ++ [13]) ++ [[13]] := by
    rw [hhead, getlines_ended hlines]
    rfl
  have hstatus : chomp (statusLine resp ++ [13]) = statusLine resp := by
    rw [chomp, if_pos List.getLast?_concat, List.dropLast_concat]
  have hheaders : (((headerLines resp).map fun line => line ++ [13]) ++ [[13]]).filterMap headerLine =
      ((headerLines resp).map fun line => line ++ [13]).filterMap headerLine := by
    rw [List.filterMap_append]
    exact List.append_nil _
  have hlength : ((writtenHeaders resp).get? (ascii "Content-Length")).bind parseInt =
      some (resp.body.length : Int) := by
    have hread : parseInt (decimal resp.body.length ++ []) = some (resp.body.length : Int) :=
      parseInt_decimal _ (by simp)
    rw [List.append_nil] at hread
    rw [writtenHeaders, OrderedMap.get?_insert_ne _ _ (by decide), OrderedMap.get?_insert_ne _ _
      (by decide), OrderedMap.get?_insert_self, Option.bind_some, hread]
  rw [readResponse, buildResponse_eq, hcut, Option.bind_eq_bind, Option.bind_some]
  dsimp only
  rw [hget, List.map_cons, List.cons_append, List.headD_cons, List.drop_one, List.tail_cons, hstatus,
    statusCode_read, hheaders, headers_read h, hlength]
  exact if_pos rfl

theorem clean_contentType {resp : HttpResponse} {type : Bytes}
    (hheaders : resp.headers = OrderedMap.insert ∅ (ascii "Content-Type") type)
    (hvalue : ∀ b ∈ type, b ≠ 0 ∧ b ≠ 10 ∧ b ≠ 13) (hfront : ∀ b ∈ type.head?, b ≠ 32 ∧ b ≠ 9) :
    resp.Clean := by
  intro h hmem
  rw [hheaders] at hmem
  obtain rfl := List.mem_singleton.mp hmem
  have hname : ∀ b ∈ ascii "Content-Type", b ≠ 0 ∧ b ≠ 10 ∧ b ≠ 13 ∧ b ≠ 58 :=
    forall_of_all (by decide)
  exact ⟨hname, hvalue, hfront⟩

theorem clean_made (h : resp.Made) : resp.Clean := by
  have hjson (resp : HttpResponse)
      (h : resp.headers = OrderedMap.insert ∅ (ascii "Content-Type") (ascii "application/json")) :
      resp.Clean :=
    clean_contentType h (forall_of_all (by decide)) fun b hb => by cases hb; decide
  rcases h with ⟨json, rfl⟩ | ⟨code, message, rfl⟩
  · exact hjson _ rfl
  · exact hjson _ rfl

theorem error_of_mem_handlers : ∀ handler ∈ handlers, ∀ req resp, handler req = .error resp →
    resp.Made ∨ resp = handleIndex := by
  have hbad {text : String} {resp : HttpResponse}
      (h : (.error (badRequest text) : Except HttpResponse ServerCall) = .error resp) :
      resp.Made ∨ resp = handleIndex := by
    cases h
    exact .inl (.inr ⟨400, ascii text, rfl⟩)
  have hkey {req : HttpRequest} {resp : HttpResponse} {make : Bytes → ServerCall}
      (h : forKey req make = .error resp) : resp.Made ∨ resp = handleIndex := by
    unfold forKey at h
    split_ifs at h
    exact hbad h
  have hid {req : HttpRequest} {resp : HttpResponse} {make : Int → ServerCall}
      (h : forId req make = .error resp) : resp.Made ∨ resp = handleIndex := by
    unfold forId at h
    split_ifs at h
    exact hbad h
  simp only [handlers, List.forall_mem_cons]
  refine ⟨fun req resp h => ?put, fun _ _ => hkey, fun _ _ => hkey, fun req resp h => ?txn,
    fun _ _ => hkey, fun _ _ => hid, fun req resp h => ?leaseGrant, fun _ _ => hid, fun _ _ => hid,
    fun req resp h => ?clusterInfo, fun req resp h => ?memberAdd, fun req resp h => ?memberRemove,
    fun req resp h => ?index, fun _ h => absurd h List.not_mem_nil⟩
  case put =>
    rw [handlePut] at h
    split at h
    · exact hbad h
    · cases h
  case txn => cases h
  case leaseGrant =>
    unfold handleLeaseGrant at h
    dsimp only at h
    split_ifs at h
    · exact hbad h
    · exact hbad h
  case clusterInfo => cases h
  case memberAdd =>
    unfold handleMemberAdd at h
    dsimp only at h
    split_ifs at h
    exact hbad h
  case memberRemove =>
    unfold handleMemberRemove at h
    dsimp only at h
    split_ifs at h
    exact hbad h
  case index =>
    cases h
    exact .inr rfl

/-- What is answered without the server is made like its answers, or it is the page at the root. -/
theorem clean_dispatch {authToken : Bytes} {req : HttpRequest}
    (h : dispatch authToken req = .error resp) : resp.Clean := by
  unfold dispatch at h
  split_ifs at h with hmethod hauth
  · cases h
    exact clean_made (.inr ⟨_, _, rfl⟩)
  · cases hroute : routes req.method req.path with
    | none =>
      rw [hroute] at h
      cases h
      exact clean_made (.inr ⟨_, _, rfl⟩)
    | some handler =>
      rw [hroute] at h
      rcases error_of_mem_handlers handler (mem_handlers hroute) req resp h with hmade | rfl
      · exact clean_made hmade
      · exact clean_contentType rfl (forall_of_all (by decide)) fun b hb => by cases hb; decide
  · cases h
    exact clean_made (.inr ⟨_, _, rfl⟩)

/-- Whatever comes over a connection, the client reads the answer to it: no byte of a request, of a key
or of a value gets into the headers or moves the place where the body begins or ends. -/
theorem answer_read {server : ServerCall → HttpResponse} (hserver : ∀ call, (server call).Made)
    (authToken : Bytes) (chunks : List Bytes) :
    (handleClientImpl server authToken chunks).bind readResponse =
      (handleClient chunks).map fun req => (handleRequest server authToken req).written := by
  rw [handleClientImpl]
  cases handleClient chunks with
  | none => rfl
  | some req =>
    rw [Option.map_some, Option.map_some, Option.bind_some, readResponse_buildResponse]
    rw [handleRequest]
    cases hdispatch : dispatch authToken req with
    | error resp => exact clean_dispatch hdispatch
    | ok call => exact clean_made (hserver call)

/-- A server that answers a put with the key and the value. -/
def echo : ServerCall → HttpResponse
  | .put key value _ => HttpResponse.setJson {} (key ++ value)
  | _ => HttpResponse.setError {} 500 []

def forged : Bytes := ascii "\x0d\n\x0d\nHTTP/1.1 404"

def forging : List Bytes :=
  [ascii "PUT /v3/kv/put?key=%0D%0A%0D%0AHTTP/1.1+404 H\x0d\nContent-Length: 16\x0d\n\x0d\n" ++ forged]

theorem answer_read_forged : (handleClientImpl echo [] forging).bind readResponse =
    some (HttpResponse.setJson {} (forged ++ forged)).written := by
  have hserver (call : ServerCall) : (echo call).Made := by
    cases call with
    | put key value leaseId => exact .inl ⟨_, rfl⟩
    | _ => exact .inr ⟨500, [], rfl⟩
  obtain ⟨req, hrequest, hdispatch⟩ : ∃ req, handleClient forging = some req ∧
      dispatch [] req = .ok (.put forged forged 0) := ⟨_, rfl, rfl⟩
  rw [answer_read hserver, hrequest, Option.map_some, handleRequest, hdispatch]
  rfl

end SimpleHttpServer
end MyEtcd
