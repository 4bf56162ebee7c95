import MyEtcd.Http.RequestBody
import MyEtcd.Http.UrlDecode
import MyEtcd.Raft.MessageSize
import MyEtcd.Server.HttpHandler
import MyEtcd.Snapshot.Retention

/-! From a request to the call of the server: the method and the token, the routes, the handlers.
Whatever comes over a connection, only admissible calls get through. -/
namespace MyEtcd
open Library

/-- What the handlers ask of the server. -/
inductive ServerCall where
  | put (key value : Bytes) (leaseId : Int)
  | range (key rangeEnd : Bytes)
  | delete (key : Bytes)
  | txn (requestBody : Bytes)
  | watch (key : Bytes) (byPrefix : Bool)
  | watchCancel (watchId : Int)
  | leaseGrant (ttl : Int)
  | leaseRevoke (id : Int)
  | leaseKeepAlive (id : Int)
  | clusterInfo
  | memberAdd (peerAddr : Bytes)
  | memberRemove (id : Nat)
  deriving DecidableEq

namespace SimpleHttpServer

def getParam (req : HttpRequest) (name : String) : Bytes :=
  (req.queryParams.get? (ascii name)).getD []

/-- A number among the parameters, zero where `stoll` throws. -/
def intParam (req : HttpRequest) (name : String) : Int :=
  ((req.queryParams.get? (ascii name)).bind stoll).getD 0

def badRequest (text : String) : HttpResponse := HttpResponse.setError {} 400 (ascii text)

def handlePut (req : HttpRequest) : Except HttpResponse ServerCall :=
  let key := getParam req "key"
  let leaseId := intParam req "lease"
  match handlePutError key req.body with
  | some text => .error (badRequest text)
  | none => .ok (.put key req.body leaseId)

def forKey (req : HttpRequest) (call : Bytes → ServerCall) : Except HttpResponse ServerCall :=
  if (getParam req "key").isEmpty then .error (badRequest "key is required")
  else .ok (call (getParam req "key"))

def handleRange (req : HttpRequest) : Except HttpResponse ServerCall :=
  forKey req fun key => .range key (getParam req "range_end")

def handleDelete (req : HttpRequest) : Except HttpResponse ServerCall := forKey req .delete

def handleTxn (req : HttpRequest) : Except HttpResponse ServerCall := .ok (.txn req.body)

def handleWatch (req : HttpRequest) : Except HttpResponse ServerCall :=
  forKey req fun key => .watch key (getParam req "prefix" = ascii "true")

def forId (req : HttpRequest) (call : Int → ServerCall) : Except HttpResponse ServerCall :=
  if intParam req "ID" ≤ 0 then .error (badRequest "ID is required")
  else .ok (call (intParam req "ID"))

def handleWatchCancel (req : HttpRequest) : Except HttpResponse ServerCall := forId req .watchCancel

def handleLeaseGrant (req : HttpRequest) : Except HttpResponse ServerCall :=
  let ttl := intParam req "TTL"
  if ttl ≤ 0 then .error (badRequest "TTL is required and must be positive")
  else if ttl > 86400 * 365 then .error (badRequest "TTL too large (max 31536000 seconds)")
  else .ok (.leaseGrant ttl)

def handleLeaseRevoke (req : HttpRequest) : Except HttpResponse ServerCall := forId req .leaseRevoke

def handleLeaseKeepAlive (req : HttpRequest) : Except HttpResponse ServerCall :=
  forId req .leaseKeepAlive

def handleMemberAdd (req : HttpRequest) : Except HttpResponse ServerCall :=
  let peerAddr := getParam req "peer"
  if peerAddr.isEmpty then .error (badRequest "peer address is required")
  else .ok (.memberAdd peerAddr)

def handleMemberRemove (req : HttpRequest) : Except HttpResponse ServerCall :=
  let id := ((req.queryParams.get? (ascii "ID")).bind SnapshotManager.stoull).getD 0
  if id = 0 then .error (badRequest "ID is required") else .ok (.memberRemove id)

def indexPage : String :=
  "<!DOCTYPE html>\n<html>\n<head><title>my-etcd</title></head>\n<body>\n<h1>my-etcd</h1>\n" ++
  "<p>A distributed key-value store built with C++17</p>\n<h2>API Endpoints</h2>\n<ul>\n" ++
  "  <li>PUT /v3/kv/put?key=xxx - Put a key-value pair</li>\n" ++
  "  <li>POST /v3/kv/range?key=xxx - Range query</li>\n" ++
  "  <li>POST /v3/kv/delete?key=xxx - Delete a key</li>\n" ++
  "  <li>POST /v3/watch?key=xxx - Watch a key</li>\n" ++
  "  <li>POST /v3/lease/grant?TTL=60 - Grant a lease</li>\n" ++
  "  <li>POST /v3/lease/revoke?ID=1 - Revoke a lease</li>\n" ++
  "  <li>POST /v3/lease/keepalive?ID=1 - Keep a lease alive</li>\n" ++
  "  <li>GET /v3/cluster/info - Cluster information</li>\n</ul>\n</body>\n</html>"

def handleIndex : HttpResponse where
  headers := OrderedMap.insert ∅ (ascii "Content-Type") (ascii "text/html; charset=utf-8")
  body := ascii indexPage

def dangerousMethods : List Bytes := [ascii "TRACE", ascii "CONNECT", ascii "OPTIONS"]

/-- The token, by itself or behind `Bearer`, in the one or the other spelling of the header. -/
def authorized (authToken : Bytes) (req : HttpRequest) : Bool :=
  authToken.isEmpty ||
    match (req.headers.get? (ascii "Authorization")).or (req.headers.get? (ascii "authorization")) with
    | none => false
    | some auth =>
      auth = authToken ||
        (decide (auth.length > 7) && auth.take 7 = ascii "Bearer " && auth.drop 7 = authToken)

/-- The handler for a method and a path. -/
def routes (method path : Bytes) : Option (HttpRequest → Except HttpResponse ServerCall) :=
  if method = ascii "PUT" ∧ path = ascii "/v3/kv/put" then some handlePut
  else if method = ascii "POST" ∧ path = ascii "/v3/kv/range" then some handleRange
  else if method = ascii "POST" ∧ path = ascii "/v3/kv/delete" then some handleDelete
  else if method = ascii "POST" ∧ path = ascii "/v3/kv/txn" then some handleTxn
  else if method = ascii "POST" ∧ path = ascii "/v3/watch" then some handleWatch
  else if method = ascii "POST" ∧ path = ascii "/v3/watch/cancel" then some handleWatchCancel
  else if method = ascii "POST" ∧ path = ascii "/v3/lease/grant" then some handleLeaseGrant
  else if method = ascii "POST" ∧ path = ascii "/v3/lease/revoke" then some handleLeaseRevoke
  else if method = ascii "POST" ∧ path = ascii "/v3/lease/keepalive" then some handleLeaseKeepAlive
  else if method = ascii "GET" ∧ path = ascii "/v3/cluster/info" then some fun _ => .ok .clusterInfo
  else if method = ascii "POST" ∧ path = ascii "/v3/cluster/member/add" then some handleMemberAdd
  else if method = ascii "POST" ∧ path = ascii "/v3/cluster/member/remove" then some handleMemberRemove
  else if method = ascii "GET" ∧ path = ascii "/" then some fun _ => .error handleIndex
  else none

/-- What `HandleRequest` does up to the call of the server: the call, or an answer without it. -/
def dispatch (authToken : Bytes) (req : HttpRequest) : Except HttpResponse ServerCall :=
  if dangerousMethods.contains req.method then
    .error (HttpResponse.setError {} 405 (ascii "method not allowed: " ++ req.method))
  else if ¬ authorized authToken req then
    .error (HttpResponse.setError {} 401 (ascii "unauthorized: invalid or missing auth token"))
  else
    match routes req.method req.path with
    | some handler => handler req
    | none => .error (HttpResponse.setError {} 404 (ascii "not found: " ++ req.path))

def handleRequest (server : ServerCall → HttpResponse) (authToken : Bytes) (req : HttpRequest) :
    HttpResponse :=
  match dispatch authToken req with
  | .error resp => resp
  | .ok call => server call

end SimpleHttpServer

namespace ServerCall
open SimpleHttpServer

/-- What the handlers promise the server about a call. -/
def Admissible : ServerCall → Prop
  | put key value leaseId =>
    key ≠ [] ∧ key.length ≤ kMaxKeyLen ∧ value.length ≤ kMaxValueLen ∧
      -2 ^ 63 ≤ leaseId ∧ leaseId < 2 ^ 63
  | range key _ | delete key | watch key _ => key ≠ []
  | txn _ | clusterInfo => True
  | watchCancel id | leaseRevoke id | leaseKeepAlive id => 0 < id ∧ id < 2 ^ 63
  | leaseGrant ttl => 0 < ttl ∧ ttl ≤ 31536000
  | memberAdd peerAddr => peerAddr ≠ []
  | memberRemove id => 0 < id ∧ id < 2 ^ 64

/-- The texts that a call brings to the server. -/
def texts : ServerCall → List Bytes
  | put key value _ => [key, value]
  | range key rangeEnd => [key, rangeEnd]
  | delete text | watch text _ | txn text | memberAdd text => [text]
  | _ => []

end ServerCall

namespace SimpleHttpServer

/-- The request has a header with the token. -/
def Presents (authToken : Bytes) (req : HttpRequest) : Prop :=
  ∃ name value, (name = ascii "Authorization" ∨ name = ascii "authorization") ∧
    req.headers.get? name = some value ∧ (value = authToken ∨ value = ascii "Bearer " ++ authToken)

theorem presents_of_authorized {authToken : Bytes} {req : HttpRequest}
    (h : authorized authToken req = true) : authToken = [] ∨ Presents authToken req := by
  rw [authorized, Bool.or_eq_true, List.isEmpty_iff] at h
  refine h.imp_right fun h => ?_
  cases hfound : (req.headers.get? (ascii "Authorization")).or
      (req.headers.get? (ascii "authorization")) with
  | none =>
    rw [hfound] at h
    cases h
  | some auth =>
    rw [hfound] at h
    have hname : ∃ name, (name = ascii "Authorization" ∨ name = ascii "authorization") ∧
        req.headers.get? name = some auth := by
      rcases Option.or_eq_some_iff.mp hfound with hfirst | ⟨-, hsecond⟩
      · exact ⟨_, .inl rfl, hfirst⟩
      · exact ⟨_, .inr rfl, hsecond⟩
    obtain ⟨name, hname, hget⟩ := hname
    refine ⟨name, auth, hname, hget, ?_⟩
    simp only [Bool.or_eq_true, Bool.and_eq_true, decide_eq_true_eq] at h
    refine h.imp_right fun ⟨⟨_, hbearer⟩, hrest⟩ => ?_
    rw [← hbearer, ← hrest, List.take_append_drop]

theorem intParam_bounds (req : HttpRequest) (name : String) :
    -2 ^ 63 ≤ intParam req name ∧ intParam req name < 2 ^ 63 := by
  rw [intParam]
  cases hv : (req.queryParams.get? (ascii name)).bind stoll with
  | none => exact ⟨by decide, by decide⟩
  | some v =>
    obtain ⟨text, -, hread⟩ := Option.bind_eq_some_iff.mp hv
    exact stoll_bounds hread

theorem stoull_bounds {text : Bytes} {n : Nat} (h : SnapshotManager.stoull text = some n) :
    n < 2 ^ 64 := by
  obtain ⟨v, -, hv⟩ := Option.bind_eq_some_iff.mp h
  obtain ⟨-, heq⟩ := Option.ite_none_right_eq_some.mp hv
  obtain rfl := Option.some.inj heq
  omega

/-- A call that a handler makes, with what it takes from the request. -/
structure Taken (req : HttpRequest) (call : ServerCall) : Prop where
  admissible : call.Admissible
  texts : ∀ text ∈ call.texts, text = req.body ∨ ∃ name, text = getParam req name

variable {req : HttpRequest} {call : ServerCall}

theorem forKey_ok {make : Bytes → ServerCall} (h : forKey req make = .ok call) :
    getParam req "key" ≠ [] ∧ call = make (getParam req "key") := by
  unfold forKey at h
  split_ifs at h with hempty
  cases h
  exact ⟨fun heq => hempty (List.isEmpty_iff.mpr heq), rfl⟩

theorem forId_ok {make : Int → ServerCall} (h : forId req make = .ok call) :
    ∃ id, 0 < id ∧ id < 2 ^ 63 ∧ call = make id := by
  unfold forId at h
  split_ifs at h with hsmall
  cases h
  exact ⟨_, not_le.mp hsmall, (intParam_bounds req "ID").2, rfl⟩

theorem handlePut_ok (h : handlePut req = .ok call) : Taken req call := by
  unfold handlePut handlePutError at h
  dsimp only at h
  split_ifs at h with hempty hkey hvalue
  cases h
  have hlease := intParam_bounds req "lease"
  refine ⟨⟨fun heq => hempty (List.isEmpty_iff.mpr heq), not_lt.mp hkey, not_lt.mp hvalue,
    hlease.1, hlease.2⟩, ?_⟩
  rintro text (_ | ⟨_, _ | ⟨_, htext⟩⟩)
  · exact .inr ⟨"key", rfl⟩
  · exact .inl rfl
  · cases htext

theorem handleLeaseGrant_ok (h : handleLeaseGrant req = .ok call) : Taken req call := by
  unfold handleLeaseGrant at h
  dsimp only at h
  split_ifs at h with hsmall hlarge
  cases h
  exact ⟨⟨not_le.mp hsmall, not_lt.mp hlarge⟩, fun text htext => by cases htext⟩

theorem handleMemberAdd_ok (h : handleMemberAdd req = .ok call) : Taken req call := by
  unfold handleMemberAdd at h
  dsimp only at h
  split_ifs at h with hempty
  cases h
  refine ⟨fun heq => hempty (List.isEmpty_iff.mpr heq), fun text htext => .inr ⟨"peer", ?_⟩⟩
  exact List.mem_singleton.mp htext

theorem handleMemberRemove_ok (h : handleMemberRemove req = .ok call) : Taken req call := by
  unfold handleMemberRemove at h
  dsimp only at h
  split_ifs at h with hzero
  cases h
  refine ⟨⟨Nat.pos_of_ne_zero hzero, ?_⟩, fun text htext => by cases htext⟩
  cases hid : (req.queryParams.get? (ascii "ID")).bind SnapshotManager.stoull with
  | none => exact Nat.pow_pos (by decide)
  | some id =>
    obtain ⟨text, -, hread⟩ := Option.bind_eq_some_iff.mp hid
    exact stoull_bounds hread

def handlers : List (HttpRequest → Except HttpResponse ServerCall) :=
  [handlePut, handleRange, handleDelete, handleTxn, handleWatch, handleWatchCancel, handleLeaseGrant,
    handleLeaseRevoke, handleLeaseKeepAlive, fun _ => .ok .clusterInfo, handleMemberAdd,
    handleMemberRemove, fun _ => .error handleIndex]

private theorem route_cases {c : Prop} [Decidable c]
    {this handler : HttpRequest → Except HttpResponse ServerCall}
    {others : Option (HttpRequest → Except HttpResponse ServerCall)}
    {more : List (HttpRequest → Except HttpResponse ServerCall)}
    (hothers : others = some handler → handler ∈ more)
    (h : (if c then some this else others) = some handler) : handler ∈ this :: more := by
  split_ifs at h
  · exact Option.some.inj h ▸ List.mem_cons_self
  · exact List.mem_cons_of_mem _ (hothers h)

theorem mem_handlers {method path : Bytes} {handler : HttpRequest → Except HttpResponse ServerCall}
    (h : routes method path = some handler) : handler ∈ handlers := by
  revert h
  iterate 13 refine route_cases ?_
  exact fun h => by cases h

/-- Whichever handler the request gets to. -/
theorem taken_of_mem_handlers : ∀ handler ∈ handlers, ∀ req call, handler req = .ok call →
    Taken req call := by
  have hkey {req : HttpRequest} {call : ServerCall} {make : Bytes → ServerCall}
      (hmake : ∀ key, (make key).Admissible ↔ key ≠ [])
      (htexts : ∀ text ∈ (make (getParam req "key")).texts, ∃ name, text = getParam req name)
      (h : forKey req make = .ok call) : Taken req call := by
    obtain ⟨hne, rfl⟩ := forKey_ok h
    exact ⟨(hmake _).mpr hne, fun text htext => .inr (htexts text htext)⟩
  have hid {req : HttpRequest} {call : ServerCall} {make : Int → ServerCall}
      (hmake : ∀ id, (make id).Admissible ↔ 0 < id ∧ id < 2 ^ 63) (htexts : ∀ id, (make id).texts = [])
      (h : forId req make = .ok call) : Taken req call := by
    obtain ⟨id, hpos, hlt, rfl⟩ := forId_ok h
    exact ⟨(hmake id).mpr ⟨hpos, hlt⟩, fun text htext => by rw [htexts] at htext; cases htext⟩
  have hone (req : HttpRequest) (text : Bytes) (htext : text ∈ [getParam req "key"]) :
      ∃ name, text = getParam req name := ⟨"key", List.mem_singleton.mp htext⟩
  simp only [handlers, List.forall_mem_cons]
  refine ⟨fun _ _ => handlePut_ok, fun req call h => ?range, fun req call h => ?delete,
    fun req call h => ?txn, fun req call h => ?watch, fun _ _ => hid (fun _ => Iff.rfl) fun _ => rfl,
    fun _ _ => handleLeaseGrant_ok, fun _ _ => hid (fun _ => Iff.rfl) fun _ => rfl,
    fun _ _ => hid (fun _ => Iff.rfl) fun _ => rfl, fun req call h => ?clusterInfo,
    fun _ _ => handleMemberAdd_ok, fun _ _ => handleMemberRemove_ok, fun req call h => ?index,
    fun _ h => absurd h List.not_mem_nil⟩
  case range =>
    refine hkey (fun _ => Iff.rfl) ?_ h
    rintro text (_ | ⟨_, _ | ⟨_, htext⟩⟩)
    · exact ⟨"key", rfl⟩
    · exact ⟨"range_end", rfl⟩
    · cases htext
  case delete =>
    refine hkey (fun _ => Iff.rfl) ?_ h
    exact hone req
  case txn =>
    cases h
    exact ⟨trivial, fun text htext => .inl (List.mem_singleton.mp htext)⟩
  case watch =>
    refine hkey (fun _ => Iff.rfl) ?_ h
    exact hone req
  case clusterInfo =>
    cases h
    exact ⟨trivial, fun text htext => by cases htext⟩
  case index => cases h

/-- A call of the server is admissible, and the request has presented the token. -/
theorem dispatch_ok {authToken : Bytes} (h : dispatch authToken req = .ok call) :
    Taken req call ∧ req.method ∉ dangerousMethods ∧ (authToken = [] ∨ Presents authToken req) := by
  unfold dispatch at h
  split_ifs at h with hmethod hauth
  cases hroute : routes req.method req.path with
  | none =>
    rw [hroute] at h
    cases h
  | some handler =>
    rw [hroute] at h
    exact ⟨taken_of_mem_handlers handler (mem_handlers hroute) _ _ h,
      fun hmem => hmethod (List.contains_iff_mem.mpr hmem), presents_of_authorized hauth⟩

/-- The two loops read no more than 64 KiB before the last chunk. -/
theorem length_receiveHeader {acc : Bytes} {total : Nat} {chunks : List Bytes}
    (hacc : acc.length ≤ total) (htotal : total ≤ 69630)
    (hsizes : ∀ chunk ∈ chunks, chunk.length ≤ 4095) :
    (receiveHeader acc total chunks).1.length ≤ (receiveHeader acc total chunks).2.1 ∧
      (receiveHeader acc total chunks).2.1 ≤ 69630 ∧
      ∀ chunk ∈ (receiveHeader acc total chunks).2.2, chunk.length ≤ 4095 := by
  induction chunks generalizing acc total with
  | nil => exact ⟨hacc, htotal, hsizes⟩
  | cons chunk rest ih =>
    have hchunk := hsizes chunk List.mem_cons_self
    have hrest := fun chunk hchunk => hsizes chunk (List.mem_cons_of_mem _ hchunk)
    have hlimit (h : total < 4096 * 16) : total + chunk.length ≤ 69630 := by omega
    have hkept : (acc ++ cString chunk).length ≤ total + chunk.length := by
      rw [List.length_append]
      exact Nat.add_le_add hacc ((List.takeWhile_prefix _).length_le)
    rw [receiveHeader]
    split_ifs with hroom
    · exact ⟨hacc, htotal, hrest⟩
    · exact ⟨hkept, hlimit hroom, hrest⟩
    · exact ih hkept (hlimit hroom) hrest
    · exact ⟨hacc, htotal, hsizes⟩

theorem length_receiveBody {acc : Bytes} {headerEnd contentLength total : Nat} {chunks : List Bytes}
    (hacc : acc.length ≤ total) (htotal : total ≤ 69630)
    (hsizes : ∀ chunk ∈ chunks, chunk.length ≤ 4095) :
    (receiveBody headerEnd contentLength acc total chunks).length ≤ 69630 := by
  induction chunks generalizing acc total with
  | nil => exact hacc.trans htotal
  | cons chunk rest ih =>
    have hchunk := hsizes chunk List.mem_cons_self
    have hkept : (acc ++ cString chunk).length ≤ total + chunk.length := by
      rw [List.length_append]
      exact Nat.add_le_add hacc ((List.takeWhile_prefix _).length_le)
    rw [receiveBody]
    split_ifs with hroom
    · exact hacc.trans htotal
    · exact ih hkept (by omega) fun chunk hchunk => hsizes chunk (List.mem_cons_of_mem _ hchunk)
    · exact hacc.trans htotal

theorem length_urlDecode (text : Bytes) : (urlDecode text).length ≤ text.length := by
  induction text using urlDecode.induct with
  | case1 => exact le_rfl
  | case2 x y rest v hread ih =>
    rw [urlDecode_escaped hread]
    simp only [List.length_cons]
    omega
  | case3 x y rest hnone ih =>
    rw [urlDecode_percent hnone]
    simp only [List.length_cons] at ih ⊢
    omega
  | case4 b rest hplain ih =>
    rw [urlDecode]
    · exact Nat.succ_le_succ ih
    · exact hplain

theorem length_of_mem_getlines {delim : UInt8} {text line : Bytes} (h : line ∈ getlines delim text) :
    line.length ≤ text.length := by
  induction text generalizing line with
  | nil => cases h
  | cons b rest ih =>
    rw [getlines] at h
    split_ifs at h
    · rcases List.mem_cons.mp h with rfl | h
      · exact Nat.zero_le _
      · exact (ih h).trans (Nat.le_succ _)
    · cases hlines : getlines delim rest with
      | nil =>
        rw [hlines] at h
        rw [List.mem_singleton.mp h]
        exact Nat.succ_le_succ (Nat.zero_le _)
      | cons first more =>
        rw [hlines] at h
        rcases List.mem_cons.mp h with rfl | h
        · exact Nat.succ_le_succ (ih (hlines ▸ List.mem_cons_self))
        · exact (ih (hlines ▸ List.mem_cons_of_mem _ h)).trans (Nat.le_succ _)

/-- A value in a map that is filled from a list comes from a member of the list. -/
theorem get?_foldl_length {step : OrderedMap Bytes Bytes → Bytes → OrderedMap Bytes Bytes} {name : Bytes}
    (hstep : ∀ m param value, (step m param).get? name = some value →
      m.get? name = some value ∨ value.length ≤ param.length) {n : Nat} {params : List Bytes}
    (hparams : ∀ param ∈ params, param.length ≤ n) {m : OrderedMap Bytes Bytes}
    (hm : ∀ value, m.get? name = some value → value.length ≤ n) {value : Bytes}
    (h : (params.foldl step m).get? name = some value) : value.length ≤ n := by
  induction params generalizing m with
  | nil => exact hm value h
  | cons param params ih =>
    refine ih (fun p hp => hparams p (List.mem_cons_of_mem _ hp)) (fun v hv => ?_) h
    rcases hstep m param v hv with hv | hv
    · exact hm v hv
    · exact hv.trans (hparams param List.mem_cons_self)

/-- No parameter is longer than the query. -/
theorem length_parseQuery {query name value : Bytes} (h : (parseQuery query).get? name = some value) :
    value.length ≤ query.length := by
  refine get?_foldl_length (fun m param value hvalue => ?_)
    (fun param hparam => length_of_mem_getlines hparam) (fun value hvalue => by cases hvalue) h
  cases hcut : cut [61] param with
  | none =>
    rw [hcut] at hvalue
    exact .inl hvalue
  | some sides =>
    rw [hcut] at hvalue
    dsimp only at hvalue
    rw [OrderedMap.get?_insert] at hvalue
    split_ifs at hvalue
    · obtain rfl := Option.some.inj hvalue
      have hlength := congrArg List.length (cut_some (u := sides.1) (v := sides.2) hcut)
      rw [List.length_append] at hlength
      exact .inr ((length_urlDecode _).trans (by omega))
    · exact .inl hvalue

theorem length_chomp (line : Bytes) : (chomp line).length ≤ line.length := by
  rw [chomp]
  split_ifs
  · exact (List.dropLast_prefix line).length_le
  · exact le_rfl

theorem length_getParam (raw : Bytes) (name : String) :
    (getParam (parseRequest raw) name).length ≤ raw.length := by
  have hline : ((getlines 10 raw).headD []).length ≤ raw.length := by
    cases hlines : getlines 10 raw with
    | nil => exact Nat.zero_le _
    | cons line more => exact length_of_mem_getlines (hlines ▸ List.mem_cons_self)
  have hwords := ((List.dropWhile_suffix isSpace).length_le).trans ((length_chomp _).trans hline)
  obtain ⟨target, htarget, hparams⟩ : ∃ target : Bytes, target.length ≤ raw.length ∧
      (parseRequest raw).queryParams =
        ((cut [63] target).map fun sides => parseQuery sides.2).getD ∅ := by
    refine ⟨_, ?_, rfl⟩
    refine (List.takeWhile_prefix _).length_le.trans ?_
    refine (List.dropWhile_suffix _).length_le.trans ?_
    exact (List.dropWhile_suffix _).length_le.trans hwords
  rw [getParam, hparams]
  cases hcut : cut [63] target with
  | none => exact Nat.zero_le _
  | some sides =>
    have hquery : sides.2.length ≤ raw.length := by
      rw [cut_some (u := sides.1) (v := sides.2) hcut, List.length_append] at htarget
      omega
    rw [Option.map_some, Option.getD_some]
    cases hvalue : (parseQuery sides.2).get? (ascii name) with
    | none => exact Nat.zero_le _
    | some value => exact (length_parseQuery hvalue).trans hquery

theorem length_parseBody (raw : Bytes) : (parseRequest raw).body.length ≤ raw.length := by
  have hrest : (((cut crlf2 raw).map Prod.snd).getD (raw.drop 3)).length ≤ raw.length := by
    cases hcut : cut crlf2 raw with
    | none => exact (List.drop_suffix 3 raw).length_le
    | some sides =>
      have hlength := congrArg List.length (cut_some (u := sides.1) (v := sides.2) hcut)
      rw [List.length_append] at hlength
      rw [Option.map_some, Option.getD_some]
      omega
  dsimp only [parseRequest]
  split_ifs
  · exact (List.take_prefix _ _).length_le.trans hrest
  · exact Nat.zero_le _

/-- Whatever comes over a connection, in chunks of at most 4095 bytes, the server is called only with
what the handlers have checked, for a request with the token, and with texts of less than 68 KiB. So the
limits that `HandlePut` sets for keys and values never refuse anything. -/
theorem received_admissible {chunks : List Bytes} (hsizes : ∀ chunk ∈ chunks, chunk.length ≤ 4095)
    (hreceived : handleClient chunks = some req) (authToken : Bytes) :
    (∀ call, dispatch authToken req = .ok call → call.Admissible ∧ req.method ∉ dangerousMethods ∧
      (authToken = [] ∨ Presents authToken req) ∧ ∀ text ∈ call.texts, text.length ≤ 69630) ∧
    handlePutError (getParam req "key") req.body =
      if (getParam req "key").isEmpty then some "key is required" else none := by
  obtain ⟨raw, hraw, rfl⟩ : ∃ raw : Bytes, raw.length ≤ 69630 ∧ req = parseRequest raw := by
    obtain ⟨sides, -, rfl⟩ := Option.map_eq_some_iff.mp hreceived
    have hnone : ([] : Bytes).length ≤ 0 := le_rfl
    obtain ⟨hstr, htotal, hrest⟩ := length_receiveHeader hnone (Nat.zero_le _) hsizes
    exact ⟨_, length_receiveBody hstr htotal hrest, rfl⟩
  have hparam (name : String) := (length_getParam raw name).trans hraw
  have hbody := (length_parseBody raw).trans hraw
  constructor
  · intro call hcall
    obtain ⟨htaken, hmethod, hauth⟩ := dispatch_ok hcall
    refine ⟨htaken.admissible, hmethod, hauth, fun text htext => ?_⟩
    rcases htaken.texts text htext with rfl | ⟨name, rfl⟩
    · exact hbody
    · exact hparam name
  · have hkey : ¬ (getParam (parseRequest raw) "key").length > kMaxKeyLen := by
      have := hparam "key"
      rw [kMaxKeyLen]
      omega
    have hvalue : ¬ (parseRequest raw).body.length > kMaxValueLen := by
      rw [kMaxValueLen]
      omega
    rw [handlePutError, if_neg hkey, if_neg hvalue]

def deletion : List Bytes :=
  [ascii "POST /v3/kv/delete?key=a+b HT", ascii "TP/1.1\x0d\nAuthorization: Bearer t\x0d",
    ascii "\n\x0d\n"]

theorem received_admissible_deletion :
    (handleClient deletion).map (dispatch (ascii "t")) = some (.ok (.delete (ascii "a b"))) ∧
      (ServerCall.delete (ascii "a b")).Admissible := by
  have hdispatch : (handleClient deletion).map (dispatch (ascii "t")) =
      some (.ok (.delete (ascii "a b"))) := rfl
  have hsizes : ∀ chunk ∈ deletion, chunk.length ≤ 4095 := by decide
  obtain ⟨req, hreceived, hcall⟩ := Option.map_eq_some_iff.mp hdispatch
  exact ⟨hdispatch, ((received_admissible hsizes hreceived (ascii "t")).1 _ hcall).1⟩

end SimpleHttpServer
end MyEtcd
