import MyEtcd.Server.CommandLine
import MyEtcd.Server.Members
import MyEtcd.Server.TxnParser
import MyEtcd.Watch.WatchManager

/-! The bodies of answers, as they are put together from text. -/
namespace MyEtcd
open Library

structure HttpResponse where
  statusCode : Int := 200
  headers : OrderedMap Bytes Bytes := ∅
  body : Bytes := []

namespace HttpResponse

def setJson (resp : HttpResponse) (json : Bytes) : HttpResponse :=
  { resp with
    headers := resp.headers.insert (ascii "Content-Type") (ascii "application/json")
    body := json }

def setError (resp : HttpResponse) (code : Int) (message : Bytes) : HttpResponse where
  statusCode := code
  headers := resp.headers.insert (ascii "Content-Type") (ascii "application/json")
  body := ascii "\x7b\"error\":\"" ++ Json.escape message ++ ascii "\",\"code\":" ++
    decimalInt code ++ ascii "\x7d"

end HttpResponse

namespace Json

def kvToJson (kv : KeyValue) : Bytes :=
  ascii "\x7b" ++
  ascii "\"key\":\"" ++ escape kv.key ++ ascii "\"," ++
  ascii "\"value\":\"" ++ escape kv.value ++ ascii "\"," ++
  ascii "\"create_revision\":" ++ decimalInt kv.createRevision ++ ascii "," ++
  ascii "\"mod_revision\":" ++ decimalInt kv.modRevision ++ ascii "," ++
  ascii "\"version\":" ++ decimal kv.version ++ ascii "," ++
  ascii "\"lease\":" ++ decimalInt kv.leaseId ++
  ascii "\x7d"

def kvListToJson (kvs : List KeyValue) (count : Int) : Bytes :=
  ascii "\x7b" ++
  (if count > 0 then ascii "\"count\":" ++ decimalInt count ++ ascii ","
    else ascii "\"count\":" ++ decimal kvs.length ++ ascii ",") ++
  ascii "\"kvs\":[" ++ commas (kvs.map kvToJson) ++ ascii "]\x7d"

def watchEventToJson (ev : WatchEvent) : Bytes :=
  ascii "\x7b" ++
  ascii "\"type\":\"" ++ (if ev.type = .put then ascii "PUT" else ascii "DELETE") ++ ascii "\"," ++
  ascii "\"kv\":" ++ kvToJson ev.kv ++
  ascii "\x7d"

end Json

namespace EtcdServer
open Json

/-- What an operation adds to `results`. -/
def txnResult (op : TxnOp) : Option Bytes :=
  if op.type = .put ∧ op.key ≠ [] then
    some (ascii "\x7b\"type\":\"PUT\",\"key\":\"" ++ escape op.key ++ ascii "\"\x7d")
  else if op.type = .delete ∧ op.key ≠ [] then
    some (ascii "\x7b\"type\":\"DELETE\",\"key\":\"" ++ escape op.key ++ ascii "\"\x7d")
  else none

/-- The answer of `Txn`, when it is known whether the conditions are met. -/
def txnResponse (requestBody : Bytes) (conditionsMet : Bool) : HttpResponse :=
  let succeeded := if conditionsMet then ascii "true" else ascii "false"
  if (cut (named (opsToExecute conditionsMet) 91) requestBody).isNone then
    HttpResponse.setJson {} (ascii "\x7b\"succeeded\":" ++ succeeded ++ ascii ",\"results\":[]\x7d")
  else
    HttpResponse.setJson {}
      (ascii "\x7b\"succeeded\":" ++ succeeded ++ ascii ",\"results\":[" ++
        commas ((operations requestBody conditionsMet).filterMap txnResult) ++ ascii "]\x7d")

def stateText : NodeState → Bytes
  | .follower => ascii "Follower"
  | .candidate => ascii "Candidate"
  | .leader => ascii "Leader"

def clusterInfo (config : ServerConfig) (n : RaftNode) (kvstore : KVStore) : HttpResponse :=
  HttpResponse.setJson {}
    (ascii "\x7b" ++
    ascii "\"node_id\":" ++ decimal config.nodeId ++ ascii "," ++
    ascii "\"name\":\"" ++ escape config.name ++ ascii "\"," ++
    ascii "\"state\":\"" ++ stateText n.state ++ ascii "\"," ++
    ascii "\"term\":" ++ decimal n.currentTerm ++ ascii "," ++
    ascii "\"leader_id\":" ++ decimal n.leaderId ++ ascii "," ++
    ascii "\"revision\":" ++ decimalInt kvstore.currentRevision ++ ascii "," ++
    ascii "\"keys\":" ++ decimal kvstore.keys.length ++
    ascii "\x7d")

/-- What becomes of a `MemberAdd`: the status and the text of an error, or the id. When it proposes the
change the node may have moved on, so the error of the proposal, if there is one, is an argument. -/
def memberAddResult (n : RaftNode) (peerAddr : Bytes) (error : Option Bytes) :
    Except (Int × Bytes) Nat :=
  match memberAdd n peerAddr, error with
  | .error (code, text), _ => .error (code, ascii text)
  | .ok _, some error => .error (500, error)
  | .ok cc, none => .ok cc.nodeId

def memberJson (newId : Nat) (peerAddr : Bytes) : Bytes :=
  ascii "\x7b\"header\":\x7b\"revision\":0\x7d,\"member\":\x7b" ++
  ascii "\"ID\":" ++ decimal newId ++ ascii "," ++
  ascii "\"peerURLs\":[\"" ++ peerAddr ++ ascii "\"]\x7d\x7d"

def memberAddResponse (n : RaftNode) (peerAddr : Bytes) (error : Option Bytes) : HttpResponse :=
  match memberAddResult n peerAddr error with
  | .error (code, text) => HttpResponse.setError {} code text
  | .ok newId => HttpResponse.setJson {} (memberJson newId peerAddr)

end EtcdServer
end MyEtcd
