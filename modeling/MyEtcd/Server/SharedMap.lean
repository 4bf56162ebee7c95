import MyEtcd.Server.Requests

/-! What many clients see of the store together. Their puts and deletions become entries of one log, and
a range lists the plain map that these operations make, whoever asks for it. -/
namespace MyEtcd
open Library SimpleHttpServer Json EtcdServer
open Library.JsonValue (parse)

namespace ServerCall

def op : ServerCall → Option KVStore.Op
  | put key value leaseId => some (.putWithPrev key value leaseId)
  | delete key => some (.delete key)
  | _ => none

def entry (call : ServerCall) : Option RaftEntry := call.request.bind Request.entry

theorem typed_of_op {call : ServerCall} (hop : call.op ≠ none) (h : call.Admissible) : call.Typed := by
  cases call with
  | put key value leaseId => exact h.2.2.2
  | delete key => trivial
  | _ => exact absurd rfl hop

end ServerCall

/-- An entry without its place in the log. -/
def RaftEntry.unplaced (entry : RaftEntry) : RaftEntry := { entry with term := 0, index := 0 }

theorem EtcdServer.processRaftEntries_unplaced (kvstore : KVStore) (entries : List RaftEntry) :
    processRaftEntries kvstore (entries.map RaftEntry.unplaced) = processRaftEntries kvstore entries :=
  List.foldl_map

/-- Applying the entries of some calls makes the calls on the store. -/
theorem EtcdServer.processRaftEntries_calls (kvstore : KVStore) (calls : List ServerCall) :
    processRaftEntries kvstore (calls.filterMap ServerCall.entry) =
      kvstore.run (calls.filterMap ServerCall.op) := by
  induction calls generalizing kvstore with
  | nil => rfl
  | cons call rest ih =>
    cases call with
    | put key value leaseId => exact ih (kvstore.putWithPrev key value leaseId).2
    | delete key => exact ih (kvstore.delete key).2
    | _ => exact ih kvstore

/-- What the plain map has under a key is what some put has brought there. -/
theorem LatestMap.exists_put {ops : List KVStore.Op} {key : Bytes} {c : Content}
    (hputs : ∀ key value leaseId, .put key value leaseId ∉ ops)
    (h : (LatestMap.run {} ops).contents.get? key = some c) :
    .putWithPrev key c.value c.leaseId ∈ ops := by
  induction ops using List.reverseRecOn with
  | nil => cases h
  | append_singleton front op ih =>
    have hbefore (h : (LatestMap.run {} front).contents.get? key = some c) :
        .putWithPrev key c.value c.leaseId ∈ front ++ [op] :=
      List.mem_append_left _ (ih (fun k v l hmem => hputs k v l (List.mem_append_left _ hmem)) h)
    rw [LatestMap.run, List.foldl_append, List.foldl_cons, List.foldl_nil, ← LatestMap.run] at h
    cases op with
    | put k v l => exact absurd (List.mem_append_right _ (List.mem_singleton_self _)) (hputs k v l)
    | putWithPrev k v l =>
      rw [LatestMap.after, OrderedMap.get?_insert] at h
      split_ifs at h with hkey
      · obtain rfl := Option.some.inj h
        exact List.mem_append_right _ (hkey ▸ List.mem_singleton_self _)
      · exact hbefore h
    | delete k =>
      rw [LatestMap.after, OrderedMap.get?_erase] at h
      split_ifs at h
      exact hbefore h
    | compact rev => exact hbefore h

/-- A range of the store is that part of the plain map, in the order of the keys. -/
theorem KVStore.found_range (ops : List KVStore.Op) (start : Bytes) {stop : Bytes} (hstop : stop ≠ []) :
    (found (KVStore.run {} ops) start stop 0 0).map (fun kv => (kv.key, kv.content)) =
      ((LatestMap.run {} ops).contents.within fun key =>
        start ≤ key ∧ OrderedMap.below stop key).entries := by
  have hmirrors : KVStore.Mirrors (KVStore.run {} ops) (LatestMap.run {} ops) :=
    .run ⟨rfl, fun _ => rfl, fun _ => rfl⟩ ops
  have hend : ¬ stop.isEmpty := fun h => hstop (List.isEmpty_iff.mp h)
  rw [found, if_neg hend, KVStore.range, MVCC.range_eq, hmirrors.labelled]
  rfl

namespace Transmission
variable {authToken : Bytes}

/-- Clients share one ordered map: their puts and deletions arrive as they were sent, and when the server
has applied the entries of these calls, wherever they stand in the log, the client of a range reads what
the operations have left there, with the revisions in which it was written. -/
theorem clients_share_map (writes : List (Transmission × ServerCall)) (read : Transmission)
    {start stop : Bytes}
    (hwrites : ∀ w ∈ writes, Asks w.1.request w.2 authToken ∧ w.2.Admissible ∧ w.2.op ≠ none)
    (htext : ∀ w ∈ writes, ∀ key value leaseId, w.2 = .put key value leaseId →
      Printable key ∧ Printable value)
    (hread : Asks read.request (.range start stop) authToken) (hstart : start ≠ []) (hstop : stop ≠ []) :
    (∀ w ∈ writes, (handleClient w.1.chunks).map (dispatch authToken) = some (.ok w.2)) ∧
    ∀ entries : List RaftEntry, entries.map RaftEntry.unplaced = writes.filterMap (fun w => w.2.entry) →
      ∀ server, Serves server (processRaftEntries {} entries) →
        ∃ resp kvs, (handleClientImpl server authToken read.chunks).bind readResponse = some resp ∧
          resp.statusCode = 200 ∧ parse resp.body = some (kvListValue kvs kvs.length) ∧
          kvs.map (fun kv => (kv.key, kv.content)) =
            ((LatestMap.run {} (writes.filterMap fun w => w.2.op)).contents.within fun key =>
              start ≤ key ∧ OrderedMap.below stop key).entries := by
  constructor
  · intro w hw
    obtain ⟨hasks, hadmissible, hop⟩ := hwrites w hw
    have hzero : ∀ body ∈ w.2.body, 0 ∉ body := by
      intro body hbody
      cases hcall : w.2 <;> rw [hcall] at hbody hop <;> try cases hbody
      · exact (htext w hw _ _ _ hcall).2.zero_not_mem
      · exact absurd rfl hop
    obtain ⟨req, hrequest, hanswers⟩ :=
      w.1.answers_call hasks (ServerCall.typed_of_op hop hadmissible) hzero
    rw [hrequest, Option.map_some, hanswers.1 hadmissible]
  · intro entries hentries server hserves
    have hstore : processRaftEntries {} entries =
        KVStore.run {} (writes.filterMap fun w => w.2.op) := by
      have hcalls := processRaftEntries_calls {} (writes.map Prod.snd)
      rw [List.filterMap_map, List.filterMap_map] at hcalls
      rw [← processRaftEntries_unplaced, hentries]
      exact hcalls
    rw [hstore] at hserves
    have hfound := KVStore.found_range (writes.filterMap fun w => w.2.op) start hstop
    obtain ⟨resp, hresp, hstatus, hbody⟩ := read.range_read hserves hread hstart (by
      intro kv hkv
      have hmem := List.mem_map_of_mem (f := fun kv : KeyValue => (kv.key, kv.content)) hkv
      rw [hfound, OrderedMap.mem_entries_iff, OrderedMap.get?_within] at hmem
      obtain ⟨_, hmem⟩ := Option.ite_none_right_eq_some.mp hmem
      have hnever : ∀ key value leaseId, .put key value leaseId ∉ writes.filterMap fun w => w.2.op := by
        intro key value leaseId hput
        obtain ⟨w, _, hop⟩ := List.mem_filterMap.mp hput
        cases hcall : w.2 <;> rw [hcall] at hop <;> cases hop
      obtain ⟨w, hw, hop⟩ := List.mem_filterMap.mp (LatestMap.exists_put hnever hmem)
      refine htext w hw kv.key kv.value kv.leaseId ?_
      cases hcall : w.2 <;> rw [hcall] at hop <;> cases hop
      rfl)
    exact ⟨resp, _, hresp, hstatus, hbody, hfound⟩

def rangeRequest : SentRequest :=
  { readBackRequest with
    target := ascii "/v3/kv/range?range_end=b&key=a HTTP/1.1"
    target_wf := forall_of_all (by decide) }

def rangeSent : Transmission where
  request := rangeRequest
  chunks := [rangeRequest.text]
  whole := by decide
  sizes := by decide
  total := by decide

def startParam : SentParam :=
  { keyParam with
    value := ascii "a"
    valueText := ascii "a"
    value_enc := encodes_plain (forall_of_all (by decide))
    texts_wf := forall_of_all (by decide) }

def stopParam : SentParam where
  name := ascii "range_end"
  value := ascii "b"
  nameText := ascii "range_end"
  valueText := ascii "b"
  name_enc := .plain (by decide) (encodes_plain (forall_of_all (by decide)))
  value_enc := encodes_plain (forall_of_all (by decide))
  texts_wf := forall_of_all (by decide)
  nameText_wf := by decide

theorem asks_rangeRequest : Asks rangeRequest (.range (ascii "a") (ascii "b")) (ascii "t") := by
  refine ⟨rfl, ⟨[stopParam, startParam], ascii "HTTP/1.1", rfl, by decide, ?_⟩, ?_, asks_readBack.token⟩
  · intro p hp
    left
    rcases List.mem_cons.mp hp with rfl | hp
    · rfl
    · obtain rfl := List.mem_singleton.mp hp
      rfl
  · exact fun body hbody => by cases hbody

theorem clients_share_map_read : ∃ resp kvs,
    (handleClientImpl reader (ascii "t") rangeSent.chunks).bind readResponse = some resp ∧
      resp.statusCode = 200 ∧ parse resp.body = some (kvListValue kvs kvs.length) ∧
      kvs.map (fun kv => (kv.key, kv.content)) = [(ascii "a b", ⟨ascii "xyz", 1, -7⟩)] := by
  obtain ⟨-, hreads⟩ := clients_share_map [(leasedPutSent, leasedPut)] rangeSent (by
      intro w hw
      obtain rfl := List.mem_singleton.mp hw
      exact ⟨asks_leasedPut, admissible_leasedPut, by decide⟩) (by
      intro w hw key value leaseId hput
      obtain rfl := List.mem_singleton.mp hw
      cases hput
      exact ⟨⟨⟨"a b".toList, rfl⟩, by decide⟩, ⟨"xyz".toList, rfl⟩, by decide⟩)
    asks_rangeRequest (by decide) (by decide)
  exact hreads [{ key := ascii "a b", value := ascii "xyz", leaseId := -7, term := 1, index := 1 }] rfl
    reader serves_reader

end Transmission
end MyEtcd
