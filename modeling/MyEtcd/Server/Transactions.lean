import Mathlib.Data.List.Permutation
import MyEtcd.Server.Leading

/-! Transactions of one leader next to requests that are executed one after the other.
A transaction compares first and proposes later, so it is atomic as long as it starts on a store
that is up to date, and nobody else proposes before it has. -/
namespace MyEtcd
open Library

namespace Request

/-- A request executed all at once: the answer of a transaction, and the store after it. -/
def executed (kvstore : KVStore) : Request → Option Bool × KVStore
  | .txn compares success failure =>
    let met := compares.all fun c => c.holds (kvstore.get c.key 0)
    let ops := if met then success else failure
    (some met, EtcdServer.processRaftEntries kvstore (ops.filterMap TxnOp.entry))
  | request => (none, EtcdServer.processRaftEntries kvstore request.entry.toList)

/-- Requests executed one after the other. -/
def serially (kvstore : KVStore) : List Request → List (Option Bool) × KVStore
  | [] => ([], kvstore)
  | request :: rest =>
    let first := request.executed kvstore
    let others := serially first.2 rest
    (first.1 :: others.1, others.2)

theorem serially_concat (kvstore : KVStore) (requests : List Request) (request : Request) :
    serially kvstore (requests ++ [request]) =
      ((serially kvstore requests).1 ++ [(request.executed (serially kvstore requests).2).1],
        (request.executed (serially kvstore requests).2).2) := by
  induction requests generalizing kvstore with
  | nil => rfl
  | cons first rest ih => simp only [List.cons_append, serially, ih]

end Request

namespace Client

/-- A request that has proposed all its entries, with the flag that a transaction reports. -/
def finished (client : Client) : Option (Request × Option Bool) :=
  match client.stage with
  | .waiting _ | .succeeded _ => some (client.request, none)
  | .reported conditionsMet _ => some (client.request, some conditionsMet)
  | _ => none

/-- A transaction that has made a comparison or chosen its branch, and has not been answered. -/
def begun (client : Client) : Bool :=
  match client.request, client.stage with
  | .txn compares _ _, .comparing rest _ => rest ≠ compares
  | _, .executing _ _ _ => true
  | _, _ => false

def answered (client : Client) : Bool :=
  match client.stage with
  | .refused | .succeeded _ | .reported _ _ => true
  | _ => false

/-- The transaction has done its comparisons on `kvstore`, and its operations since have led to
`settled`. -/
def Progress (kvstore settled : KVStore) (client : Client) : Prop :=
  ∃ compares success failure, client.request = .txn compares success failure ∧
    match client.stage with
    | .comparing rest met => settled = kvstore ∧ ∃ done, compares = done ++ rest ∧
        met = done.all fun c => c.holds (kvstore.get c.key 0)
    | .executing rest met _ => (met = compares.all fun c => c.holds (kvstore.get c.key 0)) ∧
        ∃ done, (if met then success else failure) = done ++ rest ∧
          settled = EtcdServer.processRaftEntries kvstore (done.filterMap TxnOp.entry)
    | _ => False

/-- A transaction that has not begun stands at its first comparison. -/
def Formed (client : Client) : Prop :=
  match client.stage with
  | .comparing rest met => ∃ compares success failure,
      client.request = .txn compares success failure ∧ (rest = compares → met = true)
  | _ => True

end Client

namespace KVServer

/-- All requests have been answered, and everything in the log has been applied. -/
def Quiet (s : KVServer) : Prop := s.clients.all Client.answered = true ∧ s.backlog = []

instance (s : KVServer) : Decidable s.Quiet := inferInstanceAs (Decidable (_ ∧ _))

/-- The answers and the store are those of the requests in some serial order. -/
def Serializable (kvstore : KVStore) (s : KVServer) : Prop :=
  ∃ order : List (Request × Option Bool), order.Perm (s.clients.filterMap Client.finished) ∧
    Request.serially kvstore (order.map Prod.fst) = (order.map Prod.snd, s.kvstore)

/-- A transaction begins when no other one is under way, it makes its comparisons when nothing is
left to be applied, and while one is under way nobody else proposes. -/
def TakesTurns (s : KVServer) : Event → Bool
  | .request (.put _ _ _) | .request (.delete _) => !s.clients.any Client.begun
  | .compare i => !(s.clients.eraseIdx i).any Client.begun &&
      match s.clients[i]?.map Client.stage with
      | some (.comparing (_ :: _) _) => s.backlog = []
      | _ => true
  | _ => true

/-- What the requests under way have done on top of the finished ones: nothing, or one of them has
begun. -/
def Upon (kvstore settled : KVStore) (clients : List Client) : Prop :=
  clients.any Client.begun = false ∧ settled = kvstore ∨
  ∃ i client, clients[i]? = some client ∧ client.begun = true ∧
    client.Progress kvstore settled ∧ (clients.eraseIdx i).any Client.begun = false

/-- The finished requests have been executed one after the other. -/
structure Serial (kvstore₀ : KVStore) (s : KVServer) : Prop where
  leading : Leading s
  formed : ∀ client ∈ s.clients, client.Formed
  order : ∃ (order : List (Request × Option Bool)) (kvstore : KVStore),
    order.Perm (s.clients.filterMap Client.finished) ∧
    Request.serially kvstore₀ (order.map Prod.fst) = (order.map Prod.snd, kvstore) ∧
    Upon kvstore s.settled s.clients

variable {s s' : KVServer} {kvstore₀ : KVStore}

private theorem split_set {i : Nat} {client : Client} (hi : s.clients[i]? = some client)
    (other : Client) : ∃ before after, s.clients = before ++ client :: after ∧
      s.clients.set i other = before ++ other :: after ∧
      s.clients.eraseIdx i = before ++ after := by
  obtain ⟨hlt, rfl⟩ := List.getElem?_eq_some_iff.mp hi
  refine ⟨s.clients.take i, s.clients.drop (i + 1), ?_, ?_, ?_⟩
  · rw [List.getElem_cons_drop, List.take_append_drop]
  · exact List.set_eq_take_append_cons_drop.trans (if_pos hlt)
  · exact List.eraseIdx_eq_take_drop_succ _ _

private theorem upon_of_begun {kvstore settled : KVStore} {clients : List Client}
    (h : Upon kvstore settled clients) {i : Nat} {client : Client}
    (hi : clients[i]? = some client) (hbegun : client.begun = true) :
    client.Progress kvstore settled ∧ (clients.eraseIdx i).any Client.begun = false := by
  rcases h with ⟨hnone, _⟩ | ⟨j, other, hj, _, hprogress, hothers⟩
  · have := List.any_eq_false.mp hnone client (List.mem_of_getElem? hi)
    exact absurd hbegun this
  · by_cases heq : i = j
    · subst heq
      obtain rfl := Option.some.inj (hi.symm.trans hj)
      exact ⟨hprogress, hothers⟩
    · have hmem : client ∈ clients.eraseIdx j :=
        List.mem_eraseIdx_iff_getElem?.mpr ⟨i, heq, hi⟩
      exact absurd hbegun (List.any_eq_false.mp hothers client hmem)

private theorem Serial.congr (h : Serial kvstore₀ s) (hleading : Leading s')
    (hclients : s'.clients = s.clients) (hsettled : s'.settled = s.settled) :
    Serial kvstore₀ s' := by
  obtain ⟨order, kvstore, hperm, hserial, hupon⟩ := h.order
  refine ⟨hleading, hclients ▸ h.formed, order, kvstore, hclients ▸ hperm, hserial, ?_⟩
  rwa [hclients, hsettled]

private theorem Serial.proceed (h : Serial kvstore₀ s) {i : Nat} {client : Client} (stage : Stage)
    (hleading : Leading s') (hi : s.clients[i]? = some client)
    (hclients : s'.clients = s.clients.set i { client with stage })
    (hunfinished : client.finished = none) (hothers : (s.clients.eraseIdx i).any Client.begun = false)
    (hformed : Client.Formed { client with stage })
    (hnext : Client.finished { client with stage } = none)
    (hbegun : Client.begun { client with stage } = true)
    (hprogress : ∀ kvstore, Upon kvstore s.settled s.clients →
      Client.Progress kvstore s'.settled { client with stage }) : Serial kvstore₀ s' := by
  obtain ⟨order, kvstore, hperm, hserial, hupon⟩ := h.order
  obtain ⟨before, after, hsplit, hset, herase⟩ := split_set hi { client with stage }
  refine ⟨hleading, fun other hother => ?_, order, kvstore, ?_, hserial, .inr ?_⟩
  · rw [hclients] at hother
    rcases List.mem_or_eq_of_mem_set hother with hother | rfl
    · exact h.formed other hother
    · exact hformed
  · rw [hclients, hset]
    rw [hsplit] at hperm
    simpa [List.filterMap_append, hunfinished, hnext] using hperm
  · have hlt := (List.getElem?_eq_some_iff.mp hi).1
    refine ⟨i, { client with stage }, ?_, hbegun, hprogress kvstore hupon, ?_⟩
    · rw [hclients, List.getElem?_set_self hlt]
    · rwa [hclients, List.eraseIdx_set_eq]

private theorem Serial.compare (h : Serial kvstore₀ s) {i : Nat}
    (hok : s.TakesTurns (.compare i) = true) (hs : s.compare i = some s') :
    Serial kvstore₀ s' := by
  obtain ⟨client, hi, compares, success, failure, met, hrequest, hcases⟩ := compare_cases hs
  simp only [TakesTurns, hi, Option.map_some, Bool.and_eq_true, Bool.not_eq_true'] at hok
  obtain ⟨hothers, hcurrent⟩ := hok
  have hformed := h.formed client (List.mem_of_getElem? hi)
  -- whether it begins or goes on, the comparisons so far were made on the settled store
  have hdone {rest : List Compare} (hstage : client.stage = .comparing rest met)
      {kvstore : KVStore} (hupon : Upon kvstore s.settled s.clients) :
      s.settled = kvstore ∧ ∃ done, compares = done ++ rest ∧
        met = done.all fun c => c.holds (kvstore.get c.key 0) := by
    by_cases hbegun : client.begun = true
    · obtain ⟨⟨_, _, _, hrequest', hprogress⟩, _⟩ := upon_of_begun hupon hi hbegun
      obtain ⟨rfl, rfl, rfl⟩ := Request.txn.inj (hrequest.symm.trans hrequest')
      rwa [hstage] at hprogress
    · have hrest : rest = compares := by
        simpa [Client.begun, hrequest, hstage] using hbegun
      rw [Client.Formed, hstage] at hformed
      obtain ⟨_, _, _, hrequest', hmet⟩ := hformed
      obtain ⟨rfl, rfl, rfl⟩ := Request.txn.inj (hrequest.symm.trans hrequest')
      refine ⟨?_, [], by rw [hrest, List.nil_append], hmet hrest⟩
      rcases hupon with ⟨_, hsettled⟩ | ⟨j, other, hj, hother, hprogress, hothers'⟩
      · exact hsettled
      · by_cases heq : i = j
        · subst heq
          obtain rfl := Option.some.inj (hi.symm.trans hj)
          exact absurd hother hbegun
        · have hmem : other ∈ s.clients.eraseIdx i :=
            List.mem_eraseIdx_iff_getElem?.mpr ⟨j, Ne.symm heq, hj⟩
          exact absurd hother (List.any_eq_false.mp hothers other hmem)
  rcases hcases with ⟨hstage, rfl⟩ | ⟨c, rest, hstage, rfl⟩
  · refine h.proceed (.executing _ met []) (h.leading.congr rfl) hi rfl
      (by simp [Client.finished, hstage]) hothers trivial rfl (by simp [Client.begun, hrequest])
      fun kvstore hupon => ?_
    obtain ⟨hsettled, done, hcompares, hmet⟩ := hdone hstage hupon
    rw [List.append_nil] at hcompares
    exact ⟨compares, success, failure, hrequest, hcompares ▸ hmet, [], rfl, hsettled⟩
  · have hkvstore : s.kvstore = s.settled := by
      rw [hstage] at hcurrent
      rw [settled, of_decide_eq_true hcurrent]
      rfl
    have hshorter : ∀ {kvstore}, Upon kvstore s.settled s.clients → rest ≠ compares := by
      intro kvstore hupon heq
      obtain ⟨_, done, hcompares, _⟩ := hdone hstage hupon
      have := congrArg List.length (hcompares.symm.trans heq.symm)
      simp only [List.length_append, List.length_cons] at this
      omega
    obtain ⟨_, _, _, _, hupon⟩ := h.order
    refine h.proceed (.comparing rest _) (h.leading.congr rfl) hi rfl
      (by simp [Client.finished, hstage]) hothers
      ⟨compares, success, failure, hrequest, fun heq => absurd heq (hshorter hupon)⟩ rfl
      (by simp [Client.begun, hrequest, hshorter hupon]) fun kvstore hupon => ?_
    obtain ⟨hsettled, done, hcompares, hmet⟩ := hdone hstage hupon
    refine ⟨compares, success, failure, hrequest, hsettled, done ++ [c], ?_, ?_⟩
    · rw [hcompares, List.append_assoc]
      rfl
    · rw [List.all_append, ← hmet, hkvstore, hsettled]
      simp

private theorem processEntry_numbered (kvstore : KVStore) (entry : RaftEntry) (term index : Nat) :
    EtcdServer.processEntry kvstore { entry with term, index } =
      EtcdServer.processEntry kvstore entry := rfl

private theorem settled_propose (h : Leading s) {entry : RaftEntry} {accepted : Option RaftEntry}
    (hs : s.propose entry = some (accepted, s')) : ∃ e, accepted = some e ∧ Leading s' ∧
      s'.settled = EtcdServer.processEntry s.settled entry ∧ s'.clients = s.clients := by
  rcases propose_cases hs with ⟨hnot, _⟩ | ⟨_, _, e, he, rfl, rfl⟩
  · exact absurd h.leads hnot
  · have hindex : e.index = s.node.log.lastIndex + 1 := by rw [he]
    refine ⟨e, rfl, h.record hindex, ?_, rfl⟩
    have hentry : EtcdServer.processEntry s.settled e = EtcdServer.processEntry s.settled entry := by
      rw [he, processEntry_numbered]
    rw [settled, h.backlog_record hindex, EtcdServer.processRaftEntries, List.foldl_append,
      ← hentry]
    rfl

private theorem Serial.execute (h : Serial kvstore₀ s) {i : Nat} (hs : s.execute i = some s') :
    Serial kvstore₀ s' := by
  obtain ⟨client, hi, met, results, hcases⟩ := execute_cases hs
  have hbegun {rest : List TxnOp} (hstage : client.stage = .executing rest met results) :
      client.begun = true := by
    simp [Client.begun, hstage]
  have hprogress {rest : List TxnOp} (hstage : client.stage = .executing rest met results)
      {kvstore : KVStore} (hupon : Upon kvstore s.settled s.clients) :
      ∃ compares success failure, client.request = .txn compares success failure ∧
        (met = compares.all fun c => c.holds (kvstore.get c.key 0)) ∧
        ∃ done, (if met then success else failure) = done ++ rest ∧
          s.settled = EtcdServer.processRaftEntries kvstore (done.filterMap TxnOp.entry) := by
    obtain ⟨⟨_, _, _, hrequest, hprogress⟩, _⟩ := upon_of_begun hupon hi (hbegun hstage)
    rw [hstage] at hprogress
    exact ⟨_, _, _, hrequest, hprogress⟩
  rcases hcases with ⟨hstage, rfl⟩ | ⟨op, rest, hstage, hcases⟩
  · -- the answer puts the transaction behind the finished requests
    obtain ⟨order, kvstore, hperm, hserial, hupon⟩ := h.order
    obtain ⟨compares, success, failure, hrequest, hmet, done, hbranch, hsettled⟩ :=
      hprogress hstage hupon
    obtain ⟨_, hothers⟩ := upon_of_begun hupon hi (hbegun hstage)
    obtain ⟨before, after, hsplit, hset, herase⟩ :=
      split_set hi { client with stage := .reported met results }
    rw [List.append_nil] at hbranch
    have hexecuted : client.request.executed kvstore = (some met, s.settled) := by
      rw [hrequest, hsettled, ← hbranch, hmet]
      rfl
    refine ⟨h.leading.congr rfl, fun other hother => ?_, order ++ [(client.request, some met)],
      s.settled, ?_, ?_, .inl ⟨?_, rfl⟩⟩
    · rcases List.mem_or_eq_of_mem_set hother with hother | rfl
      · exact h.formed other hother
      · trivial
    · simp only [setStage, hset, List.filterMap_append, List.filterMap_cons, Client.finished]
      rw [hsplit] at hperm
      simp only [List.filterMap_append, List.filterMap_cons, Client.finished, hstage] at hperm
      exact (List.perm_append_singleton _ _).trans
        ((hperm.cons _).trans List.perm_middle.symm)
    · rw [List.map_append, List.map_append, List.map_singleton, Request.serially_concat, hserial,
        hexecuted, List.map_singleton]
    · rw [herase, List.any_append] at hothers
      simp only [setStage, hset, List.any_append, List.any_cons]
      simpa [Client.begun, hrequest] using hothers
  · obtain ⟨_, _, _, _, hupon₀⟩ := h.order
    obtain ⟨_, hothers⟩ := upon_of_begun hupon₀ hi (hbegun hstage)
    rcases hcases with ⟨hentry, rfl⟩ | ⟨entry, accepted, t, hentry, hpropose, rfl⟩
    · refine h.proceed (.executing rest met results) (h.leading.congr rfl) hi rfl
        (by simp [Client.finished, hstage]) hothers trivial rfl (by simp [Client.begun])
        fun kvstore hupon => ?_
      obtain ⟨compares, success, failure, hrequest, hmet, done, hbranch, hsettled⟩ :=
        hprogress hstage hupon
      refine ⟨compares, success, failure, hrequest, hmet, done ++ [op], by simp [hbranch], ?_⟩
      have hlast : [op].filterMap TxnOp.entry = [] := by simp [hentry]
      rw [List.filterMap_append, hlast, List.append_nil]
      exact hsettled
    · obtain ⟨e, rfl, hleading, hsettled', hclients⟩ := settled_propose h.leading hpropose
      refine h.proceed (.executing rest met (results ++ [some e])) (hleading.congr rfl) hi
        (by rw [setStage, hclients]) (by simp [Client.finished, hstage])
        hothers trivial rfl (by simp [Client.begun]) fun kvstore hupon => ?_
      obtain ⟨compares, success, failure, hrequest, hmet, done, hbranch, hsettled⟩ :=
        hprogress hstage hupon
      refine ⟨compares, success, failure, hrequest, hmet, done ++ [op], by simp [hbranch], ?_⟩
      have hlast : [op].filterMap TxnOp.entry = [entry] := by simp [hentry]
      rw [List.filterMap_append, hlast, EtcdServer.processRaftEntries, List.foldl_append]
      exact hsettled'.trans (congrArg (EtcdServer.processEntry · entry) hsettled)

private theorem Serial.wake (h : Serial kvstore₀ s) {i : Nat} (hs : s.wake i = some s') :
    Serial kvstore₀ s' := by
  obtain ⟨client, entry, hi, hstage, rfl⟩ := wake_cases hs
  obtain ⟨order, kvstore, hperm, hserial, hupon⟩ := h.order
  obtain ⟨before, after, hsplit, hset, herase⟩ :=
    split_set hi { client with stage := .succeeded entry }
  have hbegun : Client.begun { client with stage := .succeeded entry } = client.begun := by
    cases hrequest : client.request <;> simp [Client.begun, hrequest, hstage]
  refine ⟨h.leading.congr rfl, fun other hother => ?_, order, kvstore, ?_, hserial, ?_⟩
  · rcases List.mem_or_eq_of_mem_set hother with hother | rfl
    · exact h.formed other hother
    · trivial
  · rw [hsplit] at hperm
    simpa [setStage, hset, List.filterMap_append, List.filterMap_cons, Client.finished, hstage]
      using hperm
  · rcases hupon with ⟨hnone, hsettled⟩ | ⟨j, other, hj, hother, hprogress, hothers⟩
    · refine .inl ⟨?_, hsettled⟩
      rw [hsplit] at hnone
      simpa [setStage, hset, List.any_append, List.any_cons, hbegun] using hnone
    · have hne : i ≠ j := by
        rintro rfl
        obtain rfl := Option.some.inj (hi.symm.trans hj)
        simp [Client.begun, hstage] at hother
      refine .inr ⟨j, other, ?_, hother, hprogress, ?_⟩
      · simp only [setStage]
        rwa [List.getElem?_set_ne hne]
      · refine List.any_eq_false.mpr fun x hx => ?_
        obtain ⟨k, hk, hx⟩ := List.mem_eraseIdx_iff_getElem?.mp hx
        by_cases hik : i = k
        · subst hik
          simp only [setStage] at hx
          rw [List.getElem?_set_self (List.getElem?_eq_some_iff.mp hi).1] at hx
          obtain rfl := Option.some.inj hx
          simp [Client.begun]
        · simp only [setStage] at hx
          rw [List.getElem?_set_ne hik] at hx
          exact List.any_eq_false.mp hothers x (List.mem_eraseIdx_iff_getElem?.mpr ⟨k, hk, hx⟩)

private theorem Serial.request (h : Serial kvstore₀ s) {request : Request}
    (hok : s.TakesTurns (.request request) = true)
    (hs : s.step (.request request) = some s') : Serial kvstore₀ s' := by
  have hformed {client : Client} (hc : client.Formed) :
      ∀ other ∈ s.clients ++ [client], other.Formed := by
    intro other hother
    rcases List.mem_append.mp hother with hother | hother
    · exact h.formed other hother
    · obtain rfl := List.mem_singleton.mp hother
      exact hc
  obtain ⟨order, kvstore, hperm, hserial, hupon⟩ := h.order
  rcases step_request hs with ⟨entry, hentry, hsubmit⟩ | ⟨compares, success, failure, rfl, rfl⟩
  · have hnone : s.clients.any Client.begun = false := by
      cases request with
      | put => simpa [TakesTurns] using hok
      | delete => simpa [TakesTurns] using hok
      | txn => cases hentry
    have hsettled : s.settled = kvstore := by
      rcases hupon with ⟨_, hsettled⟩ | ⟨j, other, hj, hother, _⟩
      · exact hsettled
      · exact absurd hother (List.any_eq_false.mp hnone other (List.mem_of_getElem? hj))
    obtain ⟨accepted, t, hpropose, rfl⟩ := submit_cases hsubmit
    obtain ⟨e, rfl, hleading, hsettled', hclients⟩ := settled_propose h.leading hpropose
    have hexecuted : request.executed kvstore = (none, t.settled) := by
      rw [hsettled', hsettled]
      cases request with
      | put key value leaseId => cases hentry; rfl
      | delete key => cases hentry; rfl
      | txn => cases hentry
    refine ⟨hleading.congr rfl, ?_, order ++ [(request, none)], t.settled, ?_, ?_,
      .inl ⟨?_, rfl⟩⟩
    · rw [hclients]
      exact hformed trivial
    · rw [hclients, List.filterMap_append]
      exact hperm.append_right _
    · rw [List.map_append, List.map_append, List.map_singleton, Request.serially_concat, hserial,
        hexecuted, List.map_singleton]
    · rw [hclients, List.any_append, hnone]
      cases request <;> rfl
  · have hidle : Client.begun
        ⟨.txn compares success failure, .comparing compares true⟩ = false := by
      simp [Client.begun]
    refine ⟨h.leading.congr rfl, hformed ⟨compares, success, failure, rfl, fun _ => rfl⟩, order,
      kvstore, ?_, hserial, ?_⟩
    · rw [List.filterMap_append]
      simpa [Client.finished, List.filterMap_cons] using hperm
    · rcases hupon with ⟨hnone, hsettled⟩ | ⟨j, other, hj, hother, hprogress, hothers⟩
      · refine .inl ⟨?_, hsettled⟩
        rw [List.any_append, hnone]
        simp [hidle]
      · have hlt := (List.getElem?_eq_some_iff.mp hj).1
        refine .inr ⟨j, other, ?_, hother, hprogress, ?_⟩
        · rwa [List.getElem?_append_left hlt]
        · rw [List.eraseIdx_append_of_lt_length hlt, List.any_append, hothers]
          simp [hidle]

private theorem Serial.step (h : Serial kvstore₀ s) {event : Event} (hserving : s.Serving event)
    (hok : s.TakesTurns event = true) (hs : s.step event = some s') : Serial kvstore₀ s' := by
  cases event with
  | call c =>
    obtain ⟨hleading, hbacklog, hkvstore, hclients⟩ := h.leading.call hserving hs
    exact h.congr hleading hclients (by rw [settled, settled, hbacklog, hkvstore])
  | enterReady =>
    obtain ⟨hsettled, hnode, hclients⟩ := settled_enterReady hs
    exact h.congr (h.leading.congr hnode) hclients hsettled
  | readLastIndex =>
    rcases step_readLastIndex hs with rfl | ⟨_, rfl⟩
    · exact h
    · exact h.congr (h.leading.congr rfl) rfl rfl
  | enterSnapshot =>
    obtain ⟨hsettled, hnode, hclients⟩ := settled_enterSnapshot hs
    exact h.congr (h.leading.congr hnode) hclients hsettled
  | act =>
    obtain ⟨hsettled, hnode, hclients⟩ := settled_act hs
    exact h.congr (h.leading.congr hnode) hclients hsettled
  | request request => exact h.request hok hs
  | compare i => exact h.compare hok hs
  | execute i => exact h.execute hs
  | wake i => exact h.wake hs
  | restart closed => exact absurd hserving id

/-- When all clients of a leader have their answers and the log has been applied, the answers and
the store are those of the requests in some serial order. -/
theorem transactions_serializable {s₀ : KVServer} (hleads : Leading s₀) (hnew : s₀.clients = [])
    (hrun : Run step (fun s event => s.Serving event ∧ s.TakesTurns event = true) s₀ s)
    (hquiet : s.Quiet) : Serializable s₀.settled s := by
  have hstart : Serial s₀.settled s₀ := by
    refine ⟨hleads, fun client hclient => ?_, [], s₀.settled, ?_, rfl, .inl ⟨?_, rfl⟩⟩
    · rw [hnew] at hclient
      cases hclient
    · rw [hnew]
      exact .nil
    · rw [hnew]
      rfl
  have h := hrun.invariant (P := Serial s₀.settled)
    (fun h hok hs => h.step hok.1 hok.2 hs) hstart
  obtain ⟨order, kvstore, hperm, hserial, hupon⟩ := h.order
  have hkvstore : s.kvstore = s.settled := by
    rw [settled, hquiet.2]
    rfl
  refine ⟨order, hperm, hserial.trans ?_⟩
  rcases hupon with ⟨_, hsettled⟩ | ⟨j, other, hj, hother, _⟩
  · rw [hkvstore, hsettled]
  · have hanswered := List.all_eq_true.mp hquiet.1 other (List.mem_of_getElem? hj)
    unfold Client.answered at hanswered
    unfold Client.begun at hother
    split at hanswered <;> simp_all

def elected : KVServer :=
  { fresh {} with node := (RaftNode.ofConfig {}).becomeCandidateLocked.becomeLeaderLocked }

theorem leading_elected : Leading elected where
  leads := rfl
  term := Nat.one_pos
  based := ⟨0, ⟨RaftLog.aligned_empty 1, Nat.one_pos, le_rfl, fun _ => rfl⟩, le_rfl⟩
  ready := .inr rfl
  committed := le_rfl
  applied := le_rfl

def compareAndSet (old value : UInt8) : Request :=
  .txn [{ target := .value, key := [107], op := .equal, value := [old] }]
    [{ type := .put, key := [107], value := [value] }] []

/-- What is in the log gets committed and goes through the handler. -/
def applyLog (entries : Nat) : List Event :=
  [.call .advanceCommitIndex, .call .applyCommittedEntries, .enterReady] ++
    List.replicate (entries + 3) .act

/-- Two transactions one after the other, the first of which changes what the second one expects. -/
def oneByOne : List Event :=
  [.request (.put [107] [97] 0)] ++ applyLog 1 ++
    [.wake 0, .request (compareAndSet 97 98), .request (compareAndSet 97 99),
      .compare 1, .compare 1, .execute 1, .execute 1] ++ applyLog 1 ++
    [.compare 2, .compare 2, .execute 2]

theorem transactions_serializable_oneByOne :
    ∃ s, Run step (fun s event => s.Serving event ∧ s.TakesTurns event = true) elected s ∧
      s.clients.map Client.finished = [some (.put [107] [97] 0, none),
        some (compareAndSet 97 98, some true), some (compareAndSet 97 99, some false)] ∧
      Serializable elected.settled s := by
  obtain ⟨s, hrun, hfinished, hquiet⟩ := reachable_of_execute step
    (fun s event => s.Serving event ∧ s.TakesTurns event = true) elected oneByOne
    (P := fun s => s.clients.map Client.finished = [some (.put [107] [97] 0, none),
        some (compareAndSet 97 98, some true), some (compareAndSet 97 99, some false)] ∧
      s.Quiet) (by decide)
  exact ⟨s, hrun, hfinished, transactions_serializable leading_elected rfl hrun hquiet⟩

/-- Both transactions compare before either of them proposes. -/
def sideBySide : List Event :=
  [.request (.put [107] [97] 0)] ++ applyLog 1 ++
    [.wake 0, .request (compareAndSet 97 98), .request (compareAndSet 97 99),
      .compare 1, .compare 2, .compare 1, .compare 2,
      .execute 1, .execute 2, .execute 1, .execute 2] ++ applyLog 2

/-- Both succeed, which they do in no serial order. -/
theorem both_succeed :
    Run step (fun _ _ => True) (fresh {}) elected ∧ Leading elected ∧ elected.clients = [] ∧
    ∃ s, Run step (fun s event => s.Serving event) elected s ∧ s.Quiet ∧
      s.clients.map Client.finished = [some (.put [107] [97] 0, none),
        some (compareAndSet 97 98, some true), some (compareAndSet 97 99, some true)] ∧
      ¬ Serializable elected.settled s := by
  have hstart : Run step (fun _ _ => True) (fresh {}) elected :=
    (Run.start.next (a := .call .becomeCandidate) trivial rfl).next
      (a := .call .becomeLeader) trivial rfl
  obtain ⟨s, hrun, hfinished, hquiet⟩ := reachable_of_execute step
    (fun s event => s.Serving event) elected sideBySide
    (P := fun s => s.clients.map Client.finished = [some (.put [107] [97] 0, none),
        some (compareAndSet 97 98, some true), some (compareAndSet 97 99, some true)] ∧
      s.Quiet) (by decide)
  refine ⟨hstart, leading_elected, rfl, s, hrun, hquiet, hfinished, ?_⟩
  rintro ⟨order, hperm, hserial⟩
  have horder : order ∈ [((.put [107] [97] 0 : Request), none),
      (compareAndSet 97 98, some true), (compareAndSet 97 99, some true)].permutations' := by
    refine List.mem_permutations'.mpr (hperm.trans (List.Perm.of_eq ?_))
    have hmap : s.clients.filterMap Client.finished =
        (s.clients.map Client.finished).filterMap id := by
      rw [List.filterMap_map]
      rfl
    rw [hmap, hfinished]
    rfl
  have hnone : ∀ order ∈ [((.put [107] [97] 0 : Request), none),
      (compareAndSet 97 98, some true), (compareAndSet 97 99, some true)].permutations',
      (Request.serially elected.settled (order.map Prod.fst)).1 ≠ order.map Prod.snd := by
    decide
  exact hnone order horder (congrArg Prod.fst hserial)

end KVServer
end MyEtcd
