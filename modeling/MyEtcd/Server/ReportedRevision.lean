import MyEtcd.Server.Acknowledgement

/-! The revision in the answer to a put, and the revision that the put gives to its key.
The answer has the index of the entry, of which every entry takes one; the store has a counter of its
own, from which only writes take a revision and which starts over with the process. -/
namespace MyEtcd
open Library

def KVStore.modRevision (s : KVStore) (key : Bytes) : Option Int :=
  (s.get key 0).map KeyValue.modRevision

/-- A process, with the revision that its store began with and the entries that it has applied, each
with the revision that its key has got then. -/
structure NumberedServer where
  server : KVServer
  first : Int
  applications : List (RaftEntry × Option Int) := []

namespace NumberedServer

def begin (server : KVServer) : NumberedServer where
  server
  first := server.kvstore.currentRevision

def step (s : NumberedServer) (event : KVServer.Event) : Option NumberedServer :=
  (s.server.step event).map fun server =>
    match event with
    | .restart _ => begin server
    | event => { s with
      server
      applications := s.applications ++ (s.server.processing event).toList.map fun entry =>
        (entry, server.kvstore.modRevision entry.key) }

def writes (applications : List (RaftEntry × Option Int)) : Nat :=
  (applications.filter fun a => EtcdServer.Writes a.1).length

/-- The entry of a put that has been answered has been applied after `j` others. -/
def AnsweredAt (s : NumberedServer) (entry : RaftEntry) (j : Nat) : Prop :=
  (∃ client ∈ s.server.clients, client.stage = .succeeded entry) ∧ entry.type = .put ∧
    s.applications[j]?.map Prod.fst = some entry

/-- Answers to puts report the revisions that the keys have got. -/
def Reports (s : NumberedServer) : Prop :=
  ∀ entry j, s.AnsweredAt entry j → s.applications[j]?.bind Prod.snd = some (entry.index : Int)

/-- The index of every answered put is the revision that the store began with and as many more as
the process had applied writes. -/
def InStep (s : NumberedServer) : Prop :=
  ∀ entry j, s.AnsweredAt entry j → (entry.index : Int) = s.first + writes (s.applications.take j)

/-- The log hands out its entries one after the other. -/
def InOrder (s : NumberedServer) (base : Nat) : Prop :=
  s.applications.map (fun a => a.1.index) = List.range' (base + 1) s.applications.length

/-- Before every answered put, the entries that are no writes make up for what the store began with
beyond the first index. -/
def MadeUp (s : NumberedServer) (base : Nat) : Prop :=
  ∀ entry j, s.AnsweredAt entry j →
    (base + 1 + ((s.applications.take j).filter fun a => ¬ EtcdServer.Writes a.1).length : Int) =
      s.first

/-- The store counts writes, and every put has got the number of writes before it. -/
structure Counted (s : NumberedServer) : Prop where
  counter : s.server.kvstore.currentRevision = s.first + writes s.applications
  numbered : ∀ (j : Nat) (a : RaftEntry × Option Int), s.applications[j]? = some a →
    a.1.type = .put → a.2 = some (s.first + writes (s.applications.take j))

variable {s s' : NumberedServer}

theorem writes_append (as bs : List (RaftEntry × Option Int)) :
    writes (as ++ bs) = writes as + writes bs := by
  rw [writes, List.filter_append, List.length_append]
  rfl

/-- A put gives its key the next revision. -/
theorem modRevision_processEntry (kvstore : KVStore) {entry : RaftEntry} (h : entry.type = .put) :
    (EtcdServer.processEntry kvstore entry).modRevision entry.key =
      some kvstore.currentRevision := by
  have hget (t : KVStore) (key : Bytes) : t.modRevision key =
      ((t.mvcc.get key 0).map KeyValue.content).map Content.modRevision := by
    rw [KVStore.modRevision, KVStore.get, Option.map_map, Option.map_map]
    rfl
  have hmvcc : (EtcdServer.processEntry kvstore entry).mvcc = kvstore.mvcc.allocateRevision.2.write
      (.put entry.key kvstore.mvcc.currentRev entry.value entry.leaseId) := by
    rw [EtcdServer.processEntry, h]
    rfl
  have hkey : (Write.put entry.key kvstore.mvcc.currentRev entry.value entry.leaseId).key =
      entry.key := rfl
  rw [hget, hmvcc, MVCC.content_get_write, if_pos hkey]
  rfl

theorem counted_begin (server : KVServer) : Counted (begin server) where
  counter := (Int.add_zero _).symm
  numbered := nofun

theorem writes_singleton (a : RaftEntry × Option Int) :
    (writes [a] : Int) = if EtcdServer.Writes a.1 then 1 else 0 := by
  rw [writes, List.filter_cons]
  by_cases h : EtcdServer.Writes a.1 <;> simp [h]

private theorem Counted.apply (h : Counted s) {server : KVServer} {entry : RaftEntry}
    (hstore : server.kvstore = EtcdServer.processEntry s.server.kvstore entry) :
    Counted { s with
      server
      applications := s.applications ++ [(entry, server.kvstore.modRevision entry.key)] } := by
  refine ⟨?_, fun j a ha hput => ?_⟩
  · rw [hstore, EtcdServer.currentRevision_processEntry, h.counter, writes_append]
    push_cast
    rw [writes_singleton, Int.add_assoc]
  · dsimp only at ha ⊢
    rcases Nat.lt_or_ge j s.applications.length with hold | hnew
    · rw [List.getElem?_append_left hold] at ha
      rw [List.take_append_of_le_length (Nat.le_of_lt hold)]
      exact h.numbered j a ha hput
    · rw [List.getElem?_append_right hnew, List.getElem?_singleton] at ha
      obtain ⟨hj, ha⟩ := Option.ite_none_right_eq_some.mp ha
      obtain rfl := Option.some.inj ha
      have hlength : j = s.applications.length := by omega
      rw [hlength, List.take_left, ← h.counter, hstore]
      exact modRevision_processEntry _ hput

theorem Counted.step (h : Counted s) {event : KVServer.Event} (hs : s.step event = some s') :
    Counted s' := by
  obtain ⟨server, hserver, rfl⟩ := Option.map_eq_some_iff.mp hs
  by_cases hrestart : ∃ closed, event = .restart closed
  · obtain ⟨closed, rfl⟩ := hrestart
    exact counted_begin server
  · have hrunning : ∀ closed, event ≠ .restart closed := fun closed heq => hrestart ⟨closed, heq⟩
    have hkvstore := KVServer.kvstore_step hrunning hserver
    have hnext : Counted { s with
        server
        applications := s.applications ++ (s.server.processing event).toList.map fun entry =>
          (entry, server.kvstore.modRevision entry.key) } := by
      cases hprocessing : s.server.processing event with
      | none =>
        rw [hprocessing] at hkvstore
        have hstore : server.kvstore = s.server.kvstore := hkvstore
        refine ⟨?_, ?_⟩
        · rw [hstore]
          simpa using h.counter
        · simpa using h.numbered
      | some entry =>
        rw [hprocessing] at hkvstore
        exact h.apply hkvstore
    cases event with
    | restart closed => exact absurd rfl (hrunning closed)
    | _ => exact hnext

theorem Counted.reports_iff (h : Counted s) : s.Reports ↔ s.InStep := by
  have hsame (entry : RaftEntry) (j : Nat) (hanswered : s.AnsweredAt entry j) :
      s.applications[j]?.bind Prod.snd = some (entry.index : Int) ↔
        (entry.index : Int) = s.first + writes (s.applications.take j) := by
    obtain ⟨-, hput, happlied⟩ := hanswered
    obtain ⟨a, ha, rfl⟩ := Option.map_eq_some_iff.mp happlied
    rw [ha, Option.bind_some, h.numbered j a ha hput, Option.some_inj]
    exact eq_comm
  exact forall₂_congr fun entry j => forall_congr' fun hanswered => hsame entry j hanswered

theorem inStep_iff_madeUp {base : Nat} (h : s.InOrder base) : s.InStep ↔ s.MadeUp base := by
  refine forall₂_congr fun entry j => forall_congr' fun hanswered => ?_
  obtain ⟨-, -, happlied⟩ := hanswered
  obtain ⟨a, ha, rfl⟩ := Option.map_eq_some_iff.mp happlied
  have hj : j < s.applications.length := (List.getElem?_eq_some_iff.mp ha).1
  have hindex : a.1.index = base + 1 + j := by
    have hget := congrArg (fun l => l[j]?) h
    simp only [List.getElem?_map, ha, List.getElem?_range' hj, Option.map_some] at hget
    have := Option.some.inj hget
    omega
  have hcount : writes (s.applications.take j) +
      ((s.applications.take j).filter fun a => ¬ EtcdServer.Writes a.1).length = j := by
    have hsplit := List.length_eq_length_filter_add (l := s.applications.take j)
      fun a => decide (EtcdServer.Writes a.1)
    rw [List.length_take, Nat.min_eq_left (Nat.le_of_lt hj)] at hsplit
    simpa only [writes, decide_not] using hsplit.symm
  omega

/-- In every run, the answers to puts report the revisions of their keys if and only if the indices
of these puts have kept in step with the writes. In a log without gaps that depends on the entries
that are no writes. -/
theorem reported_revision_iff {server : KVServer} {s : NumberedServer}
    (h : Run step (fun _ _ => True) (begin server) s) :
    (s.Reports ↔ s.InStep) ∧ ∀ base, s.InOrder base → (s.Reports ↔ s.MadeUp base) := by
  have hcounted : Counted s := h.invariant (fun hs _ hstep => hs.step hstep) (counted_begin server)
  refine ⟨hcounted.reports_iff, fun base horder => ?_⟩
  rw [hcounted.reports_iff]
  exact inStep_iff_madeUp horder

/-- A leader alone adds a member, and a put comes after it. -/
def memberThenPut : List KVServer.Event :=
  [.call .becomeCandidate, .call .becomeLeader,
    .call (.proposeConfChange { type := .addNode, nodeId := 2 }),
    .request (.put [107] [97] 0), .call .advanceCommitIndex, .call .applyCommittedEntries,
    .enterReady, .act, .act, .act, .act, .act, .wake 0]

/-- The put is the second entry, and the first one that takes a revision. -/
theorem memberThenPut_misreported : ∃ s : NumberedServer,
    Run step (fun _ _ => True) (begin (.fresh {})) s ∧
      s.server.clients.map Client.stage =
        [.succeeded { term := 1, index := 2, key := [107], value := [97] }] ∧
      s.server.kvstore.modRevision [107] = some 1 ∧ ¬ s.Reports := by
  obtain ⟨s, hrun, hstages, happlications, hshown⟩ := reachable_of_execute step (fun _ _ => True)
    (begin (.fresh {})) memberThenPut
    (P := fun s => s.server.clients.map Client.stage =
        [.succeeded { term := 1, index := 2, key := [107], value := [97] }] ∧
      s.applications[1]? = some ({ term := 1, index := 2, key := [107], value := [97] }, some 1) ∧
      s.server.kvstore.modRevision [107] = some 1) (by decide)
  refine ⟨s, hrun, hstages, hshown, fun h => ?_⟩
  have hmem : Stage.succeeded { term := 1, index := 2, key := [107], value := [97] } ∈
      s.server.clients.map Client.stage := by simp [hstages]
  obtain ⟨client, hclient, hstage⟩ := List.mem_map.mp hmem
  have hreported := h _ 1 ⟨⟨client, hclient, hstage⟩, rfl, by rw [happlications]; rfl⟩
  rw [happlications] at hreported
  cases hreported

/-- A put on a new server, with nothing else in the log. -/
theorem reported_revision_iff_answeredPut : ∃ s : NumberedServer,
    s.server.clients.map Client.stage =
        [.succeeded { term := 1, index := 1, key := [107], value := [97] }] ∧
      s.InStep ∧ s.Reports := by
  obtain ⟨s, hrun, hstages, hfirst, happlications⟩ := reachable_of_execute step (fun _ _ => True)
    (begin (.fresh {})) KVServer.answeredPut
    (P := fun s => s.server.clients.map Client.stage =
        [.succeeded { term := 1, index := 1, key := [107], value := [97] }] ∧ s.first = 1 ∧
      s.applications = [({ term := 1, index := 1, key := [107], value := [97] }, some 1)])
    (by decide)
  have hinStep : s.InStep := by
    rintro entry j ⟨-, -, happlied⟩
    rw [happlications, List.getElem?_singleton] at happlied
    obtain ⟨a, ha, rfl⟩ := Option.map_eq_some_iff.mp happlied
    obtain ⟨rfl, ha⟩ := Option.ite_none_right_eq_some.mp ha
    obtain rfl := Option.some.inj ha
    rw [hfirst]
    rfl
  exact ⟨s, hstages, hinStep, (reported_revision_iff hrun).1.mpr hinStep⟩

end NumberedServer
end MyEtcd
