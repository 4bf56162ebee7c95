import MyEtcd.Server.Acknowledgement

/-! Who takes back the flags that are set for applied entries.
A put or a deletion takes back the flag at the index that it waits for when its wait ends, and nobody
else takes any flag back. -/
namespace MyEtcd
open Library

/-- A put or a deletion that waits for its entry. -/
def Client.WaitsFor (client : Client) (index : Nat) : Prop :=
  match client.stage with
  | .waiting entry => entry.index = index
  | _ => False

instance (client : Client) (index : Nat) : Decidable (client.WaitsFor index) := by
  unfold Client.WaitsFor
  split <;> infer_instance

namespace KVServer

/-- No put and no deletion is in progress. -/
def NoneWaits (s : KVServer) : Prop := ∀ client ∈ s.clients, ∀ index, ¬ client.WaitsFor index

/-- Where nobody waits there are no flags. -/
def Clean (s : KVServer) : Prop := s.NoneWaits → s.pendingCommits = ∅

/-- Flags are set for entries only that clients of this server are still waiting for. -/
def FlagsAwaited (s : KVServer) : Event → Prop
  | .act => ∀ action ∈ s.critical.head?, ∀ entry ∈ action.notified,
    ∃ client ∈ s.clients, client.WaitsFor entry.index
  | _ => True

instance instDecidableFlagsAwaited (s : KVServer) (event : Event) :
    Decidable (s.FlagsAwaited event) := by
  unfold FlagsAwaited
  split <;> infer_instance

/-- For every flag there is somebody who will take it back. -/
def Owned (s : KVServer) : Prop :=
  ∀ index, s.pendingCommits.contains index = true → ∃ client ∈ s.clients, client.WaitsFor index

variable {s s' : KVServer}

theorem Owned.clean (h : Owned s) : s.Clean := by
  intro hnone
  refine OrderedMap.ext_get? fun index => ?_
  rw [OrderedMap.get?_empty]
  by_contra hsome
  obtain ⟨client, hclient, hwaits⟩ := h index (Option.isSome_iff_ne_none.mpr hsome)
  exact hnone client hclient index hwaits

theorem Owned.congr (h : Owned s) (hpending : s'.pendingCommits = s.pendingCommits)
    (hclients : ∀ client ∈ s.clients, client ∈ s'.clients) : Owned s' := by
  intro index hflag
  rw [hpending] at hflag
  obtain ⟨client, hclient, hwaits⟩ := h index hflag
  exact ⟨client, hclients client hclient, hwaits⟩

/-- A client goes on to another stage, and the flags that are left are not for it. -/
theorem Owned.setStage (h : Owned s) {i : Nat} {client : Client} {stage : Stage}
    {pending : OrderedMap Nat Bool} (hi : s.clients[i]? = some client)
    (hpending : ∀ index, pending.contains index = true →
      s.pendingCommits.contains index = true ∧ ¬ client.WaitsFor index) :
    Owned { s.setStage i client stage with pendingCommits := pending } := by
  intro index hflag
  obtain ⟨hflag, hother⟩ := hpending index hflag
  obtain ⟨waiter, hwaiter, hwaits⟩ := h index hflag
  obtain ⟨j, hj⟩ := List.mem_iff_getElem?.mp hwaiter
  have hne : i ≠ j := by
    rintro rfl
    obtain rfl := Option.some.inj (hi.symm.trans hj)
    exact hother hwaits
  refine ⟨waiter, List.mem_of_getElem? (i := j) ?_, hwaits⟩
  dsimp only [KVServer.setStage]
  rw [List.getElem?_set_ne hne]
  exact hj

theorem Owned.step (h : Owned s) {event : Event} (hok : s.FlagsAwaited event)
    (hs : s.step event = some s') : Owned s' := by
  have hproposed {entry : RaftEntry} {accepted : Option RaftEntry} {t : KVServer}
      (hp : s.propose entry = some (accepted, t)) :
      t.pendingCommits = s.pendingCommits ∧ t.clients = s.clients := by
    rcases propose_cases hp with ⟨_, _, rfl⟩ | ⟨_, _, _, _, _, rfl⟩
    · exact ⟨rfl, rfl⟩
    · exact ⟨rfl, rfl⟩
  have hstage {t : KVServer} (ht : Owned t) {i : Nat} {client : Client} {stage : Stage}
      (hi : t.clients[i]? = some client) (hwaits : ∀ index, ¬ client.WaitsFor index) :
      Owned (t.setStage i client stage) :=
    ht.setStage hi fun index hflag => ⟨hflag, hwaits index⟩
  cases event with
  | call c =>
    obtain ⟨_, _, _, _, _, rfl⟩ := step_call hs
    exact h
  | enterReady =>
    obtain ⟨_, _, _, rfl⟩ := step_enterReady hs
    exact h
  | readLastIndex =>
    rcases step_readLastIndex hs with rfl | ⟨_, rfl⟩
    · exact h
    · exact h
  | enterSnapshot =>
    obtain ⟨_, _, _, rfl⟩ := step_enterSnapshot hs
    exact h
  | act =>
    obtain ⟨action, rest, hcritical, hperform⟩ := step_act hs
    have hp := perform_performed hperform
    intro index hflag
    rw [hp.pendingCommits, OrderedMap.contains, OrderedMap.get?_foldl_insert] at hflag
    rw [hp.clients]
    split_ifs at hflag with hmem
    · obtain ⟨entry, hentry, rfl⟩ := List.mem_map.mp hmem
      exact hok action (by rw [hcritical]; rfl) entry hentry
    · exact h index hflag
  | request request =>
    rcases step_request hs with ⟨entry, _, hsubmit⟩ | ⟨_, _, _, _, rfl⟩
    · obtain ⟨_, t, hp, rfl⟩ := submit_cases hsubmit
      obtain ⟨hpending, hclients⟩ := hproposed hp
      refine h.congr hpending fun client hclient => List.mem_append_left _ ?_
      rw [hclients]
      exact hclient
    · exact h.congr rfl fun client hclient => List.mem_append_left _ hclient
  | compare i =>
    obtain ⟨client, hi, _, _, _, _, _, ⟨hat, rfl⟩ | ⟨_, _, hat, rfl⟩⟩ := compare_cases hs
    · exact hstage h hi fun index => by simp [Client.WaitsFor, hat]
    · exact hstage h hi fun index => by simp [Client.WaitsFor, hat]
  | execute i =>
    obtain ⟨client, hi, _, _, ⟨hat, rfl⟩ | ⟨_, _, hat, ⟨_, rfl⟩ | ⟨_, _, t, _, hp, rfl⟩⟩⟩ :=
      execute_cases hs
    · exact hstage h hi fun index => by simp [Client.WaitsFor, hat]
    · exact hstage h hi fun index => by simp [Client.WaitsFor, hat]
    · obtain ⟨hpending, hclients⟩ := hproposed hp
      have ht : Owned t := h.congr hpending fun client hclient => hclients ▸ hclient
      exact hstage ht (hclients ▸ hi) fun index => by simp [Client.WaitsFor, hat]
  | wake i =>
    obtain ⟨client, entry, hi, hat, rfl⟩ := wake_cases hs
    refine h.setStage hi fun index hflag => ?_
    rw [OrderedMap.contains, OrderedMap.get?_erase] at hflag
    split_ifs at hflag with heq
    · cases hflag
    · refine ⟨hflag, fun hwaits => heq ?_⟩
      rw [Client.WaitsFor, hat] at hwaits
      exact hwaits.symm
  | restart closed =>
    obtain ⟨_, hstart⟩ := Option.ite_none_left_eq_some.mp hs
    obtain ⟨_, _, _, _, _, _, _, _, _, rfl⟩ := start_cases hstart
    intro index hflag
    cases hflag

/-- As long as flags are set only for entries that are still waited for, they are gone whenever nobody
waits. -/
theorem flags_taken_back {config : ClusterConfig} {disk : Disk} {backendFile : Option Bytes}
    {s₀ s : KVServer} (hstart : start config disk backendFile = some s₀)
    (h : Run step FlagsAwaited s₀ s) : s.Clean := by
  have howned₀ : Owned s₀ := by
    obtain ⟨_, _, _, _, _, _, _, _, _, rfl⟩ := start_cases hstart
    intro index hflag
    cases hflag
  have howned : Owned s := h.invariant (fun hs hok hstep => hs.step hok hstep) howned₀
  exact howned.clean

/-- A transaction puts a key, and its entry is applied. -/
def appliedTxn : List Event :=
  [.call .becomeCandidate, .call .becomeLeader,
    .request (.txn [] [{ type := .put, key := [107], value := [97] }] []), .compare 0, .execute 0,
    .execute 0, .call .advanceCommitIndex, .call .applyCommittedEntries, .enterReady, .act, .act, .act,
    .act]

/-- The transaction has been answered, and the flag of its entry stays. -/
theorem appliedTxn_flag_stays : ∃ s, Run step (fun _ _ => True) (fresh {}) s ∧
    s.critical = [] ∧ s.pendingCommits.keys = [1] ∧ s.NoneWaits ∧ ¬ s.Clean := by
  obtain ⟨s, hrun, hcritical, hkeys, hstages⟩ := reachable_of_execute step (fun _ _ => True)
    (fresh {}) appliedTxn
    (P := fun s => s.critical = [] ∧ s.pendingCommits.keys = [1] ∧ s.clients.map Client.stage =
      [.reported true [some { term := 1, index := 1, key := [107], value := [97] }]]) (by decide)
  have hnone : s.NoneWaits := by
    intro client hclient index
    have hmem := List.mem_map_of_mem (f := Client.stage) hclient
    rw [hstages, List.mem_singleton] at hmem
    simp [Client.WaitsFor, hmem]
  refine ⟨s, hrun, hcritical, hkeys, hnone, fun hclean => ?_⟩
  rw [hclean hnone] at hkeys
  cases hkeys

/-- The flag of a put is taken back when the put has been answered. -/
theorem flags_taken_back_answeredPut : ∃ s : KVServer, s.clients.map Client.stage =
      [.succeeded { term := 1, index := 1, key := [107], value := [97] }] ∧ s.Clean := by
  obtain ⟨s, hrun, hstages⟩ := reachable_of_execute step FlagsAwaited (fresh {}) answeredPut
    (P := fun s => s.clients.map Client.stage =
      [.succeeded { term := 1, index := 1, key := [107], value := [97] }]) (by decide)
  exact ⟨s, hstages, flags_taken_back (start_fresh {}) hrun⟩

end KVServer
end MyEtcd
