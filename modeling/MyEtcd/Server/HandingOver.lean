import MyEtcd.Raft.Delivery
import MyEtcd.Server.KVServer

/-! Entries on their way from the node through `RaftReadyHandler`.
What the node has delivered has reached the store and the log on disk, up to what the handler still
holds and what it has been called with. -/
namespace MyEtcd
open Library

namespace KVServer

/-- The process goes on. -/
def Running : Event → Bool
  | .restart _ => false
  | _ => true

/-- Indices are given out only on a ready log, received entries are numbered one after another, and
what is committed is applied only where the log holds it. -/
def Delivers (s : KVServer) : Event → Prop
  | .call c => s.node.Deliverable c
  | event => event.proposes = true → s.node.state = .leader → s.node.log.Ready

instance (s : KVServer) (event : Event) : Decidable (s.Delivers event) := by
  unfold Delivers
  split <;> infer_instance

/-- The store has the entries replayed at the start and those delivered since, and the log on disk
has been given the delivered ones, less what is on its way. -/
structure HandingOver (replayed : List RaftEntry) (base : Nat) (s : KVServer) : Prop where
  delivered : s.node.Delivered base
  applied : replayed ++ s.node.delivered =
    s.applied ++ (s.critical.flatMap Action.processed ++ s.ready.getD [])
  logged : s.node.delivered =
    s.logged ++ (s.critical.flatMap Action.appended ++ s.ready.getD [])

namespace HandingOver
variable {replayed : List RaftEntry} {base : Nat} {s s' : KVServer}

theorem start {config : ClusterConfig} {disk : Disk} {backendFile : Option Bytes}
    (h : KVServer.start config disk backendFile = some s) : ∃ base, HandingOver s.applied base s := by
  obtain ⟨snapshot, _, _, _, _, _, _, _, _, rfl⟩ := start_cases h
  have hdelivered := RaftNode.Delivered.ofSnapshot config snapshot
  have hnone : (RaftNode.ofSnapshot config snapshot).delivered = [] := by
    cases snapshot with
    | none => rfl
    | some snapshot =>
      rw [RaftNode.ofSnapshot_some]
      rfl
  refine ⟨_, hdelivered, ?_, ?_⟩
  · simp [hnone]
  · simp [hnone]

theorem fresh (config : ClusterConfig) : HandingOver [] 0 (fresh config) :=
  ⟨.ofSnapshot config none, rfl, rfl⟩

/-- What a call delivers waits for the handler, behind what waits already. -/
theorem ready_call {c : RaftNode.Call} (hs : s.step (.call c) = some s') :
    ∃ more, s' = { s with node := s.node.after c, ready := s'.ready } ∧
      (s.node.after c).delivered = s.node.delivered ++ more ∧
      s'.ready.getD [] = s.ready.getD [] ++ more := by
  obtain ⟨node, calls, hserve, hcalls, hlocked, rfl⟩ := step_call hs
  obtain rfl := RaftNode.serve_eq_after hserve
  refine ⟨calls.flatten, rfl, ?_, ?_⟩
  · rw [RaftNode.delivered, hcalls, List.flatten_append, RaftNode.delivered]
  · dsimp only
    split_ifs with hnone
    · rw [hnone, List.flatten_nil, List.append_nil]
    · have hfree : s.ready = none := by
        by_contra hsome
        exact hnone (hlocked (by simp [nodeLocked, Option.isSome_iff_ne_none.mpr hsome]))
      rw [hfree]
      rfl

private theorem call (h : HandingOver replayed base s) {c : RaftNode.Call}
    (hok : s.node.Deliverable c) (hs : s.step (.call c) = some s') :
    HandingOver replayed base s' := by
  obtain ⟨more, heq, hdelivered, hready⟩ := ready_call hs
  rw [heq]
  refine ⟨h.delivered.after hok, ?_, ?_⟩
  · dsimp only
    rw [hready, hdelivered, ← List.append_assoc, h.applied]
    simp only [List.append_assoc]
  · dsimp only
    rw [hready, hdelivered, h.logged]
    simp only [List.append_assoc]

private theorem act (h : HandingOver replayed base s) (hs : s.step .act = some s') :
    HandingOver replayed base s' := by
  obtain ⟨action, rest, hcritical, hperform⟩ := step_act hs
  have hp := perform_performed hperform
  have hstill : s'.node.delivered = s.node.delivered := congrArg RaftNode.delivered hp.node
  refine ⟨hp.node ▸ h.delivered, ?_, ?_⟩
  · rw [hstill, h.applied, hp.applied, hp.critical, hp.ready, hcritical, List.flatMap_cons,
      List.flatMap_append, processed_next, List.nil_append]
    simp only [List.append_assoc]
  · rw [hstill, h.logged, hp.logged, hp.critical, hp.ready, hcritical, List.flatMap_cons,
      List.flatMap_append, appended_next, List.nil_append]
    simp only [List.append_assoc]

private theorem byClient (h : HandingOver replayed base s) {event : Event}
    (hclient : event.byClient = true) (hok : s.Delivers event) (hs : s.step event = some s') :
    HandingOver replayed base s' := by
  obtain ⟨node, _, _, rfl, hnode⟩ := step_byClient hclient hs
  rcases hnode with rfl | ⟨hproposes, hleads, e, he, rfl⟩
  · exact ⟨h.delivered, h.applied, h.logged⟩
  · have hready : s.node.log.Ready := by
      cases event with
      | call c => cases hclient
      | _ => exact hok hproposes hleads
    exact ⟨h.delivered.congr (h.delivered.based.append hready he) rfl rfl, h.applied, h.logged⟩

theorem step (h : HandingOver replayed base s) {event : Event}
    (hrunning : ∀ closed, event ≠ .restart closed) (hok : s.Delivers event)
    (hs : s.step event = some s') : HandingOver replayed base s' := by
  cases event with
  | call c => exact h.call hok hs
  | enterReady =>
    obtain ⟨entries, hready, hnone, rfl⟩ := step_enterReady hs
    obtain ⟨hdelivered, happlied, hlogged⟩ := h
    rw [hready, hnone] at happlied hlogged
    refine ⟨hdelivered, ?_, ?_⟩
    · dsimp only
      rw [processed_raftReadyHandler, happlied]
      simp
    · dsimp only
      rw [appended_raftReadyHandler, hlogged]
      simp
  | readLastIndex =>
    rcases step_readLastIndex hs with rfl | ⟨_, rfl⟩
    · exact h
    · exact ⟨h.delivered, h.applied, h.logged⟩
  | enterSnapshot =>
    obtain ⟨n, _, hnone, rfl⟩ := step_enterSnapshot hs
    obtain ⟨hdelivered, happlied, hlogged⟩ := h
    rw [hnone] at happlied hlogged
    exact ⟨hdelivered, happlied, hlogged⟩
  | act => exact h.act hs
  | restart closed => exact absurd rfl (hrunning closed)
  | _ => exact h.byClient rfl hok hs

/-- Only calls of the node deliver anything. -/
theorem delivered_of_not_call {event : Event} (hrunning : ∀ closed, event ≠ .restart closed)
    (hcall : ∀ c, event ≠ .call c) (hs : s.step event = some s') :
    s'.node.delivered = s.node.delivered := by
  have hclient (hclient : event.byClient = true) : s'.node.delivered = s.node.delivered := by
    obtain ⟨_, _, _, rfl, rfl | ⟨_, _, _, _, rfl⟩⟩ := step_byClient hclient hs
    · rfl
    · rfl
  cases event with
  | call c => exact absurd rfl (hcall c)
  | enterReady =>
    obtain ⟨_, _, _, rfl⟩ := step_enterReady hs
    rfl
  | readLastIndex =>
    rcases step_readLastIndex hs with rfl | ⟨_, rfl⟩
    · rfl
    · rfl
  | enterSnapshot =>
    obtain ⟨_, _, _, rfl⟩ := step_enterSnapshot hs
    rfl
  | act =>
    obtain ⟨_, _, _, hperform⟩ := step_act hs
    exact congrArg RaftNode.delivered (perform_performed hperform).node
  | restart closed => exact absurd rfl (hrunning closed)
  | _ => exact hclient rfl

/-- What a call delivers comes after everything that has been applied. -/
theorem later (h : HandingOver replayed base s) {c : RaftNode.Call} (hok : s.node.Deliverable c)
    {more : List RaftEntry} (hmore : (s.node.after c).delivered = s.node.delivered ++ more) :
    ∀ e ∈ more, s.node.lastApplied < e.index := by
  intro e he
  have hafter := (h.delivered.after hok).delivered
  rw [hmore, List.map_append, h.delivered.delivered] at hafter
  obtain ⟨k, _, hfirst, hsecond⟩ := List.range'_eq_append_iff.mp hafter.symm
  have hlength := congrArg List.length hfirst
  rw [List.length_range', List.length_range'] at hlength
  have hindex : e.index ∈ more.map RaftEntry.index := List.mem_map.mpr ⟨e, he, rfl⟩
  rw [hsecond, List.mem_range'_1] at hindex
  omega

/-- The delivered entries are numbered without gaps, so those on their way come after the others. -/
theorem growing (h : HandingOver replayed base s) :
    (s.logged ++ (s.critical.flatMap Action.appended ++ s.ready.getD [])).Pairwise
      fun a b => a.index < b.index := by
  rw [← h.logged, ← List.pairwise_map (f := RaftEntry.index) (R := (· < ·)), h.delivered.delivered]
  exact List.pairwise_lt_range'

end HandingOver

section
variable {s : KVServer} {ok : KVServer → Event → Prop} {entries : List RaftEntry}

private theorem run_processed {rest : List Action}
    (hcritical : s.critical = entries.map .processEntry ++ rest)
    (hok : ∀ t e more, e ∈ entries → t.critical = Action.processEntry e :: more → ok t .act) :
    Run step ok s { s with
      kvstore := EtcdServer.processRaftEntries s.kvstore entries
      applied := s.applied ++ entries
      critical := rest } := by
  induction entries generalizing s with
  | nil =>
    obtain rfl : s.critical = rest := hcritical
    rw [List.append_nil]
    exact .start
  | cons e others ih =>
    have hstep : s.step .act = some { s with
        kvstore := EtcdServer.processEntry s.kvstore e
        applied := s.applied ++ [e]
        critical := others.map .processEntry ++ rest } := by
      rw [step, hcritical]
      rfl
    have hrest := (Run.start.next (hok s e _ List.mem_cons_self hcritical) hstep).trans
      (ih rfl fun t x more hx => hok t x more (List.mem_cons_of_mem _ hx))
    dsimp only at hrest
    rwa [List.append_assoc] at hrest

/-- The handler does all that it has to do. -/
theorem run_raftReadyHandler (hready : s.ready = some entries) (hcritical : s.critical = [])
    (henter : ok s .enterReady)
    (hact : ∀ t action rest, action ∈ raftReadyHandler entries → t.critical = action :: rest →
      ok t .act) : ∃ state pendingCommits, Run step ok s { s with
        ready := none
        critical := []
        kvstore := EtcdServer.processRaftEntries s.kvstore entries
        applied := s.applied ++ entries
        wal := (s.wal.appendEntries entries).saveHardState state
        logged := s.logged ++ entries
        pendingCommits } := by
  have hstep : s.step .enterReady =
      some { s with ready := none, critical := raftReadyHandler entries } := by
    rw [step, hready, hcritical]
  have hentered := Run.start.next henter hstep
  have hprocessed := hentered.trans (run_processed rfl fun t e more he => hact t _ more
    (List.mem_append_left _ (List.mem_map_of_mem he)))
  have happended := hprocessed.next (a := Event.act)
    (hact _ (.appendEntries entries) _ (by simp [raftReadyHandler]) rfl) rfl
  have hsaved := happended.next (a := Event.act)
    (hact _ .saveHardState _ (by simp [raftReadyHandler]) rfl) rfl
  exact ⟨_, _, hsaved.next (a := Event.act)
    (hact _ (.notify entries) _ (by simp [raftReadyHandler]) rfl) rfl⟩

end
end KVServer
end MyEtcd
