import Mathlib.Data.List.ReduceOption
import MyEtcd.Server.KVServer

/-! What the answer to a request says about the entry it proposed.
The wait is for a flag at an index, so the answer is right as long as the flag is there, is new, and
is for the entry that was proposed. -/
namespace MyEtcd
open Library

/-- `e` is `entry` with the term and the index it was accepted with. -/
def Proposed (entry e : RaftEntry) : Prop := e = { entry with term := e.term, index := e.index }

/-- The entries that have been accepted for a request which is not answered yet. -/
def Stage.owed : Stage → List RaftEntry
  | .executing _ _ results => results.reduceOption
  | .waiting entry => [entry]
  | _ => []

namespace Client

/-- What a client is told is so. -/
def Honest (settled : RaftEntry → Prop) (client : Client) : Prop :=
  match client.stage with
  | .succeeded e => ∃ entry, client.request.entry = some entry ∧ Proposed entry e ∧ settled e
  | .reported conditionsMet results =>
    List.Forall₂ (fun entry result => ∃ e, result = some e ∧ Proposed entry e ∧ settled e)
      ((client.request.branch conditionsMet).filterMap TxnOp.entry) results
  | _ => True

/-- A request that is under way is also kept with its own entries. -/
def Sound (settled : RaftEntry → Prop) (client : Client) : Prop :=
  match client.stage with
  | .executing rest conditionsMet results =>
    ∃ done, client.request.branch conditionsMet = done ++ rest ∧
      List.Forall₂ (fun entry result => ∀ e, result = some e → Proposed entry e)
        (done.filterMap TxnOp.entry) results
  | .waiting e => ∃ entry, client.request.entry = some entry ∧ Proposed entry e
  | _ => client.Honest settled

variable {settled weaker : RaftEntry → Prop} {client : Client}

theorem Sound.honest (h : client.Sound settled) : client.Honest settled := by
  unfold Sound at h
  split at h
  · rename_i hstage
    simp only [Honest, hstage]
  · rename_i hstage
    simp only [Honest, hstage]
  · exact h

theorem Sound.mono (h : client.Sound settled) (hmono : ∀ e, settled e → weaker e) :
    client.Sound weaker := by
  have hhonest : client.Honest settled → client.Honest weaker := by
    intro h
    unfold Honest at h ⊢
    split at h
    · obtain ⟨entry, hentry, hproposed, hsettled⟩ := h
      exact ⟨entry, hentry, hproposed, hmono _ hsettled⟩
    · refine h.imp fun entry result hresult => ?_
      obtain ⟨e, he, hproposed, hsettled⟩ := hresult
      exact ⟨e, he, hproposed, hmono _ hsettled⟩
    · trivial
  unfold Sound at h ⊢
  split at h
  · exact h
  · exact h
  · exact hhonest h

end Client

namespace KVServer

/-- The entry has been committed, applied to the store and given to the log on disk. -/
structure Settled (s : KVServer) (e : RaftEntry) : Prop where
  committed : e ∈ s.node.delivered
  applied : e ∈ s.applied
  logged : e ∈ s.logged

/-- No client has been told anything else than what is so. -/
def Honest (s : KVServer) : Prop := ∀ client ∈ s.clients, client.Honest s.Settled

def owed (s : KVServer) : List RaftEntry := s.clients.flatMap fun client => client.stage.owed

def flagged (s : KVServer) (e : RaftEntry) : Bool := s.pendingCommits.contains e.index

/-- There is no flag yet at the index that the next proposal gets. -/
def unflagged (s : KVServer) : Bool := ¬ s.pendingCommits.contains (s.node.log.lastIndex + 1)

/-- The log keeps the entries of requests under way, no proposal finds an old flag at its index, and
an answer is given only after the flags of its entries have been set. -/
def Confirms (s : KVServer) : Event → Bool
  | .call c => s.owed.all fun e => e ∈ (s.node.after c).log.entries
  | .request (.put _ _ _) | .request (.delete _) => s.unflagged
  | .execute i =>
    match s.clients[i]?.map Client.stage with
    | some (.executing [] _ results) => results.all fun result => result.any s.flagged
    | some (.executing (op :: _) _ _) => op.entry.isNone || s.unflagged
    | _ => true
  | .wake i =>
    match s.clients[i]?.map Client.stage with
    | some (.waiting entry) => s.flagged entry
    | _ => true
  | _ => true

/-- What is on its way through the handler. -/
structure Pipeline (s : KVServer) : Prop where
  ready : ∀ entries, s.ready = some entries → ∀ e ∈ entries, e ∈ s.node.delivered
  last : ∀ action ∈ s.critical.dropLast, action.isNotify = false
  handled : ∀ entries, Action.notify entries ∈ s.critical → ∀ e ∈ entries,
    e ∈ s.node.delivered ∧ (e ∈ s.applied ∨ Action.processEntry e ∈ s.critical) ∧
      (e ∈ s.logged ∨ Action.appendEntries entries ∈ s.critical)

namespace Pipeline
variable {s s' : KVServer}

theorem idle (hready : s.ready = none) (hcritical : s.critical = []) : Pipeline s where
  ready entries h := by simp [hready] at h
  last action h := by simp [hcritical] at h
  handled entries h := by simp [hcritical] at h

/-- Nothing is in the handler's hands when the node is not locked. -/
theorem unlocked (h : s.nodeLocked = false) :
    s.ready = none ∧ ∀ entries, Action.notify entries ∉ s.critical := by
  obtain ⟨hready, hcritical⟩ := Bool.or_eq_false_iff.mp h
  refine ⟨Option.not_isSome_iff_eq_none.mp (by simp [hready]), fun entries hmem => ?_⟩
  have := List.any_eq_false.mp hcritical _ hmem
  simp [Action.isNotify] at this

theorem enterReady (h : Pipeline s) {entries : List RaftEntry} (hready : s.ready = some entries) :
    Pipeline { s with ready := none, critical := raftReadyHandler entries } where
  ready entries' h' := by cases h'
  last action hmem := by
    have hinit : (raftReadyHandler entries).dropLast =
        entries.map .processEntry ++ [.appendEntries entries, .saveHardState] := by
      simp [raftReadyHandler, List.dropLast_append_of_ne_nil]
    rw [hinit, List.mem_append, List.mem_map, List.mem_pair] at hmem
    obtain ⟨e, _, rfl⟩ | rfl | rfl := hmem
    · rfl
    · rfl
    · rfl
  handled entries' hmem e he := by
    obtain rfl : entries' = entries := by simpa [raftReadyHandler] using hmem
    refine ⟨h.ready _ hready e he, .inr ?_, .inr ?_⟩
    · simp [raftReadyHandler, he]
    · simp [raftReadyHandler]

theorem act (h : Pipeline s) {action : Action} {rest : List Action}
    (hcritical : s.critical = action :: rest)
    (hp : Performed { s with critical := rest } action s') : Pipeline s' := by
  have hdelivered : s'.node.delivered = s.node.delivered := congrArg RaftNode.delivered hp.node
  have hnext (a : Action) (ha : a ∈ action.next s.kvstore) : a.isNotify = false := by
    cases action with
    | serialize n =>
      obtain rfl := List.mem_singleton.mp ha
      rfl
    | _ => cases ha
  have hrest {a : Action} (ha : a.isNotify = true) (hmem : a ∈ s'.critical) : a ∈ rest := by
    rw [hp.critical] at hmem
    rcases List.mem_append.mp hmem with hmem | hmem
    · simp [hnext a hmem] at ha
    · exact hmem
  have hkept {a : Action} (hmem : a ∈ rest) : a ∈ s'.critical := by
    rw [hp.critical]
    exact List.mem_append_right _ hmem
  refine ⟨fun entries hready => ?_, fun a ha => ?_, fun entries hmem e he => ?_⟩
  · rw [hdelivered]
    exact h.ready entries (hp.ready ▸ hready)
  · rw [hp.critical] at ha
    by_cases hnil : rest = []
    · have hmem := List.dropLast_subset _ ha
      simp only [hnil, List.append_nil] at hmem
      exact hnext a hmem
    · rw [List.dropLast_append_of_ne_nil hnil] at ha
      rcases List.mem_append.mp ha with ha | ha
      · exact hnext a ha
      · refine h.last a ?_
        rw [hcritical, List.dropLast_cons_of_ne_nil hnil]
        exact List.mem_cons_of_mem _ ha
  · have hnotify := hrest rfl hmem
    -- the flags are set last, so this is not the action that has just been taken
    have hfirst : action.isNotify = false := by
      refine h.last action ?_
      rw [hcritical, List.dropLast_cons_of_ne_nil (List.ne_nil_of_mem hnotify)]
      exact List.mem_cons_self
    obtain ⟨hcommitted, happlied, hlogged⟩ :=
      h.handled entries (hcritical ▸ List.mem_cons_of_mem _ hnotify) e he
    rw [hcritical] at happlied hlogged
    rw [hdelivered, hp.applied, hp.logged, List.mem_append, List.mem_append]
    refine ⟨hcommitted, ?_, ?_⟩
    · rcases happlied with hmem | hmem
      · exact .inl (.inl hmem)
      · rcases List.mem_cons.mp hmem with rfl | hmem
        · exact .inl (.inr (List.mem_singleton_self e))
        · exact .inr (hkept hmem)
    · rcases hlogged with hmem | hmem
      · exact .inl (.inl hmem)
      · rcases List.mem_cons.mp hmem with rfl | hmem
        · exact .inl (.inr he)
        · exact .inr (hkept hmem)

end Pipeline

variable {s s' : KVServer}

theorem owed_of_getElem? {i : Nat} {client : Client} (hi : s.clients[i]? = some client)
    {e : RaftEntry} (he : e ∈ client.stage.owed) : e ∈ s.owed :=
  List.mem_flatMap.mpr ⟨client, List.mem_of_getElem? hi, he⟩

theorem owed_set {i : Nat} {client : Client} {e : RaftEntry}
    (he : e ∈ (s.clients.set i client).flatMap fun client => client.stage.owed) :
    e ∈ s.owed ∨ e ∈ client.stage.owed := by
  obtain ⟨other, hother, howed⟩ := List.mem_flatMap.mp he
  rcases List.mem_or_eq_of_mem_set hother with hother | rfl
  · exact .inl (List.mem_flatMap.mpr ⟨other, hother, howed⟩)
  · exact .inr howed

/-- Every request under way is waiting for an entry in the log, and when the flag at its index has
been set it was set for that entry. -/
structure Tracked (s : KVServer) : Prop where
  pipeline : Pipeline s
  consecutive : s.node.log.Consecutive
  kept : ∀ e ∈ s.owed, e ∈ s.node.log.entries
  matched : ∀ entries, s.ready = some entries ∨ Action.notify entries ∈ s.critical →
    ∀ x ∈ entries, ∀ e ∈ s.owed, x.index = e.index → x = e
  settled : ∀ e ∈ s.owed, s.flagged e = true → s.Settled e
  sound : ∀ client ∈ s.clients, client.Sound s.Settled

namespace Tracked

theorem clients (h : Tracked s) {clients : List Client} (pending : OrderedMap Nat Bool)
    (howed : ∀ e ∈ clients.flatMap fun client => client.stage.owed, e ∈ s.owed)
    (hpending : ∀ i, pending.contains i = true → s.pendingCommits.contains i = true)
    (hsound : ∀ client ∈ clients, client.Sound s.Settled) :
    Tracked { s with clients, pendingCommits := pending } where
  pipeline := ⟨h.pipeline.ready, h.pipeline.last, h.pipeline.handled⟩
  consecutive := h.consecutive
  kept e he := h.kept e (howed e he)
  matched entries hentries x hx e he := h.matched entries hentries x hx e (howed e he)
  settled e he hflag := by
    have := h.settled e (howed e he) (hpending _ hflag)
    exact ⟨this.committed, this.applied, this.logged⟩
  sound client hclient := (hsound client hclient).mono fun e he =>
    ⟨he.committed, he.applied, he.logged⟩

theorem setStage (h : Tracked s) {i : Nat} {client : Client} {stage : Stage}
    (pending : OrderedMap Nat Bool)
    (howed : ∀ e ∈ stage.owed, e ∈ s.owed)
    (hpending : ∀ i, pending.contains i = true → s.pendingCommits.contains i = true)
    (hsound : Client.Sound s.Settled { client with stage }) :
    Tracked { s.setStage i client stage with pendingCommits := pending } := by
  refine h.clients pending (fun e he => (owed_set he).elim id (howed e)) hpending
    fun other hother => ?_
  rcases List.mem_or_eq_of_mem_set hother with hother | rfl
  · exact h.sound other hother
  · exact hsound

theorem record (h : Tracked s) (hfree : s.nodeLocked = false) (hflag : s.unflagged = true)
    {e : RaftEntry} (he : e.index = s.node.log.lastIndex + 1) {clients : List Client}
    (howed : ∀ x ∈ clients.flatMap fun client => client.stage.owed, x ∈ s.owed ∨ x = e)
    (hsound : ∀ client ∈ clients, client.Sound s.Settled) :
    Tracked { s with node := s.node.recordProposal e, clients } where
  pipeline := ⟨h.pipeline.ready, h.pipeline.last, h.pipeline.handled⟩
  consecutive := h.consecutive.append he
  kept x hx := by
    rcases howed x hx with hx | rfl
    · exact List.mem_append_left _ (h.kept x hx)
    · exact List.mem_append_right _ (List.mem_singleton_self _)
  matched entries hentries := by
    obtain ⟨hready, hcritical⟩ := Pipeline.unlocked hfree
    rcases hentries with hentries | hentries
    · cases hready.symm.trans hentries
    · exact absurd hentries (hcritical entries)
  settled x hx hset := by
    rcases howed x hx with hx | rfl
    · have := h.settled x hx hset
      exact ⟨this.committed, this.applied, this.logged⟩
    · have hnone := of_decide_eq_true hflag
      rw [flagged, he] at hset
      exact absurd hset hnone
  sound client hclient := (hsound client hclient).mono fun e he =>
    ⟨he.committed, he.applied, he.logged⟩

/-- A call of the node that leaves the awaited entries where they are. -/
theorem call (h : Tracked s) {c : RaftNode.Call} (hok : s.Confirms (.call c) = true)
    (hs : s.step (.call c) = some s') : Tracked s' := by
  obtain ⟨node, calls, hserve, hcalls, hlocked, rfl⟩ := step_call hs
  have hafter : s.node.after c = node := (RaftNode.serve_eq_after hserve).symm
  have hkept : ∀ e ∈ s.owed, e ∈ node.log.entries := by
    intro e he
    have := List.all_eq_true.mp hok e he
    rwa [hafter, decide_eq_true_eq] at this
  have hdelivered : node.delivered = s.node.delivered ++ calls.flatten := by
    rw [RaftNode.delivered, hcalls, List.flatten_append, RaftNode.delivered]
  have hcommitted {e : RaftEntry} (he : e ∈ s.node.delivered) : e ∈ node.delivered := by
    rw [hdelivered]
    exact List.mem_append_left _ he
  have hsettled {e : RaftEntry} (he : s.Settled e) :
      Settled { s with node, ready := if calls = [] then s.ready else some calls.flatten } e :=
    ⟨hcommitted he.committed, he.applied, he.logged⟩
  have hlog := RaftNode.serve_consecutive h.consecutive hserve
  refine ⟨⟨fun entries hready e he => ?_, h.pipeline.last, fun entries hmem e he => ?_⟩,
    hlog, hkept, fun entries hentries x hx e he heq => ?_,
    fun e he hflag => hsettled (h.settled e he hflag),
    fun client hclient => (h.sound client hclient).mono fun e he => hsettled he⟩
  · dsimp only at hready
    split_ifs at hready with hnone
    · exact hcommitted (h.pipeline.ready entries hready e he)
    · obtain rfl := Option.some.inj hready
      rw [hdelivered]
      exact List.mem_append_right _ he
  · obtain ⟨hin, hrest⟩ := h.pipeline.handled entries hmem e he
    exact ⟨hcommitted hin, hrest⟩
  · rcases hentries with hentries | hentries
    · dsimp only at hentries
      split_ifs at hentries with hnone
      · exact h.matched entries (.inl hentries) x hx e he heq
      · obtain rfl := Option.some.inj hentries
        -- both stand in the log that the batch was taken from
        obtain ⟨calls', hcalls', hmem⟩ := RaftNode.serve_readyCalls hserve
        obtain rfl : calls' = calls := List.append_cancel_left (hcalls'.symm.trans hcalls)
        exact hlog.unique (hmem x hx) (hkept e he) heq
    · exact h.matched entries (.inr hentries) x hx e he heq

theorem act (h : Tracked s) (hs : s.step .act = some s') : Tracked s' := by
  obtain ⟨action, rest, hcritical, hperform⟩ := step_act hs
  have hp := perform_performed hperform
  have hsettled {e : RaftEntry} (he : s.Settled e) : s'.Settled e := by
    refine ⟨?_, ?_, ?_⟩
    · rw [hp.node]
      exact he.committed
    · rw [hp.applied]
      exact List.mem_append_left _ he.applied
    · rw [hp.logged]
      exact List.mem_append_left _ he.logged
  have hpipeline := h.pipeline.act hcritical hp
  have howed : s'.owed = s.owed := by
    rw [owed, hp.clients]
    rfl
  refine ⟨hpipeline, hp.node ▸ h.consecutive, fun e he => ?_,
    fun entries hentries x hx e he heq => ?_, fun e he hflag => ?_, fun client hclient => ?_⟩
  · rw [hp.node]
    exact h.kept e (howed ▸ he)
  · rw [howed] at he
    refine h.matched entries ?_ x hx e he heq
    rcases hentries with hentries | hentries
    · exact .inl (hp.ready ▸ hentries)
    · rw [hp.critical] at hentries
      rcases List.mem_append.mp hentries with hnext | hrest
      · cases action with
        | serialize n => cases List.mem_singleton.mp hnext
        | _ => cases hnext
      · exact .inr (hcritical ▸ List.mem_cons_of_mem _ hrest)
  · rw [howed] at he
    by_cases hold : s.flagged e = true
    · exact hsettled (h.settled e he hold)
    · -- the flag has just been set, and the handler has nothing else to do
      rw [flagged, hp.pendingCommits, OrderedMap.contains, OrderedMap.get?_foldl_insert] at hflag
      split_ifs at hflag with hmem
      · obtain ⟨x, hx, hindex⟩ := List.mem_map.mp hmem
        cases action with
        | notify entries =>
          have hnotify : Action.notify entries ∈ s.critical := hcritical ▸ List.mem_cons_self
          obtain rfl := h.matched entries (.inr hnotify) x hx e he hindex
          obtain ⟨hcommitted, happlied, hlogged⟩ := h.pipeline.handled entries hnotify x hx
          have hrest : rest = [] := by
            by_contra hne
            have := h.pipeline.last (.notify entries) (by
              rw [hcritical, List.dropLast_cons_of_ne_nil hne]
              exact List.mem_cons_self)
            cases this
          rw [hcritical, hrest] at happlied hlogged
          refine hsettled ⟨hcommitted, happlied.resolve_right ?_, hlogged.resolve_right ?_⟩
          · simp
          · simp
        | _ => cases hx
      · exact absurd hflag hold
  · rw [hp.clients] at hclient
    exact (h.sound client hclient).mono fun e he => hsettled he

theorem compare (h : Tracked s) {i : Nat} (hs : s.compare i = some s') : Tracked s' := by
  obtain ⟨client, _, compares, success, failure, met, hrequest, ⟨_, rfl⟩ | ⟨c, rest, _, rfl⟩⟩ :=
    compare_cases hs
  · refine h.setStage s.pendingCommits (fun e he => ?_) (fun _ => id) ?_
    · cases he
    refine ⟨[], ?_, .nil⟩
    dsimp only
    rw [hrequest, List.nil_append, Request.branch]
  · exact h.setStage s.pendingCommits (by simp [Stage.owed]) (fun _ => id) trivial

private theorem report (h : Tracked s) {i : Nat} {client : Client}
    (hi : s.clients[i]? = some client) {met : Bool} {results : List (Option RaftEntry)}
    (hstage : client.stage = .executing [] met results)
    (hflags : ∀ result ∈ results, ∃ e, result = some e ∧ s.flagged e = true) :
    Tracked (s.setStage i client (.reported met results)) := by
  have hsound := h.sound client (List.mem_of_getElem? hi)
  rw [Client.Sound, hstage] at hsound
  obtain ⟨done, hbranch, hproposed⟩ := hsound
  rw [List.append_nil] at hbranch
  obtain ⟨hlen, hzip⟩ := List.forall₂_iff_zip.mp hproposed
  refine h.setStage s.pendingCommits (by simp [Stage.owed]) (fun _ => id) ?_
  simp only [Client.Sound, Client.Honest, hbranch]
  refine List.forall₂_iff_zip.mpr ⟨hlen, fun {entry result} hmem => ?_⟩
  obtain ⟨e, rfl, hflag⟩ := hflags result (List.of_mem_zip hmem).2
  have howed : e ∈ s.owed := by
    refine owed_of_getElem? hi ?_
    rw [hstage]
    exact List.reduceOption_mem_iff.mpr (List.of_mem_zip hmem).2
  exact ⟨e, rfl, hzip hmem e rfl, h.settled e howed hflag⟩

private theorem executeOp (h : Tracked s) {i : Nat} {client : Client}
    (hi : s.clients[i]? = some client) {op : TxnOp} {rest : List TxnOp} {met : Bool}
    {results : List (Option RaftEntry)} (hstage : client.stage = .executing (op :: rest) met results)
    {entry : RaftEntry} (hentry : op.entry = some entry) (hflag : s.unflagged = true)
    {accepted : Option RaftEntry} {t : KVServer} (hpropose : s.propose entry = some (accepted, t)) :
    Tracked (t.setStage i client (.executing rest met (results ++ [accepted]))) := by
  have hsound := h.sound client (List.mem_of_getElem? hi)
  rw [Client.Sound, hstage] at hsound
  obtain ⟨done, hbranch, hproposed⟩ := hsound
  have hnext (haccepted : ∀ e, accepted = some e → Proposed entry e) : Client.Sound s.Settled
      { client with stage := .executing rest met (results ++ [accepted]) } := by
    refine ⟨done ++ [op], by simp [hbranch], ?_⟩
    have hlast : [op].filterMap TxnOp.entry = [entry] := by simp [hentry]
    rw [List.filterMap_append, hlast]
    exact List.rel_append hproposed (.cons haccepted .nil)
  have howed {e : RaftEntry} (he : e ∈ (results ++ [accepted]).reduceOption) :
      e ∈ s.owed ∨ accepted = some e := by
    rcases List.mem_append.mp (List.reduceOption_mem_iff.mp he) with he | he
    · refine .inl (owed_of_getElem? hi ?_)
      rw [hstage]
      exact List.reduceOption_mem_iff.mpr he
    · exact .inr (List.mem_singleton.mp he).symm
  rcases propose_cases hpropose with ⟨_, rfl, rfl⟩ | ⟨_, hfree, e, he, rfl, rfl⟩
  · refine h.setStage t.pendingCommits (fun x hx => ?_) (fun _ => id) (hnext ?_)
    · exact (howed hx).resolve_right (by simp)
    · intro e he
      cases he
  · refine h.record hfree hflag (by rw [he]) (fun x hx => ?_) fun other hother => ?_
    · rcases owed_set hx with hx | hx
      · exact .inl hx
      · exact (howed hx).imp_right fun heq => (Option.some.inj heq).symm
    · rcases List.mem_or_eq_of_mem_set hother with hother | rfl
      · exact h.sound other hother
      · refine hnext fun x hx => ?_
        obtain rfl := Option.some.inj hx
        rw [Proposed, he]

theorem execute (h : Tracked s) {i : Nat} (hok : s.Confirms (.execute i) = true)
    (hs : s.execute i = some s') : Tracked s' := by
  obtain ⟨client, hi, met, results,
    ⟨hstage, rfl⟩ | ⟨op, rest, hstage, ⟨hentry, rfl⟩ |
      ⟨entry, accepted, t, hentry, hpropose, rfl⟩⟩⟩ :=
    execute_cases hs
  · refine h.report hi hstage fun result hresult => ?_
    simp only [Confirms, hi, Option.map_some, hstage] at hok
    exact (Option.any_eq_true _ _).mp (List.all_eq_true.mp hok result hresult)
  · refine h.setStage s.pendingCommits (fun e he => ?_) (fun _ => id) ?_
    · refine owed_of_getElem? hi ?_
      rwa [hstage]
    · have hsound := h.sound client (List.mem_of_getElem? hi)
      rw [Client.Sound, hstage] at hsound
      obtain ⟨done, hbranch, hproposed⟩ := hsound
      refine ⟨done ++ [op], by simp [hbranch], ?_⟩
      have hlast : [op].filterMap TxnOp.entry = [] := by simp [hentry]
      rwa [List.filterMap_append, hlast, List.append_nil]
  · simp only [Confirms, hi, Option.map_some, hstage, hentry] at hok
    exact h.executeOp hi hstage hentry (by simpa using hok) hpropose

theorem wake (h : Tracked s) {i : Nat} (hok : s.Confirms (.wake i) = true)
    (hs : s.wake i = some s') : Tracked s' := by
  obtain ⟨client, e, hi, hstage, rfl⟩ := wake_cases hs
  have hsound := h.sound client (List.mem_of_getElem? hi)
  rw [Client.Sound, hstage] at hsound
  obtain ⟨entry, hentry, hproposed⟩ := hsound
  simp only [Confirms, hi, Option.map_some, hstage] at hok
  have howed : e ∈ s.owed := by
    refine owed_of_getElem? hi ?_
    rw [hstage]
    exact List.mem_singleton_self e
  refine h.setStage _ (by simp [Stage.owed]) (fun j hj => ?_)
    ⟨entry, hentry, hproposed, h.settled e howed hok⟩
  rw [OrderedMap.contains, OrderedMap.get?_erase] at hj
  split_ifs at hj
  · cases hj
  · exact hj

theorem request (h : Tracked s) {request : Request} (hok : s.Confirms (.request request) = true)
    (hs : s.step (.request request) = some s') : Tracked s' := by
  have hclients {client : Client} {e : RaftEntry}
      (he : e ∈ (s.clients ++ [client]).flatMap fun client => client.stage.owed) :
      e ∈ s.owed ∨ e ∈ client.stage.owed := by
    rw [List.flatMap_append, List.flatMap_singleton] at he
    exact List.mem_append.mp he
  have hsound {client : Client} (hc : client.Sound s.Settled) :
      ∀ other ∈ s.clients ++ [client], other.Sound s.Settled := by
    intro other hother
    rcases List.mem_append.mp hother with hother | hother
    · exact h.sound other hother
    · obtain rfl := List.mem_singleton.mp hother
      exact hc
  rcases step_request hs with ⟨entry, hentry, hsubmit⟩ | ⟨compares, success, failure, rfl, rfl⟩
  · have hflag : s.unflagged = true := by
      cases request with
      | put => exact hok
      | delete => exact hok
      | txn => cases hentry
    obtain ⟨accepted, t, hpropose, rfl⟩ := submit_cases hsubmit
    rcases propose_cases hpropose with ⟨_, rfl, rfl⟩ | ⟨_, hfree, e, he, rfl, rfl⟩
    · refine h.clients t.pendingCommits (fun e he => ?_) (fun _ => id) (hsound trivial)
      exact (hclients he).resolve_right List.not_mem_nil
    · refine h.record hfree hflag (by rw [he]) (fun x hx => ?_) (hsound ⟨entry, hentry, ?_⟩)
      · exact (hclients hx).imp_right List.mem_singleton.mp
      · rw [Proposed, he]
  · refine h.clients s.pendingCommits (fun e he => ?_) (fun _ => id) (hsound trivial)
    exact (hclients he).resolve_right List.not_mem_nil

/-- A server that has just started owes nothing to anybody. -/
theorem start {config : ClusterConfig} {disk : Disk} {backendFile : Option Bytes}
    (hs : KVServer.start config disk backendFile = some s) : Tracked s := by
  obtain ⟨snapshot, _, _, _, _, _, _, _, _, rfl⟩ := start_cases hs
  have hlog : (RaftNode.ofSnapshot config snapshot).log.Consecutive := by
    cases snapshot with
    | none => exact .empty 1
    | some snapshot =>
      rw [RaftNode.ofSnapshot_some]
      exact .empty _
  refine ⟨.idle rfl rfl, hlog, fun e he => ?_, fun entries hentries => ?_, fun e he => ?_,
    fun client hclient => ?_⟩
  · cases he
  · rcases hentries with hentries | hentries
    · cases hentries
    · cases hentries
  · cases he
  · cases hclient

theorem step (h : Tracked s) {event : Event} (hok : s.Confirms event = true)
    (hs : s.step event = some s') : Tracked s' := by
  have hcritical {critical : List Action} {ready : Option (List RaftEntry)}
      {lastApplied : Option Nat}
      (hp : Pipeline { s with ready, critical, lastApplied })
      (hentries : ∀ entries, ready = some entries ∨ Action.notify entries ∈ critical →
        s.ready = some entries ∨ Action.notify entries ∈ s.critical) :
      Tracked { s with ready, critical, lastApplied } := by
    refine ⟨hp, h.consecutive, h.kept, fun entries hmem => h.matched entries (hentries _ hmem),
      fun e he hflag => ?_, fun client hclient => (h.sound client hclient).mono fun e he => ?_⟩
    · have := h.settled e he hflag
      exact ⟨this.committed, this.applied, this.logged⟩
    · exact ⟨he.committed, he.applied, he.logged⟩
  cases event with
  | call c => exact h.call hok hs
  | enterReady =>
    obtain ⟨entries, hready, hnone, rfl⟩ := step_enterReady hs
    refine hcritical (h.pipeline.enterReady hready) fun entries' hentries => .inl ?_
    rcases hentries with hentries | hentries
    · cases hentries
    · obtain rfl : entries' = entries := by simpa [raftReadyHandler] using hentries
      exact hready
  | readLastIndex =>
    rcases step_readLastIndex hs with rfl | ⟨_, rfl⟩
    · exact h
    · exact hcritical ⟨h.pipeline.ready, h.pipeline.last, h.pipeline.handled⟩ fun _ => id
  | enterSnapshot =>
    obtain ⟨n, _, hnone, rfl⟩ := step_enterSnapshot hs
    refine hcritical ⟨h.pipeline.ready, fun a ha => ?_, fun entries ha => ?_⟩ fun entries hmem => ?_
    · rcases List.mem_pair.mp ha with rfl | rfl
      · rfl
      · rfl
    · simp [takeSnapshot] at ha
    · exact hmem.imp id fun hmem => by simp [takeSnapshot] at hmem
  | act => exact h.act hs
  | request request => exact h.request hok hs
  | compare i => exact h.compare hs
  | execute i => exact h.execute hok hs
  | wake i => exact h.wake hok hs
  | restart closed => exact .start (Option.ite_none_left_eq_some.mp hs).2

end Tracked

/-- In every run from a start on any disk, loss of leadership and elapsed waits included, what
clients are told is so. -/
theorem acknowledged_settled {config : ClusterConfig} {disk : Disk} {backendFile : Option Bytes}
    {s₀ s : KVServer} (hstart : start config disk backendFile = some s₀)
    (hrun : Run step (fun s event => s.Confirms event = true) s₀ s) : s.Honest := by
  have h := hrun.invariant (P := Tracked) (fun h hok hs => h.step hok hs) (.start hstart)
  exact fun client hclient => (h.sound client hclient).honest

/-- A put on a server alone, answered when its entry has gone through the handler. -/
def answeredPut : List Event :=
  [.call .becomeCandidate, .call .becomeLeader, .request (.put [107] [97] 0),
    .call .advanceCommitIndex, .call .applyCommittedEntries, .enterReady, .act, .act, .act, .act,
    .wake 0]

theorem acknowledged_settled_answeredPut :
    ∃ s, Run step (fun s event => s.Confirms event = true) (fresh {}) s ∧
      s.clients.map Client.stage =
        [.succeeded { term := 1, index := 1, key := [107], value := [97] }] ∧ s.Honest := by
  obtain ⟨s, hrun, hstage⟩ := reachable_of_execute step
    (fun s event => s.Confirms event = true) (fresh {}) answeredPut
    (P := fun s => s.clients.map Client.stage =
      [.succeeded { term := 1, index := 1, key := [107], value := [97] }]) (by decide)
  exact ⟨s, hrun, hstage, acknowledged_settled (start_fresh {}) hrun⟩

def threeNodes : ClusterConfig where
  peerAddresses := (OrderedMap.insert ∅ 2 []).insert 3 []

/-- A transaction before the election, and a put after it whose time runs out. -/
def impatient : List Event :=
  [.request (.txn [] [{ type := .put, key := [107], value := [97] }] []), .compare 0, .execute 0,
    .execute 0, .call .becomeCandidate, .call .becomeLeader, .request (.put [107] [98] 0), .wake 1]

/-- The transaction reports an operation that was refused, and the put succeeds with an entry that
has not been committed. -/
theorem impatient_answers :
    ∃ s, Run step (fun _ _ => True) (fresh threeNodes) s ∧
      s.clients.map Client.stage = [.reported true [none],
        .succeeded { term := 1, index := 1, key := [107], value := [98] }] ∧
      s.node.delivered = [] ∧ ¬ s.Honest := by
  obtain ⟨s, hrun, hstages, hnone⟩ := reachable_of_execute step (fun _ _ => True)
    (fresh threeNodes) impatient
    (P := fun s => s.clients.map Client.stage = [.reported true [none],
        .succeeded { term := 1, index := 1, key := [107], value := [98] }] ∧
      s.node.delivered = []) (by decide)
  refine ⟨s, hrun, hstages, hnone, fun h => ?_⟩
  have hmem : Stage.succeeded { term := 1, index := 1, key := [107], value := [98] } ∈
      s.clients.map Client.stage := by simp [hstages]
  obtain ⟨client, hclient, hstage⟩ := List.mem_map.mp hmem
  have hhonest := h client hclient
  rw [Client.Honest, hstage] at hhonest
  obtain ⟨_, _, _, hsettled⟩ := hhonest
  have := hsettled.committed
  rw [hnone] at this
  cases this

end KVServer
end MyEtcd
