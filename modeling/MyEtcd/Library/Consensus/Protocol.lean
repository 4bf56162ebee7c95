import Mathlib.Data.Finset.Card
import Mathlib.Logic.Function.Basic
import Mathlib.Logic.Relation
import MyEtcd.Library.Majority

/-! Leader-based log replication, stripped to what its safety rests on.
Nodes and entries are arbitrary types; `tm` is the term an entry was created in. Next to the terms
and logs of the nodes the state keeps the whole history of votes, leaders and acknowledgements. -/
namespace MyEtcd.Library.Consensus
variable {N E : Type}

/-- Nodes' terms and logs, and what has happened in every term so far. -/
structure Protocol (N E : Type) where
  term : N → Nat
  log : N → List E
  /-- The candidate a node voted for in a term, and the log it voted with. -/
  ballot : Nat → N → Option (N × List E)
  leader : Nat → Option N
  /-- The leader's log when it was elected, and as far as it has grown since. -/
  elected : Nat → List E
  ledger : Nat → List E
  /-- How much of the ledger of a term a node has acknowledged. -/
  acked : Nat → N → Nat

def lastTerm (tm : E → Nat) (l : List E) : Nat := (l.getLast?.map tm).getD 0

/-- The comparison a voter makes between the candidate's log and its own. -/
def UpToDate (tm : E → Nat) (candidate voter : List E) : Prop :=
  lastTerm tm voter < lastTerm tm candidate ∨
  lastTerm tm candidate = lastTerm tm voter ∧ voter.length ≤ candidate.length

/-- Both lists reach position `k` and have the same term there. -/
def AgreeAt (tm : E → Nat) (k : Nat) (a b : List E) : Prop :=
  k = 0 ∨ ∃ x y, a[k - 1]? = some x ∧ b[k - 1]? = some y ∧ tm x = tm y

/-- Some position from `k` up to `j` has different terms in the two lists. -/
def Conflict (tm : E → Nat) (k j : Nat) (a b : List E) : Prop :=
  ∃ m, k ≤ m ∧ m < j ∧ ∃ x y, a[m]? = some x ∧ b[m]? = some y ∧ tm x ≠ tm y

/-- What no step ever takes back. -/
structure Grows (s s' : Protocol N E) : Prop where
  term : ∀ p, s.term p ≤ s'.term p
  ballot : ∀ {t p b}, s.ballot t p = some b → s'.ballot t p = some b
  leader : ∀ {t c}, s.leader t = some c →
    s'.leader t = some c ∧ s'.elected t = s.elected t ∧ s.ledger t <+: s'.ledger t
  acked : ∀ t p, s.acked t p ≤ s'.acked t p

theorem Grows.refl (s : Protocol N E) : Grows s s where
  term _ := le_rfl
  ballot h := h
  leader h := ⟨h, rfl, List.prefix_rfl⟩
  acked _ _ := le_rfl

theorem Grows.trans {a b c : Protocol N E} (h : Grows a b) (h' : Grows b c) : Grows a c where
  term p := (h.term p).trans (h'.term p)
  ballot hb := h'.ballot (h.ballot hb)
  leader hl := by
    obtain ⟨hb, heb, hpb⟩ := h.leader hl
    obtain ⟨hc, hec, hpc⟩ := h'.leader hb
    exact ⟨hc, hec.trans heb, hpb.trans hpc⟩
  acked t p := (h.acked t p).trans (h'.acked t p)

/-- What is read off a prefix stays when the prefix is part of a longer list. -/
theorem take_eq_of_isPrefix {a b : List E} (h : a <+: b) {n : Nat} (hn : n ≤ a.length) :
    b.take n = a.take n := by
  obtain ⟨rest, rfl⟩ := h
  exact List.take_append_of_le_length hn

theorem getElem?_of_isPrefix {a b : List E} (h : a <+: b) {i : Nat} {e : E} (he : a[i]? = some e) :
    b[i]? = some e := by
  obtain ⟨rest, rfl⟩ := h
  rw [List.getElem?_append_left (List.getElem?_eq_some_iff.mp he).1]
  exact he

/-- Lists with a common prefix of length `n` hold the same elements before `n`. -/
theorem getElem?_of_take_eq {a b : List E} {n i : Nat} (h : a.take n = b.take n) (hi : i < n) :
    a[i]? = b[i]? := by
  have := congrArg (·[i]?) h
  simpa [List.getElem?_take, hi] using this

theorem take_eq_mono {a b : List E} {m n : Nat} (h : a.take n = b.take n) (hm : m ≤ n) :
    a.take m = b.take m := by
  have := congrArg (List.take m) h
  simpa [List.take_take, hm] using this

variable [DecidableEq N]

namespace Protocol

def initial : Protocol N E where
  term := fun _ => 0
  log := fun _ => []
  ballot := fun _ _ => none
  leader := fun _ => none
  elected := fun _ => []
  ledger := fun _ => []
  acked := fun _ _ => 0

variable (s : Protocol N E)

def raiseTerm (p : N) (t : Nat) : Protocol N E := { s with term := Function.update s.term p t }

def castBallot (p c : N) : Protocol N E :=
  { s with
    ballot := fun t q => if t = s.term p ∧ q = p then some (c, s.log p) else s.ballot t q }

def install (c : N) : Protocol N E :=
  { s with
    leader := Function.update s.leader (s.term c) (some c)
    elected := Function.update s.elected (s.term c) (s.log c)
    ledger := Function.update s.ledger (s.term c) (s.log c)
    acked := fun t q => if t = s.term c ∧ q = c then (s.log c).length else s.acked t q }

def extend (c : N) (e : E) : Protocol N E :=
  { s with
    log := Function.update s.log c (s.log c ++ [e])
    ledger := Function.update s.ledger (s.term c) (s.ledger (s.term c) ++ [e])
    acked := fun t q => if t = s.term c ∧ q = c then (s.log c).length + 1 else s.acked t q }

def extendAll (c : N) (entries : List E) : Protocol N E :=
  entries.foldl (fun s e => s.extend c e) s

/-- What a node does about the term it sees in a message. -/
def observe (p : N) (t : Nat) : Protocol N E := if s.term p < t then s.raiseTerm p t else s

/-- The log of `p` after it received the ledger's entries from position `k` up to `j`. -/
def received (p : N) (k j : Nat) : List E :=
  if k < j then (s.log p).take k ++ ((s.ledger (s.term p)).take j).drop k else s.log p

def store (p : N) (k j : Nat) : Protocol N E :=
  { s with
    log := Function.update s.log p (s.received p k j)
    acked := fun t q => if t = s.term p ∧ q = p then max (s.acked t q) j else s.acked t q }

end Protocol

/-- The steps of the protocol. With `K`, a node that stores entries never drops entries of its
own that do not conflict with them. -/
inductive Step (members : Finset N) (tm : E → Nat) (K : Prop) :
    Protocol N E → Protocol N E → Prop where
  | raise {s : Protocol N E} {p : N} {t : Nat} (later : s.term p < t) :
      Step members tm K s (s.raiseTerm p t)
  | vote {s : Protocol N E} {p c : N} (member : p ∈ members) (started : 0 < s.term p)
      (first : s.ballot (s.term p) p = none)
      (candidate : p = c ∨ ∃ L, s.ballot (s.term p) c = some (c, L) ∧
        (s.leader (s.term p) = none → UpToDate tm L (s.log p))) :
      Step members tm K s (s.castBallot p c)
  | elect {s : Protocol N E} {c : N} {quorum : Finset N} (vacant : s.leader (s.term c) = none)
      (large : Majority members quorum) (own : c ∈ quorum)
      (votes : ∀ v ∈ quorum, ∃ L, s.ballot (s.term c) v = some (c, L)) :
      Step members tm K s (s.install c)
  | append {s : Protocol N E} {c : N} {e : E} (leads : s.leader (s.term c) = some c)
      (current : tm e = s.term c) :
      Step members tm K s (s.extend c e)
  | accept {s : Protocol N E} {p c : N} {k j : Nat} (led : s.leader (s.term p) = some c)
      (other : p ≠ c) (order : k ≤ j) (stored : j ≤ (s.ledger (s.term p)).length)
      (agree : AgreeAt tm k (s.log p) (s.ledger (s.term p)))
      (careful : K → k < j → (s.log p).length ≤ j ∨
        Conflict tm k j (s.log p) (s.ledger (s.term p))) :
      Step members tm K s (s.store p k j)

abbrev Steps (members : Finset N) (tm : E → Nat) (K : Prop) :
    Protocol N E → Protocol N E → Prop := Relation.ReflTransGen (Step members tm K)

section
variable {members : Finset N} {tm : E → Nat} {K : Prop} {s : Protocol N E}

theorem steps_observe (p : N) (t : Nat) : Steps members tm K s (s.observe p t) := by
  unfold Protocol.observe
  split_ifs with hlater
  · exact .single (.raise hlater)
  · exact .refl

variable (members tm) in
/-- A batch of entries of the leader's term only changes the log, the ledger and the
acknowledgements. -/
theorem steps_extendAll {c : N} {entries : List E} (leads : s.leader (s.term c) = some c)
    (current : ∀ e ∈ entries, tm e = s.term c) :
    Steps members tm K s (s.extendAll c entries) ∧
    (s.extendAll c entries).term = s.term ∧ (s.extendAll c entries).leader = s.leader ∧
    (s.extendAll c entries).log c = s.log c ++ entries ∧
    ∀ p ≠ c, (s.extendAll c entries).log p = s.log p := by
  induction entries generalizing s with
  | nil => exact ⟨.refl, rfl, rfl, (List.append_nil _).symm, fun _ _ => rfl⟩
  | cons e rest ih =>
    obtain ⟨hsteps, hterm, hleader, hlog, hothers⟩ := ih (s := s.extend c e) leads
      (fun x hx => current x (List.mem_cons_of_mem _ hx))
    refine ⟨.head (.append leads (current e List.mem_cons_self)) hsteps, hterm, hleader, ?_, ?_⟩
    · refine hlog.trans ?_
      simp [Protocol.extend]
    · intro p hp
      refine (hothers p hp).trans ?_
      simp [Protocol.extend, hp]

end

end MyEtcd.Library.Consensus
