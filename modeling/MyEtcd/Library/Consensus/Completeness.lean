import MyEtcd.Library.Consensus.LogMatching

/-! Leader completeness and agreement on what is committed.
An entry a majority may still acknowledge in its own term is in every later leader's log, as long
as no node drops entries that do not conflict with what it stores. -/
namespace MyEtcd.Library.Consensus
variable {N E : Type}

/-- The ledger of `t` has an entry of its own term at position `i`, counted from one. -/
def OwnEntry (tm : E → Nat) (s : Protocol N E) (t i : Nat) : Prop :=
  1 ≤ i ∧ ∃ e, (s.ledger t)[i - 1]? = some e ∧ tm e = t

/-- Such an entry, acknowledged by a majority in its own term. -/
structure Committed (members : Finset N) (tm : E → Nat) (s : Protocol N E) (t i : Nat) : Prop where
  own : OwnEntry tm s t i
  acked : ∃ Q, Majority members Q ∧ ∀ q ∈ Q, i ≤ s.acked t q

/-- Such an entry, acknowledged by a majority or still open to it. -/
structure Choosable (members : Finset N) (tm : E → Nat) (s : Protocol N E) (t i : Nat) : Prop where
  own : OwnEntry tm s t i
  acked : ∃ Q, Majority members Q ∧ ∀ q ∈ Q, i ≤ s.acked t q ∨ s.term q ≤ t

theorem Committed.choosable {members : Finset N} {tm : E → Nat} {s : Protocol N E} {t i : Nat}
    (h : Committed members tm s t i) : Choosable members tm s t i := by
  obtain ⟨Q, hQ, hacked⟩ := h.acked
  exact ⟨h.own, Q, hQ, fun q hq => .inl (hacked q hq)⟩

/-- Where entries that may be chosen are found in later terms. -/
structure Durable (members : Finset N) (tm : E → Nat) (s : Protocol N E) : Prop where
  held : ∀ {t i p}, Choosable members tm s t i → i ≤ s.acked t p →
    (s.log p).take i = (s.ledger t).take i
  voted : ∀ {t i p t' c L}, Choosable members tm s t i → i ≤ s.acked t p →
    s.ballot t' p = some (c, L) → t < t' → L.take i = (s.ledger t).take i
  safe : ∀ {t i t' c}, Choosable members tm s t i → t < t' → s.leader t' = some c →
    (s.ledger t').take i = (s.ledger t).take i

theorem durable_initial (members : Finset N) (tm : E → Nat) :
    Durable members tm (Protocol.initial : Protocol N E) where
  held h := by
    obtain ⟨_, _, he, _⟩ := h.own
    simp [Protocol.initial] at he
  voted _ _ hb := by cases hb
  safe _ _ hl := by cases hl

variable {members : Finset N} {tm : E → Nat} {s : Protocol N E}

theorem OwnEntry.le_length {t i : Nat} (h : OwnEntry tm s t i) : i ≤ (s.ledger t).length := by
  obtain ⟨_, _, he, _⟩ := h
  have := (List.getElem?_eq_some_iff.mp he).1
  omega

theorem OwnEntry.elected_lt (h : Coherent members tm s) {t i : Nat} (ho : OwnEntry tm s t i) :
    (s.elected t).length < i := by
  obtain ⟨hi, e, he, ht⟩ := ho
  by_contra hle
  have hlt : i - 1 < (s.elected t).length := by omega
  rw [← getElem?_of_take_eq (take_eq_of_isPrefix (h.elected_isPrefix t) le_rfl).symm hlt] at he
  exact (h.elected_term (List.mem_of_getElem? he)).ne ht

theorem OwnEntry.leader (h : Coherent members tm s) {t i : Nat} (ho : OwnEntry tm s t i) :
    ∃ c, s.leader t = some c := by
  cases hl : s.leader t with
  | some c => exact ⟨c, rfl⟩
  | none =>
    have := ho.le_length
    rw [(h.vacant hl).2, List.length_nil] at this
    exact absurd ho.1 (by omega)

/-- A list that starts like the ledger up to an own entry reaches the ledger's term there. -/
theorem OwnEntry.le_lastTerm (h : Coherent members tm s) {t i : Nat} (ho : OwnEntry tm s t i)
    {l : List E} (hl : Traced tm s l) (htake : l.take i = (s.ledger t).take i) :
    i ≤ l.length ∧ ∃ e, l.getLast? = some e ∧ t ≤ tm e := by
  have hlen := congrArg List.length htake
  have hle := ho.le_length
  simp only [List.length_take] at hlen
  obtain ⟨hi, x, hx, ht⟩ := ho
  rw [← getElem?_of_take_eq htake (by omega)] at hx
  have hlt : l.length - 1 < l.length := by omega
  have hlast := List.getElem?_eq_getElem hlt
  refine ⟨by omega, _, List.getLast?_eq_getElem?.trans hlast, ?_⟩
  exact ht ▸ h.sorted hl hx hlast (by omega)

namespace Durable

/-- Once somebody leads a later term, an entry not yet acknowledged by a majority never is. -/
theorem overlap [DecidableEq N] (h : Coherent members tm s) {t i t' : Nat} {c : N}
    (hc : Choosable members tm s t i) (ht : t < t') {Q : Finset N} (hQ : Majority members Q)
    (hv : ∀ v ∈ Q, ∃ L, s.ballot t' v = some (c, L)) :
    ∃ v L, v ∈ Q ∧ s.ballot t' v = some (c, L) ∧ i ≤ s.acked t v := by
  obtain ⟨R, hR, hacked⟩ := hc.acked
  obtain ⟨v, hvQ, hvR⟩ := hQ.meet hR
  obtain ⟨L, hL⟩ := hv v hvQ
  refine ⟨v, L, hvQ, hL, ?_⟩
  have := (h.ballot_bound hL).1
  rcases hacked v hvR with hle | hle
  · exact hle
  · omega

variable [DecidableEq N]

/-- The comparison of logs makes a winner hold what its voters have acknowledged. -/
theorem winner_holds (h : Coherent members tm s) (hd : Durable members tm s) {c : N}
    {quorum : Finset N} (vacant : s.leader (s.term c) = none) (large : Majority members quorum)
    (votes : ∀ v ∈ quorum, ∃ L, s.ballot (s.term c) v = some (c, L)) {t i : Nat}
    (hc : Choosable members tm s t i) (ht : t < s.term c) :
    (s.log c).take i = (s.ledger t).take i := by
  obtain ⟨v, L, hvQ, hL, hacked⟩ := overlap h hc ht large votes
  have hvoter := hd.voted hc hacked hL ht
  obtain ⟨L', hL', hup⟩ := h.ballot_candidate hL vacant
  rw [← h.ballot_current hL' vacant] at hup
  obtain ⟨hi, x, hx, htx⟩ := hc.own.le_lastTerm h (h.ballot_traced hL) hvoter
  rw [UpToDate, Coherent.lastTerm_of_getLast? hx] at hup
  cases hlast : (s.log c).getLast? with
  | none =>
    -- an empty log is never up to date here: the voter's last term is positive
    have hzero : lastTerm tm (s.log c) = 0 := by simp [lastTerm, hlast]
    have hpos := h.entry_term_pos (h.ballot_traced hL) (List.mem_of_getLast? hx)
    omega
  | some y =>
    rw [Coherent.lastTerm_of_getLast? hlast] at hup
    have hlogc := Coherent.eq_take_ledger (h.log_traced c) hlast
    rcases hup with hlt | ⟨heq, hlen⟩
    · -- the candidate's last term is later, and its leader already had the entry
      obtain ⟨hy, _⟩ := h.log_traced c _ y (List.getLast?_eq_getElem?.symm.trans hlast)
      obtain ⟨d, hlead⟩ := hy
      have hsafe := hd.safe hc (lt_of_le_of_lt htx hlt) hlead
      have hlong : i ≤ (s.log c).length := by
        by_contra hshort
        have hpos : 0 < (s.log c).length := List.length_pos_of_ne_nil (by
          rintro hnil
          simp [hnil] at hlast)
        have hylast : (s.ledger (tm y))[(s.log c).length - 1]? = some y := by
          rw [← getElem?_of_take_eq (n := (s.log c).length) _ (by omega)]
          · exact List.getLast?_eq_getElem?.symm.trans hlast
          · rw [List.take_length]
            exact hlogc
        rw [getElem?_of_take_eq hsafe (by omega)] at hylast
        have := h.ledger_term hylast
        omega
      calc (s.log c).take i
          = ((s.ledger (tm y)).take (s.log c).length).take i := by rw [← hlogc]
        _ = (s.ledger (tm y)).take i := by rw [List.take_take, Nat.min_eq_left hlong]
        _ = (s.ledger t).take i := hsafe
    · -- both last entries are of one term, and the voter's log is the shorter prefix
      have hlogv := Coherent.eq_take_ledger (h.ballot_traced hL) hx
      calc (s.log c).take i
          = ((s.ledger (tm y)).take (s.log c).length).take i := by rw [← hlogc]
        _ = (s.ledger (tm y)).take i := by rw [List.take_take, Nat.min_eq_left (by omega)]
        _ = ((s.ledger (tm x)).take L.length).take i := by
            rw [heq, List.take_take, Nat.min_eq_left hi]
        _ = (s.ledger t).take i := by rw [← hlogv, hvoter]

private theorem raise (hd : Durable members tm s) {p : N} {t : Nat} (later : s.term p < t) :
    Durable members tm (s.raiseTerm p t) := by
  have hback {t' i : Nat} (hc : Choosable members tm (s.raiseTerm p t) t' i) :
      Choosable members tm s t' i := by
    obtain ⟨ho, Q, hQ, hacked⟩ := hc
    refine ⟨ho, Q, hQ, fun q hq => (hacked q hq).imp id fun hle => ?_⟩
    rcases eq_or_ne q p with rfl | hne
    · simp only [Protocol.raiseTerm, Function.update_self] at hle
      omega
    · simpa [Protocol.raiseTerm, hne] using hle
  exact {
    held := fun hc ha => hd.held (hback hc) ha
    voted := fun hc ha hb ht => hd.voted (hback hc) ha hb ht
    safe := fun hc ht hl => hd.safe (hback hc) ht hl }

private theorem vote (hd : Durable members tm s) {p c : N} :
    Durable members tm (s.castBallot p c) := by
  have hback {t i : Nat} (hc : Choosable members tm (s.castBallot p c) t i) :
      Choosable members tm s t i := ⟨hc.own, hc.acked⟩
  exact {
    held := fun hc ha => hd.held (hback hc) ha
    voted := fun {t i q t' d L} hc ha hb ht => by
      unfold Protocol.castBallot at hb
      dsimp only at hb
      split_ifs at hb with heq
      · obtain ⟨rfl, rfl⟩ := heq
        obtain ⟨rfl, rfl⟩ : c = d ∧ s.log q = L := by simpa using hb
        exact hd.held (hback hc) ha
      · exact hd.voted (hback hc) ha hb ht
    safe := fun hc ht hl => hd.safe (hback hc) ht hl }

private theorem elect (h : Coherent members tm s) (hd : Durable members tm s) {c : N}
    {quorum : Finset N} (vacant : s.leader (s.term c) = none) (large : Majority members quorum)
    (own : c ∈ quorum) (votes : ∀ v ∈ quorum, ∃ L, s.ballot (s.term c) v = some (c, L)) :
    Durable members tm (s.install c) := by
  have hs : Step members tm False s (s.install c) := .elect vacant large own votes
  have hnew := h.step hs
  -- the new leader's ledger has no entry of its own term yet
  have hne {t i : Nat} (hc : Choosable members tm (s.install c) t i) : t ≠ s.term c := by
    rintro rfl
    have := hc.own.elected_lt hnew
    have := hc.own.le_length
    simp only [Protocol.install, Function.update_self] at *
    omega
  have hledger {t : Nat} (ht : t ≠ s.term c) : (s.install c).ledger t = s.ledger t := by
    simp [Protocol.install, ht]
  have hackedEq {t : Nat} (ht : t ≠ s.term c) (q : N) : (s.install c).acked t q = s.acked t q := by
    simp [Protocol.install, ht]
  have hback {t i : Nat} (hc : Choosable members tm (s.install c) t i) :
      Choosable members tm s t i := by
    have ht := hne hc
    obtain ⟨ho, Q, hQ, hacked⟩ := hc
    rw [OwnEntry, hledger ht] at ho
    exact ⟨ho, Q, hQ, fun q hq => (hacked q hq).imp (hackedEq ht q ▸ id) id⟩
  exact {
    held := fun {t i p} hc ha => by
      rw [hackedEq (hne hc)] at ha
      rw [hledger (hne hc)]
      exact hd.held (hback hc) ha
    voted := fun {t i p t' d L} hc ha hb ht => by
      rw [hackedEq (hne hc)] at ha
      rw [hledger (hne hc)]
      exact hd.voted (hback hc) ha hb ht
    safe := fun {t i t' d} hc ht hl => by
      rw [hledger (hne hc)]
      rcases eq_or_ne t' (s.term c) with rfl | hne'
      · rw [show (s.install c).ledger (s.term c) = s.log c by simp [Protocol.install]]
        exact winner_holds h hd vacant large votes (hback hc) ht
      · rw [hledger hne']
        refine hd.safe (c := d) (hback hc) ht ?_
        simpa [Protocol.install, hne'] using hl }

private theorem append (h : Coherent members tm s) (hd : Durable members tm s) {c : N} {e : E}
    (leads : s.leader (s.term c) = some c) (current : tm e = s.term c) :
    Durable members tm (s.extend c e) := by
  have hs : Step members tm False s (s.extend c e) := .append leads current
  have hnew := h.step hs
  have hpre (t : Nat) : s.ledger t <+: (s.extend c e).ledger t := by
    rcases eq_or_ne t (s.term c) with rfl | ht
    · simp [Protocol.extend]
    · simp [Protocol.extend, ht]
  have hacked {t i : Nat} {p : N} (hi : i ≤ (s.ledger t).length)
      (ha : i ≤ (s.extend c e).acked t p) : i ≤ s.acked t p := by
    by_cases heq : t = s.term c ∧ p = c
    · rw [heq.1, heq.2, h.leader_acked leads, ← heq.1]
      exact hi
    · simpa [Protocol.extend, heq] using ha
  -- an entry of the new state is an old one or the one just appended
  have hcases {t i : Nat} (hc : Choosable members tm (s.extend c e) t i) :
      Choosable members tm s t i ∨ t = s.term c ∧ (s.ledger t).length < i := by
    rcases Nat.lt_or_ge (s.ledger t).length i with hlt | hle
    · refine .inr ⟨?_, hlt⟩
      by_contra ht
      have := hc.own.le_length
      simp only [Protocol.extend, Function.update_of_ne ht] at this
      omega
    · obtain ⟨⟨hpos, x, hx, htx⟩, Q, hQ, ha⟩ := hc
      have htake := take_eq_of_isPrefix (hpre t) hle
      rw [getElem?_of_take_eq htake (by omega)] at hx
      exact .inl ⟨⟨hpos, x, hx, htx⟩, Q, hQ, fun q hq => (ha q hq).imp (hacked hle) id⟩
  have hlog : (s.extend c e).log c = s.log c ++ [e] := by simp [Protocol.extend]
  have hlogTake {p : N} {i : Nat} (hi : i ≤ (s.log p).length) :
      ((s.extend c e).log p).take i = (s.log p).take i := by
    rcases eq_or_ne p c with rfl | hp
    · rw [hlog, List.take_append_of_le_length hi]
    · simp [Protocol.extend, hp]
  have hend : (s.extend c e).acked (s.term c) c = (s.ledger (s.term c)).length + 1 := by
    simp [Protocol.extend, h.leader_log leads]
  -- only the leader itself has acknowledged the new entry, and it is in no later term
  have honly {i : Nat} {p : N} (hi : (s.ledger (s.term c)).length < i)
      (ha : i ≤ (s.extend c e).acked (s.term c) p) : p = c := by
    by_contra hp
    have := h.acked_le (s.term c) p
    simp only [Protocol.extend, hp, and_false, if_false] at ha
    omega
  exact {
    held := fun {t i p} hc ha => by
      rcases hcases hc with hold | ⟨rfl, hi⟩
      · have hle := hold.own.le_length
        have htake := hd.held hold (hacked hle ha)
        have hlen := congrArg List.length htake
        simp only [List.length_take] at hlen
        rw [hlogTake (by omega), htake, take_eq_of_isPrefix (hpre t) hle]
      · obtain rfl := honly hi ha
        rw [hnew.leader_log (p := p) leads]
        rfl
    voted := fun {t i p t' d L} hc ha hb ht => by
      rcases hcases hc with hold | ⟨rfl, hi⟩
      · have hle := hold.own.le_length
        rw [hd.voted hold (hacked hle ha) hb ht, take_eq_of_isPrefix (hpre t) hle]
      · obtain rfl := honly hi ha
        exact absurd (h.ballot_bound hb).1 (by omega)
    safe := fun {t i t' d} hc ht hl => by
      have htne : s.ledger t' <+: (s.extend c e).ledger t' := hpre t'
      rcases hcases hc with hold | ⟨rfl, hi⟩
      · have hle := hold.own.le_length
        have hsafe := hd.safe hold ht hl
        have hlen := congrArg List.length hsafe
        simp only [List.length_take] at hlen
        rw [take_eq_of_isPrefix htne (by omega), hsafe, take_eq_of_isPrefix (hpre t) hle]
      · -- somebody already leads a later term: its voters can no longer acknowledge the entry
        obtain ⟨Q, hQ, _, hv⟩ := hnew.leader_quorum hl
        obtain ⟨v, L, _, hL, ha⟩ := overlap hnew hc ht hQ fun v hv' =>
          (hv v hv').imp fun _ hL => hL.1
        obtain rfl := honly hi ha
        exact absurd (hnew.ballot_bound hL).1 (not_le.mpr ht) }

omit [DecidableEq N] in
/-- A node that stores entries carefully keeps what it has in common with the ledger. -/
theorem received_take (h : Coherent members tm s) {p : N} {k j i : Nat}
    (agree : AgreeAt tm k (s.log p) (s.ledger (s.term p)))
    (careful : k < j → (s.log p).length ≤ j ∨ Conflict tm k j (s.log p) (s.ledger (s.term p)))
    (hi : i ≤ (s.log p).length) (htake : (s.log p).take i = (s.ledger (s.term p)).take i) :
    (s.received p k j).take i = (s.ledger (s.term p)).take i := by
  rcases Nat.lt_or_ge k j with hkj | hkj
  · have hij : i ≤ j := by
      rcases careful hkj with hle | ⟨m, hkm, hmj, x, y, hx, hy, hne⟩
      · omega
      · by_contra hlt
        rw [getElem?_of_take_eq htake (by omega), hy] at hx
        exact hne (by rw [Option.some.inj hx])
    rw [h.received_eq hkj agree, List.take_take, Nat.min_eq_left hij]
  · rw [Protocol.received, if_neg (by omega), htake]

omit [DecidableEq N] in
/-- A node that stores entries up to `j` has the ledger's first `j` entries afterwards. -/
theorem received_ledger (h : Coherent members tm s) {p : N} {k j : Nat} (order : k ≤ j)
    (agree : AgreeAt tm k (s.log p) (s.ledger (s.term p))) :
    (s.received p k j).take j = (s.ledger (s.term p)).take j := by
  rcases order.lt_or_eq with hkj | rfl
  · rw [h.received_eq hkj agree, List.take_take, Nat.min_self]
  · rw [Protocol.received, if_neg (lt_irrefl k)]
    exact (h.log_traced p).take_of_agreeAt (h.ledger_traced (s.term p)) agree

private theorem accept (h : Coherent members tm s) (hd : Durable members tm s) {p c : N} {k j : Nat}
    (led : s.leader (s.term p) = some c) (order : k ≤ j)
    (agree : AgreeAt tm k (s.log p) (s.ledger (s.term p)))
    (careful : k < j → (s.log p).length ≤ j ∨ Conflict tm k j (s.log p) (s.ledger (s.term p))) :
    Durable members tm (s.store p k j) := by
  have hback {t i : Nat} (hc : Choosable members tm (s.store p k j) t i) :
      Choosable members tm s t i := by
    obtain ⟨ho, Q, hQ, ha⟩ := hc
    refine ⟨ho, Q, hQ, fun q hq => ?_⟩
    by_cases heq : t = s.term p ∧ q = p
    · exact .inr (heq.1 ▸ heq.2 ▸ le_rfl)
    · simpa [Protocol.store, heq] using ha q hq
  have hackedCases {t i : Nat} {q : N} (ha : i ≤ (s.store p k j).acked t q) :
      i ≤ s.acked t q ∨ t = s.term p ∧ q = p ∧ i ≤ j := by
    by_cases heq : t = s.term p ∧ q = p
    · simp only [Protocol.store, heq, and_self, if_true, le_max_iff] at ha
      rw [heq.1, heq.2]
      exact ha.imp id fun hle => ⟨rfl, rfl, hle⟩
    · exact .inl (by simpa [Protocol.store, heq] using ha)
  have hlog : (s.store p k j).log p = s.received p k j := by simp [Protocol.store]
  exact {
    held := fun {t i q} hc ha => by
      have hold := hback hc
      change ((s.store p k j).log q).take i = (s.ledger t).take i
      rcases hackedCases ha with hle | ⟨rfl, rfl, hij⟩
      · have htake := hd.held hold hle
        rcases eq_or_ne q p with rfl | hq
        · have hterm : t ≤ s.term q := h.acked_term (by
            have := hold.own.1
            omega)
          have hledger : (s.ledger (s.term q)).take i = (s.ledger t).take i := by
            rcases hterm.lt_or_eq with hlt | rfl
            · exact hd.safe hold hlt led
            · rfl
          have hlen := congrArg List.length htake
          have := hold.own.le_length
          simp only [List.length_take] at hlen
          rw [hlog, received_take h agree careful (by omega) (htake.trans hledger.symm), hledger]
        · simpa [Protocol.store, hq] using htake
      · rw [hlog]
        exact take_eq_mono (received_ledger h order agree) hij
    voted := fun {t i q t' d L} hc ha hb ht => by
      rcases hackedCases ha with hle | ⟨rfl, rfl, _⟩
      · exact hd.voted (hback hc) hle hb ht
      · exact absurd (h.ballot_bound hb).1 (by omega)
    safe := fun hc ht hl => hd.safe (hback hc) ht hl }

/-- Every careful step keeps what may be chosen durable. -/
theorem step (h : Coherent members tm s) (hd : Durable members tm s) {s' : Protocol N E}
    (hs : Step members tm True s s') : Durable members tm s' := by
  cases hs with
  | raise later => exact hd.raise later
  | vote _ _ _ _ => exact hd.vote
  | elect vacant large own votes => exact elect h hd vacant large own votes
  | append leads current => exact append h hd leads current
  | accept led other order stored agree careful =>
    exact accept h hd led order agree (careful trivial)

theorem steps (h : Coherent members tm s) (hd : Durable members tm s) {s' : Protocol N E}
    (hs : Steps members tm True s s') : Durable members tm s' := by
  induction hs with
  | refl => exact hd
  | tail hbefore hstep ih => exact ih.step (h.steps hbefore).1 hstep

omit [DecidableEq N] in
/-- Whatever is committed in one term is in the ledger of every later term that has a leader. -/
theorem complete (hd : Durable members tm s) {t i t' : Nat} {c : N}
    (hc : Committed members tm s t i) (ht : t ≤ t') (hl : s.leader t' = some c) :
    (s.ledger t').take i = (s.ledger t).take i := by
  rcases ht.lt_or_eq with hlt | rfl
  · exact hd.safe hc.choosable hlt hl
  · rfl

omit [DecidableEq N] in
/-- Two ledgers hold the same entry wherever both have committed. -/
theorem agree (h : Coherent members tm s) (hd : Durable members tm s) {t i t' j m : Nat}
    (hc : Committed members tm s t i) (hc' : Committed members tm s t' j) (hi : m < i)
    (hj : m < j) : (s.ledger t)[m]? = (s.ledger t')[m]? := by
  obtain ⟨c, hl⟩ := hc.own.leader h
  obtain ⟨c', hl'⟩ := hc'.own.leader h
  rcases Nat.le_total t t' with ht | ht
  · exact (getElem?_of_take_eq (hd.complete hc ht hl') hi).symm
  · exact getElem?_of_take_eq (hd.complete hc' ht hl) hj

end Durable

/-- The first `i` entries of the list are committed, by an entry of a term up to `T`. -/
def Sealed (members : Finset N) (tm : E → Nat) (s : Protocol N E) (T : Nat) (l : List E)
    (i : Nat) : Prop :=
  i = 0 ∨ ∃ t j, t ≤ T ∧ Committed members tm s t j ∧ i ≤ j ∧ i ≤ l.length ∧
    l.take i = (s.ledger t).take i

theorem Committed.grows {s' : Protocol N E} (h : Coherent members tm s) (hg : Grows s s') {t i : Nat}
    (hc : Committed members tm s t i) : Committed members tm s' t i := by
  obtain ⟨c, hl⟩ := hc.own.leader h
  obtain ⟨Q, hQ, ha⟩ := hc.acked
  obtain ⟨hi, e, he, ht⟩ := hc.own
  exact ⟨⟨hi, e, getElem?_of_isPrefix (hg.leader hl).2.2 he, ht⟩, Q, hQ,
    fun q hq => (ha q hq).trans (hg.acked t q)⟩

namespace Sealed
variable {T i : Nat} {l : List E}

theorem grows {s' : Protocol N E} (h : Coherent members tm s) (hg : Grows s s')
    (hs : Sealed members tm s T l i) : Sealed members tm s' T l i := by
  rcases hs with rfl | ⟨t, j, ht, hc, hij, hil, htake⟩
  · exact .inl rfl
  · obtain ⟨c, hl⟩ := hc.own.leader h
    have := hc.own.le_length
    refine .inr ⟨t, j, ht, hc.grows h hg, hij, hil, ?_⟩
    rw [htake, take_eq_of_isPrefix (hg.leader hl).2.2 (by omega)]

theorem later {T' : Nat} (hT : T ≤ T') (hs : Sealed members tm s T l i) :
    Sealed members tm s T' l i := by
  rcases hs with rfl | ⟨t, j, ht, rest⟩
  · exact .inl rfl
  · exact .inr ⟨t, j, ht.trans hT, rest⟩

theorem of_take {l' : List E} (htake : l'.take i = l.take i) (hs : Sealed members tm s T l i) :
    Sealed members tm s T l' i := by
  rcases hs with rfl | ⟨t, j, ht, hc, hij, hil, heq⟩
  · exact .inl rfl
  · have hlen := congrArg List.length htake
    simp only [List.length_take] at hlen
    exact .inr ⟨t, j, ht, hc, hij, by omega, htake.trans heq⟩

theorem smaller {i' : Nat} (hi : i' ≤ i) (hs : Sealed members tm s T l i) :
    Sealed members tm s T l i' := by
  rcases hs with rfl | ⟨t, j, ht, hc, hij, hil, heq⟩
  · exact .inl (by omega)
  · exact .inr ⟨t, j, ht, hc, by omega, by omega, take_eq_mono heq hi⟩

theorem le_length (hs : Sealed members tm s T l i) : i ≤ l.length := by
  rcases hs with rfl | ⟨_, _, _, _, _, hil, _⟩
  · exact Nat.zero_le _
  · exact hil

/-- A sealed prefix is the same in the ledger of every term from `T` on that has a leader. -/
theorem take_ledger (hd : Durable members tm s) (hs : Sealed members tm s T l i) {T' : Nat} {c : N}
    (hT : T ≤ T') (hl : s.leader T' = some c) : l.take i = (s.ledger T').take i := by
  rcases hs with rfl | ⟨t, j, ht, hc, hij, hil, heq⟩
  · simp
  · exact heq.trans (take_eq_mono (hd.complete hc (ht.trans hT) hl) hij).symm

/-- Two sealed prefixes of one length are the same. -/
theorem agree (h : Coherent members tm s) (hd : Durable members tm s) {T' : Nat} {l' : List E}
    (hs : Sealed members tm s T l i) (hs' : Sealed members tm s T' l' i) : l.take i = l'.take i := by
  rcases hs with rfl | ⟨t, j, _, hc, hij, _, heq⟩
  · simp
  rcases hs' with rfl | ⟨t', j', _, hc', hij', _, heq'⟩
  · simp
  rw [heq, heq']
  refine List.ext_getElem? fun m => ?_
  rw [List.getElem?_take, List.getElem?_take]
  split_ifs with hm
  · exact hd.agree h hc hc' (by omega) (by omega)
  · rfl

end Sealed

end MyEtcd.Library.Consensus
