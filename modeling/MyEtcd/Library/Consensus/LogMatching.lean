import MyEtcd.Library.Consensus.Voting

/-! Election safety and log matching for the replication protocol.
Every entry is traced to the ledger of its term: a log and that ledger agree up to the entry.
Two logs that share an entry's position and term therefore agree up to it. -/
namespace MyEtcd.Library.Consensus
variable {N E : Type}

/-- Each entry's term has a leader, whose ledger agrees with the list up to the entry. -/
def Traced (tm : E → Nat) (s : Protocol N E) (l : List E) : Prop :=
  ∀ i e, l[i]? = some e →
    (∃ c, s.leader (tm e) = some c) ∧ l.take (i + 1) = (s.ledger (tm e)).take (i + 1)

theorem traced_nil (tm : E → Nat) (s : Protocol N E) : Traced tm s [] := by
  intro i e h
  simp at h

theorem Traced.mono {tm : E → Nat} {s s' : Protocol N E} (hg : Grows s s') {l : List E}
    (h : Traced tm s l) : Traced tm s' l := by
  intro i e he
  obtain ⟨⟨c, hc⟩, htake⟩ := h i e he
  obtain ⟨hc', _, hpre⟩ := hg.leader hc
  have hlen := congrArg List.length htake
  have hi := (List.getElem?_eq_some_iff.mp he).1
  simp only [List.length_take] at hlen
  exact ⟨⟨c, hc'⟩, htake.trans (take_eq_of_isPrefix hpre (by omega)).symm⟩

theorem Traced.take {tm : E → Nat} {s : Protocol N E} {l : List E} (h : Traced tm s l) (n : Nat) :
    Traced tm s (l.take n) := by
  intro i e he
  rw [List.getElem?_take] at he
  split_ifs at he with hi
  obtain ⟨hlead, htake⟩ := h i e he
  exact ⟨hlead, by rw [List.take_take, Nat.min_eq_left (by omega), htake]⟩

/-- Log matching: two traced lists with the same term at a position agree up to it. -/
theorem Traced.matching {tm : E → Nat} {s : Protocol N E} {a b : List E} (ha : Traced tm s a)
    (hb : Traced tm s b) {i : Nat} {x y : E} (hx : a[i]? = some x) (hy : b[i]? = some y)
    (ht : tm x = tm y) : a.take (i + 1) = b.take (i + 1) := by
  rw [(ha i x hx).2, (hb i y hy).2, ht]

/-- A list that agrees with another at `k` starts with the same `k` entries. -/
theorem Traced.take_of_agreeAt {tm : E → Nat} {s : Protocol N E} {a b : List E}
    (ha : Traced tm s a) (hb : Traced tm s b) {k : Nat} (h : AgreeAt tm k a b) :
    a.take k = b.take k := by
  rcases h with rfl | ⟨x, y, hx, hy, ht⟩
  · simp
  · cases k with
    | zero => simp
    | succ k => exact ha.matching hb hx hy ht

/-- What holds of the history in every reachable state. -/
structure Coherent (members : Finset N) (tm : E → Nat) (s : Protocol N E) : Prop where
  ballot_bound : ∀ {t p b}, s.ballot t p = some b → t ≤ s.term p ∧ 0 < t ∧ p ∈ members
  ballot_candidate : ∀ {t p c L}, s.ballot t p = some (c, L) → s.leader t = none →
    ∃ L', s.ballot t c = some (c, L') ∧ UpToDate tm L' L
  ballot_current : ∀ {p c L}, s.ballot (s.term p) p = some (c, L) →
    s.leader (s.term p) = none → s.log p = L
  ballot_traced : ∀ {t p c L}, s.ballot t p = some (c, L) → Traced tm s L
  leader_quorum : ∀ {t c}, s.leader t = some c → ∃ Q, Majority members Q ∧ c ∈ Q ∧
    ∀ v ∈ Q, ∃ L, s.ballot t v = some (c, L) ∧ UpToDate tm (s.elected t) L
  leader_log : ∀ {p}, s.leader (s.term p) = some p → s.log p = s.ledger (s.term p)
  leader_acked : ∀ {t c}, s.leader t = some c → s.acked t c = (s.ledger t).length
  vacant : ∀ {t}, s.leader t = none → s.elected t = [] ∧ s.ledger t = []
  elected_isPrefix : ∀ t, s.elected t <+: s.ledger t
  elected_term : ∀ {t e}, e ∈ s.elected t → tm e < t
  ledger_tail : ∀ {t i e}, (s.ledger t)[i]? = some e → (s.elected t).length ≤ i → tm e = t
  ledger_traced : ∀ t, Traced tm s (s.ledger t)
  log_traced : ∀ p, Traced tm s (s.log p)
  log_term : ∀ {p e}, e ∈ s.log p → tm e ≤ s.term p
  acked_le : ∀ t p, s.acked t p ≤ (s.ledger t).length
  acked_term : ∀ {t p}, s.acked t p ≠ 0 → t ≤ s.term p

theorem coherent_initial (members : Finset N) (tm : E → Nat) :
    Coherent members tm (Protocol.initial : Protocol N E) where
  ballot_bound h := by cases h
  ballot_candidate h := by cases h
  ballot_current h := by cases h
  ballot_traced h := by cases h
  leader_quorum h := by cases h
  leader_log h := by cases h
  leader_acked h := by cases h
  vacant _ := ⟨rfl, rfl⟩
  elected_isPrefix _ := List.prefix_rfl
  elected_term h := by cases h
  ledger_tail h := by simp [Protocol.initial] at h
  ledger_traced _ := traced_nil tm _
  log_traced _ := traced_nil tm _
  log_term h := by cases h
  acked_le _ _ := le_rfl
  acked_term h := absurd rfl h

namespace Coherent
variable {members : Finset N} {tm : E → Nat} {s : Protocol N E}

/-- Nobody leads a term the node has not reached. -/
theorem leader_term (h : Coherent members tm s) {t : Nat} {c : N} (hl : s.leader t = some c) :
    t ≤ s.term c ∧ 0 < t := by
  obtain ⟨Q, _, hc, hQ⟩ := h.leader_quorum hl
  obtain ⟨L, hL, _⟩ := hQ c hc
  exact ⟨(h.ballot_bound hL).1, (h.ballot_bound hL).2.1⟩

/-- Entries of a ledger never have a larger term than the ledger. -/
theorem ledger_term (h : Coherent members tm s) {t i : Nat} {e : E}
    (he : (s.ledger t)[i]? = some e) : tm e ≤ t := by
  rcases Nat.lt_or_ge i (s.elected t).length with hi | hi
  · rw [← getElem?_of_take_eq (take_eq_of_isPrefix (h.elected_isPrefix t) le_rfl).symm hi] at he
    exact (h.elected_term (List.mem_of_getElem? he)).le
  · exact (h.ledger_tail he hi).le

/-- Terms do not decrease along a traced list. -/
theorem sorted (h : Coherent members tm s) {l : List E} (hl : Traced tm s l) {i j : Nat} {x y : E}
    (hx : l[i]? = some x) (hy : l[j]? = some y) (hij : i ≤ j) : tm x ≤ tm y := by
  refine h.ledger_term (i := i) ?_
  rw [← getElem?_of_take_eq (hl j y hy).2 (Nat.lt_succ_of_le hij)]
  exact hx

theorem entry_term_pos (h : Coherent members tm s) {l : List E} (hl : Traced tm s l) {e : E}
    (he : e ∈ l) : 0 < tm e := by
  obtain ⟨i, hi⟩ := List.mem_iff_getElem?.mp he
  obtain ⟨⟨c, hc⟩, _⟩ := hl i e hi
  exact (h.leader_term hc).2

/-- A traced list is a prefix of the ledger of its last term. -/
theorem eq_take_ledger {l : List E} (hl : Traced tm s l) {e : E}
    (he : l.getLast? = some e) : l = (s.ledger (tm e)).take l.length := by
  rw [List.getLast?_eq_getElem?] at he
  have htake := (hl _ e he).2
  have hi := (List.getElem?_eq_some_iff.mp he).1
  rwa [show l.length - 1 + 1 = l.length by omega, List.take_length] at htake

theorem lastTerm_of_getLast? {l : List E} {e : E} (he : l.getLast? = some e) :
    lastTerm tm l = tm e := by simp [lastTerm, he]

/-- No step takes anything of the history back. -/
theorem grows [DecidableEq N] (h : Coherent members tm s) {K : Prop} {s' : Protocol N E}
    (hs : Step members tm K s s') : Grows s s' := by
  cases hs with
  | @raise p t later =>
    refine ⟨fun q => ?_, fun hb => hb, fun hl => ⟨hl, rfl, List.prefix_rfl⟩, fun _ _ => le_rfl⟩
    by_cases hq : q = p
    · subst hq
      simp [Protocol.raiseTerm, later.le]
    · simp [Protocol.raiseTerm, hq]
  | @vote p c member started first candidate =>
    refine ⟨fun _ => le_rfl, fun {t q b} hb => ?_, fun hl => ⟨hl, rfl, List.prefix_rfl⟩,
      fun _ _ => le_rfl⟩
    have hne : ¬ (t = s.term p ∧ q = p) := by
      rintro ⟨rfl, rfl⟩
      simp [first] at hb
    simpa [Protocol.castBallot, hne] using hb
  | @elect c quorum vacant large own votes =>
    refine ⟨fun _ => le_rfl, fun hb => hb, fun {t d} hl => ?_, fun t q => ?_⟩
    · have hne : t ≠ s.term c := by
        rintro rfl
        simp [vacant] at hl
      simp [Protocol.install, hne, hl]
    · have hle := h.acked_le t q
      unfold Protocol.install
      dsimp only
      split_ifs with heq
      · rw [heq.1, (h.vacant vacant).2, List.length_nil] at hle
        rw [heq.1]
        omega
      · exact le_rfl
  | @append c e leads current =>
    refine ⟨fun _ => le_rfl, fun hb => hb, fun {t d} hl => ?_, fun t q => ?_⟩
    · by_cases hne : t = s.term c
      · subst hne
        simp [Protocol.extend, hl]
      · simp [Protocol.extend, hne, hl]
    · have hle := h.acked_le t q
      unfold Protocol.extend
      dsimp only
      split_ifs with heq
      · rw [heq.1, ← h.leader_log leads] at hle
        rw [heq.1]
        omega
      · exact le_rfl
  | accept _ _ _ _ _ _ =>
    refine ⟨fun _ => le_rfl, fun hb => hb, fun hl => ⟨hl, rfl, List.prefix_rfl⟩, fun t q => ?_⟩
    unfold Protocol.store
    dsimp only
    split_ifs
    · exact le_max_left _ _
    · exact le_rfl

variable [DecidableEq N]

private theorem raise (h : Coherent members tm s) {p : N} {t : Nat} (later : s.term p < t) :
    Coherent members tm (s.raiseTerm p t) := by
  have hg := h.grows (Step.raise (K := False) later)
  have hfresh (b : N × List E) : s.ballot t p ≠ some b := fun hb =>
    absurd (h.ballot_bound hb).1 (not_le.mpr later)
  have hnew : (s.raiseTerm p t).term p = t := by simp [Protocol.raiseTerm]
  have hold {q : N} (hq : q ≠ p) : (s.raiseTerm p t).term q = s.term q := by
    simp [Protocol.raiseTerm, hq]
  exact {
    ballot_bound := fun {t' q b} hb => by
      obtain ⟨hle, hpos, hmem⟩ := h.ballot_bound hb
      exact ⟨hle.trans (hg.term q), hpos, hmem⟩
    ballot_candidate := h.ballot_candidate
    ballot_current := fun {q c L} hb hl => by
      by_cases hq : q = p
      · subst hq
        rw [hnew] at hb
        exact absurd hb (hfresh _)
      · rw [hold hq] at hb hl
        exact h.ballot_current hb hl
    ballot_traced := fun hb => (h.ballot_traced hb).mono hg
    leader_quorum := h.leader_quorum
    leader_log := fun {q} hl => by
      by_cases hq : q = p
      · subst hq
        rw [hnew] at hl
        exact absurd (h.leader_term hl).1 (not_le.mpr later)
      · rw [hold hq] at hl ⊢
        exact h.leader_log hl
    leader_acked := h.leader_acked
    vacant := h.vacant
    elected_isPrefix := h.elected_isPrefix
    elected_term := h.elected_term
    ledger_tail := h.ledger_tail
    ledger_traced := fun t' => (h.ledger_traced t').mono hg
    log_traced := fun q => (h.log_traced q).mono hg
    log_term := fun {q e} he => (h.log_term he).trans (hg.term q)
    acked_le := h.acked_le
    acked_term := fun {t' q} ha => (h.acked_term ha).trans (hg.term q) }

private theorem vote (h : Coherent members tm s) {p c : N} (member : p ∈ members)
    (started : 0 < s.term p) (first : s.ballot (s.term p) p = none)
    (candidate : p = c ∨ ∃ L, s.ballot (s.term p) c = some (c, L) ∧
      (s.leader (s.term p) = none → UpToDate tm L (s.log p))) :
    Coherent members tm (s.castBallot p c) := by
  have hg := h.grows (Step.vote (K := False) member started first candidate)
  -- a ballot is an old one or the new one
  have hcases {t : Nat} {q d : N} {L : List E} (hb : (s.castBallot p c).ballot t q = some (d, L)) :
      s.ballot t q = some (d, L) ∨ t = s.term p ∧ q = p ∧ d = c ∧ L = s.log p := by
    unfold Protocol.castBallot at hb
    dsimp only at hb
    split_ifs at hb with heq
    · simp only [Option.some.injEq, Prod.mk.injEq] at hb
      exact .inr ⟨heq.1, heq.2, hb.1.symm, hb.2.symm⟩
    · exact .inl hb
  have hnew : (s.castBallot p c).ballot (s.term p) p = some (c, s.log p) := by
    simp [Protocol.castBallot]
  exact {
    ballot_bound := fun {t q b} hb => by
      rcases hcases hb with hb | ⟨rfl, rfl, _, _⟩
      · exact h.ballot_bound hb
      · exact ⟨le_rfl, started, member⟩
    ballot_candidate := fun {t q d L} hb hl => by
      rcases hcases hb with hb | ⟨rfl, rfl, rfl, rfl⟩
      · obtain ⟨L', hL', hup⟩ := h.ballot_candidate hb hl
        exact ⟨L', hg.ballot hL', hup⟩
      · rcases candidate with rfl | ⟨L', hL', hup⟩
        · exact ⟨_, hnew, .inr ⟨rfl, le_rfl⟩⟩
        · exact ⟨L', hg.ballot hL', hup hl⟩
    ballot_current := fun {q d L} hb hl => by
      rcases hcases hb with hb | ⟨_, rfl, _, rfl⟩
      · exact h.ballot_current hb hl
      · rfl
    ballot_traced := fun hb => by
      rcases hcases hb with hb | ⟨_, _, _, rfl⟩
      · exact (h.ballot_traced hb).mono hg
      · exact (h.log_traced p).mono hg
    leader_quorum := fun hl => by
      obtain ⟨Q, hmaj, hc, hQ⟩ := h.leader_quorum hl
      refine ⟨Q, hmaj, hc, fun v hv => ?_⟩
      obtain ⟨L, hL, hup⟩ := hQ v hv
      exact ⟨L, hg.ballot hL, hup⟩
    leader_log := h.leader_log
    leader_acked := h.leader_acked
    vacant := h.vacant
    elected_isPrefix := h.elected_isPrefix
    elected_term := h.elected_term
    ledger_tail := h.ledger_tail
    ledger_traced := fun t => (h.ledger_traced t).mono hg
    log_traced := fun q => (h.log_traced q).mono hg
    log_term := h.log_term
    acked_le := h.acked_le
    acked_term := h.acked_term }

private theorem elect (h : Coherent members tm s) {c : N} {quorum : Finset N}
    (vacant : s.leader (s.term c) = none) (large : Majority members quorum) (own : c ∈ quorum)
    (votes : ∀ v ∈ quorum, ∃ L, s.ballot (s.term c) v = some (c, L)) :
    Coherent members tm (s.install c) := by
  have hg := h.grows (Step.elect (K := False) vacant large own votes)
  have hleader : (s.install c).leader (s.term c) = some c := by simp [Protocol.install]
  have helected : (s.install c).elected (s.term c) = s.log c := by simp [Protocol.install]
  have hledger : (s.install c).ledger (s.term c) = s.log c := by simp [Protocol.install]
  have hsame {t : Nat} (ht : t ≠ s.term c) : (s.install c).leader t = s.leader t ∧
      (s.install c).elected t = s.elected t ∧ (s.install c).ledger t = s.ledger t := by
    simp [Protocol.install, ht]
  have hacked {t : Nat} {q : N} (ht : ¬ (t = s.term c ∧ q = c)) :
      (s.install c).acked t q = s.acked t q := by simp [Protocol.install, ht]
  exact {
    ballot_bound := h.ballot_bound
    ballot_candidate := fun {t q d L} hb hl => by
      by_cases ht : t = s.term c
      · subst ht
        simp [hleader] at hl
      · rw [(hsame ht).1] at hl
        exact h.ballot_candidate hb hl
    ballot_current := fun {q d L} hb hl => by
      by_cases ht : s.term q = s.term c
      · change (s.install c).leader (s.term q) = none at hl
        rw [ht, hleader] at hl
        cases hl
      · exact h.ballot_current hb ((hsame ht).1.symm.trans hl)
    ballot_traced := fun hb => (h.ballot_traced hb).mono hg
    leader_quorum := fun {t d} hl => by
      by_cases ht : t = s.term c
      · subst ht
        obtain rfl : c = d := by simpa [hleader] using hl
        refine ⟨quorum, large, own, fun v hv => ?_⟩
        obtain ⟨L, hL⟩ := votes v hv
        obtain ⟨L', hL', hup⟩ := h.ballot_candidate hL vacant
        rw [helected, h.ballot_current hL' vacant]
        exact ⟨L, hL, hup⟩
      · rw [(hsame ht).2.1]
        exact h.leader_quorum ((hsame ht).1.symm.trans hl)
    leader_log := fun {q} hl => by
      by_cases ht : s.term q = s.term c
      · change (s.install c).leader (s.term q) = some q at hl
        change s.log q = (s.install c).ledger (s.term q)
        rw [ht, hleader] at hl
        obtain rfl : c = q := by simpa using hl
        exact hledger.symm
      · change s.log q = (s.install c).ledger (s.term q)
        rw [(hsame ht).2.2]
        exact h.leader_log ((hsame ht).1.symm.trans hl)
    leader_acked := fun {t d} hl => by
      by_cases ht : t = s.term c
      · subst ht
        obtain rfl : c = d := by simpa [hleader] using hl
        simp [Protocol.install]
      · rw [(hsame ht).2.2, hacked (fun heq => ht heq.1)]
        exact h.leader_acked ((hsame ht).1.symm.trans hl)
    vacant := fun {t} hl => by
      by_cases ht : t = s.term c
      · subst ht
        simp [hleader] at hl
      · rw [(hsame ht).2.1, (hsame ht).2.2]
        exact h.vacant ((hsame ht).1.symm.trans hl)
    elected_isPrefix := fun t => by
      by_cases ht : t = s.term c
      · rw [ht, helected, hledger]
      · rw [(hsame ht).2.1, (hsame ht).2.2]
        exact h.elected_isPrefix t
    elected_term := fun {t e} he => by
      by_cases ht : t = s.term c
      · subst ht
        rw [helected] at he
        obtain ⟨i, hi⟩ := List.mem_iff_getElem?.mp he
        obtain ⟨⟨d, hd⟩, _⟩ := h.log_traced c i e hi
        refine lt_of_le_of_ne (h.log_term he) fun heq => ?_
        rw [heq, vacant] at hd
        cases hd
      · exact h.elected_term ((hsame ht).2.1 ▸ he)
    ledger_tail := fun {t i e} he hi => by
      by_cases ht : t = s.term c
      · subst ht
        rw [hledger] at he
        rw [helected] at hi
        exact absurd (List.getElem?_eq_some_iff.mp he).1 (not_lt.mpr hi)
      · rw [(hsame ht).2.2] at he
        rw [(hsame ht).2.1] at hi
        exact h.ledger_tail he hi
    ledger_traced := fun t => by
      by_cases ht : t = s.term c
      · rw [ht, hledger]
        exact (h.log_traced c).mono hg
      · rw [(hsame ht).2.2]
        exact (h.ledger_traced t).mono hg
    log_traced := fun q => (h.log_traced q).mono hg
    log_term := h.log_term
    acked_le := fun t q => by
      by_cases heq : t = s.term c ∧ q = c
      · obtain ⟨rfl, rfl⟩ := heq
        simp [Protocol.install]
      · rw [hacked heq]
        by_cases ht : t = s.term c
        · have hle := h.acked_le t q
          rw [ht, (h.vacant vacant).2, List.length_nil] at hle
          rw [ht]
          omega
        · rw [(hsame ht).2.2]
          exact h.acked_le t q
    acked_term := fun {t q} ha => by
      by_cases heq : t = s.term c ∧ q = c
      · exact heq.1 ▸ heq.2 ▸ le_rfl
      · rw [hacked heq] at ha
        exact h.acked_term ha }

private theorem append (h : Coherent members tm s) {c : N} {e : E}
    (leads : s.leader (s.term c) = some c) (current : tm e = s.term c) :
    Coherent members tm (s.extend c e) := by
  have hg := h.grows (Step.append (K := False) leads current)
  have hlog : (s.extend c e).log c = s.log c ++ [e] := by simp [Protocol.extend]
  have hledger : (s.extend c e).ledger (s.term c) = s.log c ++ [e] := by
    simp [Protocol.extend, h.leader_log leads]
  have hsameLog {q : N} (hq : q ≠ c) : (s.extend c e).log q = s.log q := by
    simp [Protocol.extend, hq]
  have hsame {t : Nat} (ht : t ≠ s.term c) : (s.extend c e).ledger t = s.ledger t := by
    simp [Protocol.extend, ht]
  have hacked {t : Nat} {q : N} (ht : ¬ (t = s.term c ∧ q = c)) :
      (s.extend c e).acked t q = s.acked t q := by simp [Protocol.extend, ht]
  have htraced : Traced tm (s.extend c e) (s.log c ++ [e]) := by
    intro i x hx
    rcases Nat.lt_or_ge i (s.log c).length with hi | hi
    · rw [List.getElem?_append_left hi] at hx
      obtain ⟨hlead, htake⟩ := (h.log_traced c).mono hg i x hx
      exact ⟨hlead, by rw [List.take_append_of_le_length (by omega), htake]⟩
    · have hlast : i = (s.log c).length := by
        have := (List.getElem?_eq_some_iff.mp hx).1
        simp only [List.length_append, List.length_singleton] at this
        omega
      obtain rfl : e = x := by simpa [hlast] using hx
      exact ⟨⟨c, current ▸ leads⟩, by rw [current, hledger]⟩
  exact {
    ballot_bound := h.ballot_bound
    ballot_candidate := h.ballot_candidate
    ballot_current := fun {q d L} hb hl => by
      rcases eq_or_ne q c with rfl | hq
      · change s.leader (s.term q) = none at hl
        rw [leads] at hl
        cases hl
      · rw [hsameLog hq]
        exact h.ballot_current hb hl
    ballot_traced := fun hb => (h.ballot_traced hb).mono hg
    leader_quorum := h.leader_quorum
    leader_log := fun {q} hl => by
      change s.leader (s.term q) = some q at hl
      change (s.extend c e).log q = (s.extend c e).ledger (s.term q)
      rcases eq_or_ne q c with rfl | hq
      · rw [hlog, hledger]
      · have ht : s.term q ≠ s.term c := fun heq => hq (by simpa [heq, leads] using hl.symm)
        rw [hsameLog hq, hsame ht]
        exact h.leader_log hl
    leader_acked := fun {t d} hl => by
      change s.leader t = some d at hl
      by_cases ht : t = s.term c
      · subst ht
        obtain rfl : c = d := by simpa [leads] using hl
        rw [hledger]
        simp [Protocol.extend]
      · rw [hsame ht, hacked (fun heq => ht heq.1)]
        exact h.leader_acked hl
    vacant := fun {t} hl => by
      change s.leader t = none at hl
      have ht : t ≠ s.term c := by
        rintro rfl
        simp [leads] at hl
      rw [hsame ht]
      exact h.vacant hl
    elected_isPrefix := fun t => by
      by_cases ht : t = s.term c
      · subst ht
        rw [hledger, h.leader_log leads]
        exact (h.elected_isPrefix _).trans (List.prefix_append _ _)
      · rw [hsame ht]
        exact h.elected_isPrefix t
    elected_term := h.elected_term
    ledger_tail := fun {t i x} hx hi => by
      by_cases ht : t = s.term c
      · subst ht
        rw [hledger] at hx
        rcases Nat.lt_or_ge i (s.log c).length with hlt | hge
        · rw [List.getElem?_append_left hlt, h.leader_log leads] at hx
          exact h.ledger_tail hx hi
        · have hmem := List.mem_of_getElem? ((List.getElem?_append_right hge).symm.trans hx)
          rw [List.mem_singleton.mp hmem, current]
      · rw [hsame ht] at hx
        exact h.ledger_tail hx hi
    ledger_traced := fun t => by
      by_cases ht : t = s.term c
      · rw [ht, hledger]
        exact htraced
      · rw [hsame ht]
        exact (h.ledger_traced t).mono hg
    log_traced := fun q => by
      rcases eq_or_ne q c with rfl | hq
      · rw [hlog]
        exact htraced
      · rw [hsameLog hq]
        exact (h.log_traced q).mono hg
    log_term := fun {q x} hx => by
      rcases eq_or_ne q c with rfl | hq
      · rw [hlog] at hx
        rcases List.mem_append.mp hx with hx | hx
        · exact h.log_term hx
        · rw [List.mem_singleton.mp hx]
          exact current.le
      · rw [hsameLog hq] at hx
        exact h.log_term hx
    acked_le := fun t q => by
      by_cases heq : t = s.term c ∧ q = c
      · obtain ⟨rfl, rfl⟩ := heq
        rw [hledger]
        simp [Protocol.extend]
      · rw [hacked heq]
        by_cases ht : t = s.term c
        · have hle := h.acked_le t q
          rw [ht, ← h.leader_log leads] at hle
          rw [ht, hledger, List.length_append]
          omega
        · rw [hsame ht]
          exact h.acked_le t q
    acked_term := fun {t q} ha => by
      by_cases heq : t = s.term c ∧ q = c
      · exact heq.1 ▸ heq.2 ▸ le_rfl
      · rw [hacked heq] at ha
        exact h.acked_term ha }

omit [DecidableEq N] in
/-- What a node stores is a prefix of the ledger, as the part before it agreed already. -/
theorem received_eq (h : Coherent members tm s) {p : N} {k j : Nat} (hkj : k < j)
    (agree : AgreeAt tm k (s.log p) (s.ledger (s.term p))) :
    s.received p k j = (s.ledger (s.term p)).take j := by
  have htake := (h.log_traced p).take_of_agreeAt (h.ledger_traced (s.term p)) agree
  rw [Protocol.received, if_pos hkj, htake]
  have hsplit := List.take_append_drop k ((s.ledger (s.term p)).take j)
  rwa [List.take_take, Nat.min_eq_left hkj.le] at hsplit

private theorem accept (h : Coherent members tm s) {p c : N} {k j : Nat}
    (led : s.leader (s.term p) = some c) (other : p ≠ c) (order : k ≤ j)
    (stored : j ≤ (s.ledger (s.term p)).length)
    (agree : AgreeAt tm k (s.log p) (s.ledger (s.term p))) :
    Coherent members tm (s.store p k j) := by
  have hg := h.grows (Step.accept (K := False) led other order stored agree False.elim)
  have hlog : (s.store p k j).log p = s.received p k j := by simp [Protocol.store]
  have hsameLog {q : N} (hq : q ≠ p) : (s.store p k j).log q = s.log q := by
    simp [Protocol.store, hq]
  -- what is stored is either the old log or a prefix of the ledger
  have hreceived : s.received p k j = s.log p ∨
      s.received p k j = (s.ledger (s.term p)).take j := by
    rcases Nat.lt_or_ge k j with hkj | hkj
    · exact .inr (h.received_eq hkj agree)
    · exact .inl (by rw [Protocol.received, if_neg (by omega)])
  have hnotLeader {q : N} (hl : s.leader (s.term q) = some q) : q ≠ p := by
    rintro rfl
    exact other (by simpa [led] using hl.symm)
  exact {
    ballot_bound := h.ballot_bound
    ballot_candidate := h.ballot_candidate
    ballot_current := fun {q d L} hb hl => by
      rcases eq_or_ne q p with rfl | hq
      · change s.leader (s.term q) = none at hl
        rw [led] at hl
        cases hl
      · rw [hsameLog hq]
        exact h.ballot_current hb hl
    ballot_traced := fun hb => (h.ballot_traced hb).mono hg
    leader_quorum := h.leader_quorum
    leader_log := fun {q} hl => (hsameLog (hnotLeader hl)).trans (h.leader_log hl)
    leader_acked := fun {t d} hl => by
      change s.leader t = some d at hl
      have hne : ¬ (t = s.term p ∧ d = p) := by
        rintro ⟨rfl, rfl⟩
        exact hnotLeader hl rfl
      simpa [Protocol.store, hne] using h.leader_acked hl
    vacant := h.vacant
    elected_isPrefix := h.elected_isPrefix
    elected_term := h.elected_term
    ledger_tail := h.ledger_tail
    ledger_traced := fun t => (h.ledger_traced t).mono hg
    log_traced := fun q => by
      rcases eq_or_ne q p with rfl | hq
      · rw [hlog]
        rcases hreceived with heq | heq
        · exact heq ▸ (h.log_traced q).mono hg
        · exact heq ▸ ((h.ledger_traced _).take j).mono hg
      · exact (hsameLog hq) ▸ (h.log_traced q).mono hg
    log_term := fun {q x} hx => by
      rcases eq_or_ne q p with rfl | hq
      · rw [hlog] at hx
        rcases hreceived with heq | heq
        · exact h.log_term (heq ▸ hx)
        · obtain ⟨i, hi⟩ := List.mem_iff_getElem?.mp (List.mem_of_mem_take (heq ▸ hx))
          exact h.ledger_term hi
      · exact h.log_term (hsameLog hq ▸ hx)
    acked_le := fun t q => by
      have hle := h.acked_le t q
      change (s.store p k j).acked t q ≤ (s.ledger t).length
      unfold Protocol.store
      dsimp only
      split_ifs with heq
      · rw [heq.1] at hle ⊢
        exact max_le hle stored
      · exact hle
    acked_term := fun {t q} ha => by
      by_cases heq : t = s.term p ∧ q = p
      · exact heq.1 ▸ heq.2 ▸ le_rfl
      · simp only [Protocol.store, heq, if_false] at ha
        exact h.acked_term ha }

/-- Every step keeps the history coherent, careful or not. -/
theorem step (h : Coherent members tm s) {K : Prop} {s' : Protocol N E}
    (hs : Step members tm K s s') : Coherent members tm s' := by
  cases hs with
  | raise later => exact h.raise later
  | vote member started first candidate => exact h.vote member started first candidate
  | elect vacant large own votes => exact h.elect vacant large own votes
  | append leads current => exact h.append leads current
  | accept led other order stored agree _ => exact h.accept led other order stored agree

theorem steps (h : Coherent members tm s) {K : Prop} {s' : Protocol N E}
    (hs : Steps members tm K s s') : Coherent members tm s' ∧ Grows s s' := by
  induction hs with
  | refl => exact ⟨h, .refl s⟩
  | tail _ hstep ih => exact ⟨ih.1.step hstep, ih.2.trans (ih.1.grows hstep)⟩

end Coherent
end MyEtcd.Library.Consensus
