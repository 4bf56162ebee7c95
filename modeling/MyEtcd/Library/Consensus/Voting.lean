import MyEtcd.Library.Consensus.Protocol

/-! One leader a term. This part of the protocol looks at votes only: it holds of any machine whose
leaders have a majority of the ballots of their term, whatever it does to the logs. -/
namespace MyEtcd.Library.Consensus
variable {N E : Type}

/-- Ballots are cast by members in terms they have reached, and leaders are backed by them. -/
structure Voting (members : Finset N) (s : Protocol N E) : Prop where
  bound : ∀ {t p b}, s.ballot t p = some b → t ≤ s.term p ∧ 0 < t ∧ p ∈ members
  quorum : ∀ {t c}, s.leader t = some c → ∃ Q, Majority members Q ∧ c ∈ Q ∧
    ∀ v ∈ Q, ∃ L, s.ballot t v = some (c, L)

/-- What an election, once won, and a vote, once cast, stay. -/
structure VotesGrow (s s' : Protocol N E) : Prop where
  ballot : ∀ {t p b}, s.ballot t p = some b → s'.ballot t p = some b
  leader : ∀ {t c}, s.leader t = some c → s'.leader t = some c

theorem VotesGrow.refl (s : Protocol N E) : VotesGrow s s := ⟨id, id⟩

theorem VotesGrow.trans {a b c : Protocol N E} (h : VotesGrow a b) (h' : VotesGrow b c) :
    VotesGrow a c := ⟨h'.ballot ∘ h.ballot, h'.leader ∘ h.leader⟩

namespace Voting
variable {members : Finset N} {s : Protocol N E}

theorem initial (members : Finset N) : Voting members (Protocol.initial : Protocol N E) where
  bound h := by cases h
  quorum h := by cases h

variable [DecidableEq N]

/-- At most one node is ever leader of a term: both would need a majority of its votes. -/
theorem leader_unique (h : Voting members s) {t : Nat} {c d : N} {quorum : Finset N}
    (hl : s.leader t = some c) (hQ : Majority members quorum)
    (hv : ∀ v ∈ quorum, ∃ L, s.ballot t v = some (d, L)) : d = c := by
  obtain ⟨Q, hmaj, _, hvotes⟩ := h.quorum hl
  obtain ⟨v, hv1, hv2⟩ := hmaj.meet hQ
  obtain ⟨L, hL⟩ := hvotes v hv1
  obtain ⟨L', hL'⟩ := hv v hv2
  have := hL.symm.trans hL'
  simp only [Option.some.injEq, Prod.mk.injEq] at this
  exact this.1.symm

theorem raise (h : Voting members s) {p : N} {t : Nat} (later : s.term p < t) :
    Voting members (s.raiseTerm p t) where
  bound {t' q b} hb := by
    obtain ⟨hle, hpos, hmem⟩ := h.bound (show s.ballot t' q = some b from hb)
    refine ⟨hle.trans ?_, hpos, hmem⟩
    rcases eq_or_ne q p with rfl | hq
    · simp [Protocol.raiseTerm, later.le]
    · simp [Protocol.raiseTerm, hq]
  quorum hl := h.quorum hl

omit [DecidableEq N] in
/-- No ballot has been cast in a term the node has not reached. -/
theorem fresh (h : Voting members s) {p : N} {t : Nat} (later : s.term p < t) :
    s.ballot t p = none := by
  cases hb : s.ballot t p with
  | none => rfl
  | some b => exact absurd (h.bound hb).1 (not_le.mpr later)

theorem vote (h : Voting members s) {p c : N} (member : p ∈ members) (started : 0 < s.term p)
    (first : s.ballot (s.term p) p = none) :
    VotesGrow s (s.castBallot p c) ∧ Voting members (s.castBallot p c) := by
  have hkeep {t : Nat} {q : N} {b : N × List E} (hb : s.ballot t q = some b) :
      (s.castBallot p c).ballot t q = some b := by
    have hne : ¬ (t = s.term p ∧ q = p) := by
      rintro ⟨rfl, rfl⟩
      simp [first] at hb
    simpa [Protocol.castBallot, hne] using hb
  refine ⟨⟨hkeep, id⟩, fun {t q b} hb => ?_, fun hl => ?_⟩
  · by_cases heq : t = s.term p ∧ q = p
    · obtain ⟨rfl, rfl⟩ := heq
      exact ⟨le_rfl, started, member⟩
    · exact h.bound (by simpa [Protocol.castBallot, heq] using hb)
  · obtain ⟨Q, hmaj, hc, hQ⟩ := h.quorum hl
    exact ⟨Q, hmaj, hc, fun v hv => (hQ v hv).imp fun L hL => hkeep hL⟩

theorem elect (h : Voting members s) {c : N} {quorum : Finset N} (large : Majority members quorum)
    (own : c ∈ quorum) (votes : ∀ v ∈ quorum, ∃ L, s.ballot (s.term c) v = some (c, L)) :
    VotesGrow s (s.install c) ∧ Voting members (s.install c) := by
  refine ⟨⟨id, fun {t d} hl => ?_⟩, h.bound, fun {t d} hl => ?_⟩
  · rcases eq_or_ne t (s.term c) with rfl | ht
    · simp [Protocol.install, h.leader_unique hl large votes]
    · simp [Protocol.install, ht, hl]
  · rcases eq_or_ne t (s.term c) with rfl | ht
    · obtain rfl : c = d := by simpa [Protocol.install] using hl
      exact ⟨quorum, large, own, votes⟩
    · exact h.quorum (by simpa [Protocol.install, ht] using hl)

end Voting
end MyEtcd.Library.Consensus
